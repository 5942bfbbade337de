import PekerOS.Lib.Table

/-!
# C strings

A string argument is a list of non-zero bytes, the terminating zero left out. A string inside a
byte buffer starts at an offset and runs to the first zero byte, so it is the whole tail of the
buffer when no zero follows. `strcmp` is the kernel's own loop.

## Main definitions

* `CString`, `CString.ofBytes`: the bytes of a NUL-terminated string, and the string at given bytes
* `strcmp`: the kernel's comparison
* `cstrAt buf off`: the string at an offset of a buffer

## Main results

* `strcmp_eq_zero_iff`: the comparison is zero exactly on equal strings
* `cstrAt_eq_of_bytes`: the string written at an offset
* `cstrAt_congr`: a string terminated inside a field depends on the field only
-/

namespace PekerOS

/-- A NUL-terminated string: its bytes before the terminator. -/
@[ext] structure CString where
  chars : List Byte
  /-- The terminator is not one of the characters. -/
  noNul : ∀ c ∈ chars, c ≠ 0#8
deriving DecidableEq

instance : Inhabited CString := ⟨⟨[], by simp⟩⟩

/-- The string that starts at the first of these bytes, which are taken to be followed by a zero. -/
def CString.ofBytes (bytes : List Byte) : CString where
  chars := bytes.takeWhile fun c => c ≠ 0#8
  noNul c hc := by simpa using List.mem_takeWhile_imp hc

/-- Bytes without a zero are all read. -/
theorem CString.ofBytes_chars {bytes : List Byte} (h : ∀ c ∈ bytes, c ≠ 0#8) :
    (CString.ofBytes bytes).chars = bytes :=
  List.takeWhile_eq_self_iff.mpr fun c hc => decide_eq_true (h c hc)

instance : Append CString where
  append s t := ⟨s.chars ++ t.chars, fun c hc =>
    (List.mem_append.mp hc).elim (s.noNul c) (t.noNul c)⟩

@[simp] theorem CString.chars_append (s t : CString) : (s ++ t).chars = s.chars ++ t.chars := rfl

/-- What follows the terminator is not read. -/
theorem CString.ofBytes_append_zero (s : CString) (rest : List Byte) :
    CString.ofBytes (s.chars ++ 0#8 :: rest) = s := by
  have hchars : (s.chars ++ 0#8 :: rest).takeWhile (fun c => decide (c ≠ 0#8)) = s.chars := by
    rw [List.takeWhile_append_of_pos fun c hc => by simpa using s.noNul c hc]
    simp
  cases s
  simp only [CString.ofBytes, CString.mk.injEq]
  exact hchars

/-- `strcmp`: the difference of the first characters that differ, the terminator counting as zero. -/
def strcmp : List Byte → List Byte → ℤ
  | [], [] => 0
  | [], b :: _ => 0 - b.toNat
  | a :: _, [] => a.toNat
  | a :: s, b :: t => if a = b then strcmp s t else (a.toNat : ℤ) - b.toNat

theorem strcmp_eq_zero_iff {s t : List Byte} (hs : ∀ c ∈ s, c ≠ 0#8) (ht : ∀ c ∈ t, c ≠ 0#8) :
    strcmp s t = 0 ↔ s = t := by
  induction s generalizing t with
  | nil =>
    cases t with
    | nil => simp [strcmp]
    | cons b t =>
      have hb : b.toNat ≠ 0 := fun h => ht b List.mem_cons_self (BitVec.eq_of_toNat_eq h)
      simp only [strcmp, reduceCtorEq, iff_false]
      omega
  | cons a s ih =>
    cases t with
    | nil =>
      have ha : a.toNat ≠ 0 := fun h => hs a List.mem_cons_self (BitVec.eq_of_toNat_eq h)
      simp only [strcmp, reduceCtorEq, iff_false]
      omega
    | cons b t =>
      rw [strcmp]
      split
      · next hab =>
        rw [ih (fun c hc => hs c (List.mem_cons_of_mem a hc))
          (fun c hc => ht c (List.mem_cons_of_mem b hc)), hab]
        simp
      · next hab =>
        -- the difference of two characters is not 0
        have hne : a.toNat ≠ b.toNat := fun h => hab (BitVec.eq_of_toNat_eq h)
        simp only [List.cons.injEq, hab, false_and, iff_false]
        omega

/-! ## Strings inside a buffer -/

section Buffer

variable {n : ℕ}

/-- The string at offset `off`: the bytes up to the first zero. -/
def cstrAt (buf : Table n Byte) (off : ℕ) : List Byte :=
  ((List.range' off (n - off)).map buf.get).takeWhile fun c => c ≠ 0#8

theorem cstrAt_noNul (buf : Table n Byte) (off : ℕ) : ∀ c ∈ cstrAt buf off, c ≠ 0#8 := by
  intro c hc
  simpa using List.mem_takeWhile_imp hc

theorem cstrAt_eq_cons {buf : Table n Byte} {off : ℕ} (h : off < n) (hc : buf.get off ≠ 0#8) :
    cstrAt buf off = buf.get off :: cstrAt buf (off + 1) := by
  obtain ⟨k, hk⟩ : ∃ k, n - off = k + 1 := ⟨n - off - 1, by omega⟩
  have hk' : n - (off + 1) = k := by omega
  simp [cstrAt, hk, hk', List.range'_succ, hc]

theorem cstrAt_eq_nil {buf : Table n Byte} {off : ℕ} (hc : buf.get off = 0#8) :
    cstrAt buf off = [] := by
  cases hk : n - off with
  | zero => simp [cstrAt, hk]
  | succ k => simp [cstrAt, hk, List.range'_succ, hc]

/-- The string at an offset where the characters of `s` are followed by a zero. -/
theorem cstrAt_eq_of_bytes {buf : Table n Byte} {s : List Byte} {off : ℕ}
    (hs : ∀ c ∈ s, c ≠ 0#8) (hlen : off + s.length < n)
    (hbytes : ∀ k (hk : k < s.length), buf.get (off + k) = s[k])
    (hend : buf.get (off + s.length) = 0#8) : cstrAt buf off = s := by
  induction s generalizing off with
  | nil => exact cstrAt_eq_nil (by simpa using hend)
  | cons c s ih =>
    have hc : buf.get off = c := hbytes 0 (Nat.succ_pos _)
    have hlen' : off + (s.length + 1) < n := by simpa using hlen
    rw [cstrAt_eq_cons (by omega) (by rw [hc]; exact hs c List.mem_cons_self), hc]
    congr 1
    refine ih (fun d hd => hs d (List.mem_cons_of_mem c hd)) (by omega) (fun k hk => ?_) ?_
    · have := hbytes (k + 1) (by simpa using hk)
      rw [show off + 1 + k = off + (k + 1) by omega, this]
      simp
    · rw [show off + 1 + s.length = off + (s.length + 1) by omega]
      simpa using hend

theorem get_cstrAt (buf : Table n Byte) {off k : ℕ} (hk : k < (cstrAt buf off).length) :
    buf.get (off + k) = (cstrAt buf off)[k] := by
  have hpre : (cstrAt buf off) <+: ((List.range' off (n - off)).map buf.get) :=
    List.takeWhile_prefix _
  rw [hpre.getElem hk]
  simp

/-- The byte after a string that ends inside the buffer is its terminator. -/
theorem get_cstrAt_length (buf : Table n Byte) {off : ℕ} (h : off + (cstrAt buf off).length < n) :
    buf.get (off + (cstrAt buf off).length) = 0#8 := by
  -- otherwise the scan would not have stopped there
  induction hk : n - off generalizing off with
  | zero => omega
  | succ k ih =>
    by_cases hc : buf.get off = 0#8
    · simpa [cstrAt_eq_nil hc] using hc
    · have hcons := cstrAt_eq_cons (by omega) hc
      have hlen : (cstrAt buf off).length = (cstrAt buf (off + 1)).length + 1 := by simp [hcons]
      have := @ih (off + 1) (by omega) (by omega)
      rwa [hlen, show off + ((cstrAt buf (off + 1)).length + 1) =
        off + 1 + (cstrAt buf (off + 1)).length by omega]

/-- A string terminated within `len` bytes depends on those bytes only. -/
theorem cstrAt_congr {buf buf' : Table n Byte} {off len : ℕ} (hlen : (cstrAt buf off).length < len)
    (hn : off + len ≤ n) (h : ∀ k < len, buf'.get (off + k) = buf.get (off + k)) :
    cstrAt buf' off = cstrAt buf off := by
  refine cstrAt_eq_of_bytes (cstrAt_noNul buf off) (by omega) (fun k hk => ?_) ?_
  · rw [h k (by omega), get_cstrAt buf hk]
  · rw [h _ hlen, get_cstrAt_length buf (by omega)]

end Buffer

end PekerOS
