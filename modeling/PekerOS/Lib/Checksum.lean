import PekerOS.Lib.Table

/-!
# The Internet checksum

Sixteen-bit words are added, and what does not fit in sixteen bits is added again, until it fits. As
65536 is 1 modulo 65535, the result is the sum modulo 65535, with 65535 instead of 0 unless all words
are 0. A sender adds the words as they are in the memory of a little-endian machine and stores the
complement; a receiver adds the words in network order, the stored one among them, and expects 65535.

## Main definitions

* `Checksum.wordSum`, `Checksum.netSum`: the words in memory order and in network order
* `Checksum.fold`: the sum in sixteen bits
* `Checksum.onesAdd`, `Checksum.internetChecksum`: one's complement addition, and the checksum that the
  protocols define with it

## Main results

* `Checksum.fold_eq_max`: when the folded sum is 65535
* `Checksum.netSum_mod`: swapping all bytes multiplies the sum by 256
* `Checksum.internetChecksum_toNat`: adding the carries at once or at the end makes no difference
* `Checksum.fold_store`: the sum with the checksum stored is right
* `Checksum.verifies_iff`: the receiver's sum is right if the rest of it is the sender's modulo 65535
-/

namespace Checksum

/-- The words of a byte string, the first byte of each the low one. -/
def wordSum : List Byte → ℕ
  | [] => 0
  | [b] => b.toNat
  | b :: c :: bs => b.toNat + 256 * c.toNat + wordSum bs

/-- The words of a byte string, the first byte of each the high one. -/
def netSum : List Byte → ℕ
  | [] => 0
  | [b] => 256 * b.toNat
  | b :: c :: bs => 256 * b.toNat + c.toNat + netSum bs

/-- `while (sum >> 16) sum = (sum & 0xFFFF) + (sum >> 16)` -/
def fold (n : ℕ) : ℕ := if n < 65536 then n else fold (n % 65536 + n / 65536)
termination_by n
decreasing_by omega

theorem fold_lt (n : ℕ) : fold n < 65536 := by
  induction n using fold.induct with
  | case1 n h => rwa [fold, if_pos h]
  | case2 n h ih => rwa [fold, if_neg h]

theorem fold_mod (n : ℕ) : fold n % 65535 = n % 65535 := by
  induction n using fold.induct with
  | case1 n h => rw [fold, if_pos h]
  | case2 n h ih =>
    rw [fold, if_neg h, ih]
    omega

theorem fold_pos {n : ℕ} (hn : 0 < n) : 0 < fold n := by
  induction n using fold.induct with
  | case1 n h => rwa [fold, if_pos h]
  | case2 n h ih =>
    rw [fold, if_neg h]
    exact ih (by omega)

theorem fold_eq_zero {n : ℕ} : fold n = 0 ↔ n = 0 := by
  constructor
  · intro h
    by_contra hn
    exact (fold_pos (Nat.pos_of_ne_zero hn)).ne' h
  · rintro rfl
    rw [fold, if_pos (by decide)]

theorem fold_eq_max {n : ℕ} : fold n = 65535 ↔ 0 < n ∧ n % 65535 = 0 := by
  have hmod := fold_mod n
  constructor
  · intro h
    refine ⟨Nat.pos_of_ne_zero ?_, by omega⟩
    rintro rfl
    rw [fold, if_pos (by omega)] at h
    omega
  · rintro ⟨hpos, hzero⟩
    have hfold := fold_pos hpos
    have hlt := fold_lt n
    omega

theorem wordSum_append {as : List Byte} (h : as.length % 2 = 0) (bs : List Byte) :
    wordSum (as ++ bs) = wordSum as + wordSum bs := by
  induction as using wordSum.induct with
  | case1 => simp [wordSum]
  | case2 b => simp at h
  | case3 b c as ih =>
    have hlen : as.length % 2 = 0 := by
      simp only [List.length_cons] at h
      omega
    rw [List.cons_append, List.cons_append, wordSum, wordSum, ih hlen]
    omega

/-- A word in a field at an even place. -/
theorem wordSum_field {front : List Byte} (h : front.length % 2 = 0) (a b : Byte) (back : List Byte) :
    wordSum (front ++ [a, b] ++ back) = wordSum (front ++ [0#8, 0#8] ++ back) + wordSum [a, b] := by
  have heven (a b : Byte) : (front ++ [a, b]).length % 2 = 0 := by
    rw [List.length_append]
    exact (Nat.add_mod_right _ 2).trans h
  have hzero : wordSum [0#8, 0#8] = 0 := rfl
  rw [wordSum_append (heven a b), wordSum_append h, wordSum_append (heven 0#8 0#8), wordSum_append h]
  omega

/-- A byte adds less than 65536, wherever it is in its word. -/
theorem wordSum_lt (bs : List Byte) : wordSum bs ≤ 65280 * bs.length := by
  induction bs using wordSum.induct with
  | case1 => simp [wordSum]
  | case2 b =>
    have hb := b.isLt
    rw [wordSum, List.length_singleton]
    omega
  | case3 b c bs ih =>
    have hb := b.isLt
    have hc := c.isLt
    rw [wordSum, List.length_cons, List.length_cons]
    omega

theorem netSum_mod (bs : List Byte) : netSum bs % 65535 = 256 * wordSum bs % 65535 := by
  induction bs using netSum.induct with
  | case1 => rfl
  | case2 b => rfl
  | case3 b c bs ih =>
    rw [netSum, wordSum]
    omega

theorem netSum_pos_iff (bs : List Byte) : 0 < netSum bs ↔ 0 < wordSum bs := by
  induction bs using netSum.induct with
  | case1 => rfl
  | case2 b =>
    rw [netSum, wordSum]
    omega
  | case3 b c bs ih =>
    rw [netSum, wordSum]
    omega

/-- A receiver's sum, of which a sender has computed the complement of `s`: it is right if the rest of
it, `t`, is `s` modulo 65535. -/
theorem verifies_iff {bs : List Byte} {s t : ℕ} (ht : 0 < t)
    (hbs : wordSum bs = t + (65535 - fold s)) :
    fold (netSum bs) = 65535 ↔ t % 65535 = s % 65535 := by
  have hmod := fold_mod s
  have hlt := fold_lt s
  have hnet := netSum_mod bs
  have hpos : 0 < netSum bs := (netSum_pos_iff bs).mpr (by omega)
  rw [fold_eq_max, and_iff_right hpos]
  omega

/-- The folded sum is the only number with its remainder that is 0 for the sum 0 alone. -/
theorem fold_unique {n x : ℕ} (hx : x < 65536) (hmod : x % 65535 = n % 65535) (hzero : x = 0 ↔ n = 0) :
    fold n = x := by
  have hlt := fold_lt n
  have hmod' := fold_mod n
  by_cases hn : n = 0
  · rw [hn, hzero.mpr hn, fold_eq_zero]
  · have hpos := fold_pos (Nat.pos_of_ne_zero hn)
    omega

/-- A sum to which the complement of its own has been added. -/
theorem fold_store (n : ℕ) : fold (n + (65535 - fold n)) = 65535 := by
  have hmod := fold_mod n
  have hlt := fold_lt n
  refine fold_eq_max.mpr ⟨?_, by omega⟩
  by_cases hn : n = 0
  · rw [fold_eq_zero.mpr hn, hn]
    decide
  · omega

/-- The receiver's sum, with the complement of the sender's stored. -/
theorem netSum_store {bs : List Byte} {n : ℕ} (h : wordSum bs = n + (65535 - fold n)) :
    fold (netSum bs) = 65535 := by
  have hstore := fold_eq_max.mp (fold_store n)
  rw [← h] at hstore
  have hpos := (netSum_pos_iff bs).mpr hstore.1
  have hmod := netSum_mod bs
  exact fold_eq_max.mpr ⟨hpos, by omega⟩

/-! ## The checksum of the protocols -/

/-- The words of a byte string in network order; an odd byte is padded with zero. -/
def netWords : List Byte → List (BitVec 16)
  | [] => []
  | [b] => [BitVec.ofNat 16 (256 * b.toNat)]
  | b :: c :: bs => BitVec.ofNat 16 (256 * b.toNat + c.toNat) :: netWords bs

/-- One's complement addition: the carry is added at the low end. -/
def onesAdd (a b : BitVec 16) : BitVec 16 := if a.toNat + b.toNat < 65536 then a + b else a + b + 1#16

/-- The Internet checksum: the complement of the one's complement sum of the words. -/
def internetChecksum (bs : List Byte) : BitVec 16 := ~~~(netWords bs).foldl onesAdd 0#16

theorem onesAdd_toNat {a b : BitVec 16} {n : ℕ} (ha : a.toNat = fold n) :
    (onesAdd a b).toNat = fold (n + b.toNat) := by
  have hmod := fold_mod n
  have hlt := fold_lt n
  have hb := b.isLt
  have hzero : fold n = 0 ↔ n = 0 := fold_eq_zero
  symm
  rw [onesAdd, ha]
  split
  · refine fold_unique (BitVec.isLt _) ?_ ?_ <;> rw [BitVec.toNat_add, ha] <;> omega
  · have hone : (1#16).toNat = 1 := rfl
    refine fold_unique (BitVec.isLt _) ?_ ?_ <;>
      rw [BitVec.toNat_add, BitVec.toNat_add, ha, hone] <;> omega

theorem foldl_onesAdd_toNat (bs : List Byte) {a : BitVec 16} {n : ℕ} (ha : a.toNat = fold n) :
    ((netWords bs).foldl onesAdd a).toNat = fold (n + netSum bs) := by
  induction bs using netSum.induct generalizing a n with
  | case1 => simpa [netWords, netSum] using ha
  | case2 b =>
    have hb := b.isLt
    have hword : (BitVec.ofNat 16 (256 * b.toNat)).toNat = netSum [b] := by
      rw [BitVec.toNat_ofNat, netSum]
      omega
    rw [netWords, List.foldl_cons, List.foldl_nil, onesAdd_toNat ha, hword]
  | case3 b c bs ih =>
    have hb := b.isLt
    have hc := c.isLt
    have hword : (BitVec.ofNat 16 (256 * b.toNat + c.toNat)).toNat = 256 * b.toNat + c.toNat := by
      rw [BitVec.toNat_ofNat]
      omega
    rw [netWords, List.foldl_cons, ih (onesAdd_toNat ha), hword, netSum, Nat.add_assoc]

theorem internetChecksum_toNat (bs : List Byte) :
    (internetChecksum bs).toNat = 65535 - fold (netSum bs) := by
  have hsum := foldl_onesAdd_toNat bs (a := 0#16) (n := 0) (by rw [fold, if_pos (by decide)]; rfl)
  rw [internetChecksum, BitVec.toNat_not, hsum, Nat.zero_add]

end Checksum
