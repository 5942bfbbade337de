import Mathlib

/-!
# Stacks of words in memory

A stack grows towards lower addresses, and its words are 32 bits, four bytes apart. `Holds mem a ws` says
that the words `ws` are in memory from address `a` on, the word on top first. A store keeps them if it is
elsewhere; what is elsewhere is said of the bytes, so that a store of a word that overlaps one of them is
not.

## Main definitions

* `WordStack.Holds`: words in memory, from an address on
* `WordStack.span`: the addresses of a number of bytes
* `WordStack.pushes`: words that are pushed one after the other

## Main results

* `WordStack.holds_pushes`: what has been pushed is on the stack
* `WordStack.Holds.update`, `WordStack.Holds.pushes`: stores and pushes elsewhere
-/

namespace WordStack

/-- The words are in memory from address `a` on. -/
def Holds (mem : BitVec 32 → BitVec 32) : BitVec 32 → List (BitVec 32) → Prop
  | _, [] => True
  | a, w :: ws => mem a = w ∧ Holds mem (a + 4#32) ws

/-- The addresses of `n` bytes. -/
def span (a : BitVec 32) (n : ℕ) : Set (BitVec 32) := {v | ∃ k < n, v = a + BitVec.ofNat 32 k}

/-- Words that are pushed one after the other, from a stack pointer on. -/
def pushes (mem : BitVec 32 → BitVec 32) (sp : BitVec 32) :
    List (BitVec 32) → (BitVec 32 → BitVec 32) × BitVec 32
  | [] => (mem, sp)
  | w :: ws => pushes (Function.update mem (sp - 4#32) w) (sp - 4#32) ws

variable {mem : BitVec 32 → BitVec 32} {a b sp v w : BitVec 32} {ws vs : List (BitVec 32)} {m n k : ℕ}

/-! ## Addresses -/

theorem span_mono (h : m ≤ n) : span a m ⊆ span a n := by
  rintro v ⟨k, hk, rfl⟩
  exact ⟨k, hk.trans_le h, rfl⟩

/-- A part of the bytes. -/
theorem span_subset (h : k + m ≤ n) : span (a + BitVec.ofNat 32 k) m ⊆ span a n := by
  rintro v ⟨i, hi, rfl⟩
  refine ⟨k + i, by omega, ?_⟩
  rw [BitVec.ofNat_add, BitVec.add_assoc]

theorem toNat_add_ofNat (h : a.toNat + k < 2 ^ 32) : (a + BitVec.ofNat 32 k).toNat = a.toNat + k := by
  rw [BitVec.toNat_add, BitVec.toNat_ofNat, Nat.add_mod_mod, Nat.mod_eq_of_lt h]

theorem toNat_sub_ofNat (h : k ≤ a.toNat) : (a - BitVec.ofNat 32 k).toNat = a.toNat - k := by
  have hlt := a.isLt
  have hk : (BitVec.ofNat 32 k).toNat = k := by
    rw [BitVec.toNat_ofNat]
    exact Nat.mod_eq_of_lt (h.trans_lt hlt)
  rw [BitVec.toNat_sub_of_le (by rw [BitVec.le_def, hk]; exact h), hk]

/-- Bytes that end before others begin. -/
theorem disjoint_span (h : a.toNat + m ≤ b.toNat) (hb : b.toNat + n ≤ 2 ^ 32) :
    Disjoint (span a m) (span b n) := by
  refine Set.disjoint_left.mpr ?_
  rintro _ ⟨i, hi, rfl⟩ ⟨j, hj, heq⟩
  have haddr := congrArg BitVec.toNat heq
  rw [toNat_add_ofNat (by omega), toNat_add_ofNat (by omega)] at haddr
  omega

/-- Bytes between others. -/
theorem span_subset_span (h : a.toNat ≤ b.toNat) (h' : b.toNat + m ≤ a.toNat + n) : span b m ⊆ span a n := by
  have hb : a + BitVec.ofNat 32 (b.toNat - a.toNat) = b := by
    apply BitVec.eq_of_toNat_eq
    rw [toNat_add_ofNat (by omega)]
    omega
  rw [← hb]
  exact span_subset (by omega)

/-! ## Words in memory -/

/-- A word that is stored elsewhere. -/
theorem Holds.update (h : Holds mem a ws) (hdisj : Disjoint (span b 4) (span a (4 * ws.length))) :
    Holds (Function.update mem b v) a ws := by
  induction ws generalizing a with
  | nil => trivial
  | cons w ws ih =>
    rw [List.length_cons, Nat.mul_add, Nat.mul_one] at hdisj
    have hne : a ≠ b := by
      rintro rfl
      exact Set.disjoint_left.mp hdisj ⟨0, by decide, (BitVec.add_zero a).symm⟩
        ⟨0, by omega, (BitVec.add_zero a).symm⟩
    refine ⟨(Function.update_of_ne hne _ _).trans h.1, ih h.2 (hdisj.mono_right ?_)⟩
    exact span_subset (k := 4) (by omega)

/-- A word in the middle is replaced. -/
theorem Holds.set (h : Holds mem a ws) (hk : k < ws.length) (hlen : 4 * ws.length ≤ 2 ^ 32) :
    Holds (Function.update mem (a + BitVec.ofNat 32 (4 * k)) v) a (ws.set k v) := by
  induction ws generalizing a k with
  | nil => exact absurd hk (Nat.not_lt_zero k)
  | cons w ws ih =>
    rw [List.length_cons] at hk hlen
    cases k with
    | zero =>
      refine ⟨by simp, ?_⟩
      simp only [Nat.mul_zero, BitVec.add_zero]
      refine h.2.update (Set.disjoint_left.mpr ?_)
      rintro _ ⟨i, hi, rfl⟩ ⟨j, hj, heq⟩
      bv_omega
    | succ k =>
      have hne : a ≠ a + BitVec.ofNat 32 (4 * (k + 1)) := by bv_omega
      refine ⟨(Function.update_of_ne hne _ _).trans h.1, ?_⟩
      rw [Nat.mul_add, Nat.add_comm (4 * k), BitVec.ofNat_add, ← BitVec.add_assoc]
      exact ih h.2 (by omega) (by omega)

theorem holds_append : Holds mem a (ws ++ vs) ↔
    Holds mem a ws ∧ Holds mem (a + BitVec.ofNat 32 (4 * ws.length)) vs := by
  induction ws generalizing a with
  | nil => simp [Holds]
  | cons w ws ih =>
    rw [List.cons_append, Holds, Holds, ih, and_assoc, List.length_cons, Nat.mul_add, Nat.add_comm (4 * ws.length),
      BitVec.ofNat_add, BitVec.add_assoc]

theorem Holds.get (h : Holds mem a ws) (hk : k < ws.length) :
    mem (a + BitVec.ofNat 32 (4 * k)) = ws[k] := by
  induction ws generalizing a k with
  | nil => exact absurd hk (Nat.not_lt_zero k)
  | cons w ws ih =>
    cases k with
    | zero => exact (congrArg mem (BitVec.add_zero a)).trans h.1
    | succ k =>
      rw [Nat.mul_add, Nat.add_comm (4 * k), BitVec.ofNat_add, ← BitVec.add_assoc]
      exact ih h.2 (by rwa [List.length_cons, Nat.add_lt_add_iff_right] at hk)

/-! ## Pushes -/

theorem pushes_append : pushes mem sp (ws ++ vs) =
    pushes (pushes mem sp ws).1 (pushes mem sp ws).2 vs := by
  induction ws generalizing mem sp with
  | nil => rfl
  | cons w ws ih => exact ih

@[simp] theorem pushes_sp : (pushes mem sp ws).2 = sp - BitVec.ofNat 32 (4 * ws.length) := by
  induction ws generalizing mem sp with
  | nil => exact (BitVec.sub_zero sp).symm
  | cons w ws ih =>
    rw [pushes, ih, List.length_cons, Nat.mul_add, Nat.add_comm, BitVec.ofNat_add, BitVec.sub_sub]

/-- Words that are elsewhere stay as they are. -/
theorem Holds.pushes (h : Holds mem a ws)
    (hdisj : Disjoint (span (sp - BitVec.ofNat 32 (4 * vs.length)) (4 * vs.length))
      (span a (4 * ws.length))) : Holds (pushes mem sp vs).1 a ws := by
  induction vs using List.reverseRecOn with
  | nil => exact h
  | append_singleton vs v ih =>
    rw [List.length_append, List.length_singleton, Nat.mul_add, Nat.mul_one, BitVec.ofNat_add] at hdisj
    have hsp : sp - (BitVec.ofNat 32 (4 * vs.length) + BitVec.ofNat 32 4) =
        sp - BitVec.ofNat 32 (4 * vs.length) - 4#32 := (BitVec.sub_sub _ _ _).symm
    rw [hsp] at hdisj
    rw [pushes_append]
    refine (ih (hdisj.mono_left ?_)).update (hdisj.mono_left ?_)
    · have hpart := span_subset (a := sp - BitVec.ofNat 32 (4 * vs.length) - 4#32)
        (k := 4) (m := 4 * vs.length) (n := 4 * vs.length + 4) (by omega)
      rwa [show BitVec.ofNat 32 4 = 4#32 from rfl, BitVec.sub_add_cancel] at hpart
    · rw [pushes_sp]
      exact span_mono (by omega)

/-- What has been pushed is on the stack, the last word on top. -/
theorem holds_pushes (mem : BitVec 32 → BitVec 32) (sp : BitVec 32) (hlen : 4 * ws.length ≤ 2 ^ 32) :
    Holds (WordStack.pushes mem sp ws).1 (WordStack.pushes mem sp ws).2 ws.reverse := by
  induction ws using List.reverseRecOn with
  | nil => trivial
  | append_singleton ws w ih =>
    rw [List.length_append, List.length_singleton] at hlen
    rw [pushes_append, List.reverse_append, List.reverse_singleton, List.singleton_append]
    refine ⟨by simp [WordStack.pushes], ?_⟩
    simp only [WordStack.pushes, BitVec.sub_add_cancel]
    refine (ih (by omega)).update (Set.disjoint_left.mpr ?_)
    rw [List.length_reverse]
    rintro _ ⟨i, hi, rfl⟩ ⟨j, hj, heq⟩
    bv_omega

end WordStack
