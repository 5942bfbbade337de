import PekerOS.Lib.Table

/-!
# Bitmaps

A bitmap over an array of bytes: bit `b` is bit `b % 8` of byte `b / 8`. `clearCount` is the number
of clear bits in a range, which an allocator keeps as a counter beside the map.

## Main definitions

* `Bitmap.set`, `Bitmap.clear`, `Bitmap.test`: the three bit operations
* `Bitmap.clearBits`, `Bitmap.clearCount`: the clear bits of a range and their number

## Main results

* `Bitmap.test_set`, `Bitmap.test_clear`: a bit after an operation
* `Bitmap.clearCount_set`, `Bitmap.clearCount_clear`, `Bitmap.clearCount_foldl_set`: the count after
  an operation
-/

namespace Bitmap

variable {n : ℕ}

/-- `map[bit / 8] |= (1 << (bit % 8))` -/
def set (m : Table n Byte) (bit : ℕ) : Table n Byte :=
  m.set (bit / 8) (m.get (bit / 8) ||| (1#8 <<< (bit % 8)))

/-- `map[bit / 8] &= ~(1 << (bit % 8))` -/
def clear (m : Table n Byte) (bit : ℕ) : Table n Byte :=
  m.set (bit / 8) (m.get (bit / 8) &&& ~~~(1#8 <<< (bit % 8)))

/-- `map[bit / 8] & (1 << (bit % 8))`, as a truth value. -/
def test (m : Table n Byte) (bit : ℕ) : Bool :=
  m.get (bit / 8) &&& (1#8 <<< (bit % 8)) != 0#8

theorem getLsbD_one_shiftLeft {i j : ℕ} (hj : j < 8) :
    (1#8 <<< i).getLsbD j = decide (j = i) := by
  rw [BitVec.getLsbD_shiftLeft, BitVec.getLsbD_one]
  simp only [hj, decide_true, Bool.true_and]
  by_cases h : j = i
  · subst h
    simp
  · by_cases hlt : j < i
    · simp [hlt, h]
    · simp [hlt, h, show j - i ≠ 0 by omega]

theorem test_eq (m : Table n Byte) (bit : ℕ) :
    test m bit = (m.get (bit / 8)).getLsbD (bit % 8) := by
  have hlt : bit % 8 < 8 := Nat.mod_lt _ (by decide)
  rw [Bool.eq_iff_iff, test, bne_iff_ne]
  constructor
  · intro h
    by_contra hbit
    refine h (BitVec.eq_of_getLsbD_eq fun i hi => ?_)
    rw [BitVec.getLsbD_and, getLsbD_one_shiftLeft hi]
    by_cases hib : i = bit % 8
    · simpa [hib] using hbit
    · simp [hib]
  · intro h hzero
    have := congrArg (fun v => v.getLsbD (bit % 8)) hzero
    simp [h, getLsbD_one_shiftLeft hlt] at this

theorem eq_of_div_mod {a b : ℕ} (h : a / 8 = b / 8) (h' : a % 8 = b % 8) : a = b := by omega

theorem test_set (m : Table n Byte) {bit : ℕ} (h : bit < 8 * n) (b : ℕ) :
    test (set m bit) b = (decide (b = bit) || test m b) := by
  rw [test_eq, test_eq, set]
  by_cases hbyte : b / 8 = bit / 8
  · rw [hbyte, Table.get_set_self m (by omega), BitVec.getLsbD_or,
      getLsbD_one_shiftLeft (Nat.mod_lt _ (by decide)), Bool.or_comm]
    congr 1
    rw [decide_eq_decide]
    exact ⟨eq_of_div_mod hbyte, fun h => h ▸ rfl⟩
  · rw [Table.get_set_ne m hbyte]
    have : b ≠ bit := fun h => hbyte (h ▸ rfl)
    simp [this]

theorem test_clear (m : Table n Byte) {bit : ℕ} (h : bit < 8 * n) (b : ℕ) :
    test (clear m bit) b = (decide (b ≠ bit) && test m b) := by
  rw [test_eq, test_eq, clear]
  by_cases hbyte : b / 8 = bit / 8
  · rw [hbyte, Table.get_set_self m (by omega), BitVec.getLsbD_and, BitVec.getLsbD_not,
      getLsbD_one_shiftLeft (Nat.mod_lt _ (by decide)), Bool.and_comm]
    congr 1
    have hlt : b % 8 < 8 := Nat.mod_lt _ (by decide)
    have hiff : b % 8 = bit % 8 ↔ b = bit := ⟨eq_of_div_mod hbyte, fun h => h ▸ rfl⟩
    simp [hlt, hiff]
  · rw [Table.get_set_ne m hbyte]
    have : b ≠ bit := fun h => hbyte (h ▸ rfl)
    simp [this]

@[simp] theorem test_default (bit : ℕ) : test (default : Table n Byte) bit = false := by
  rw [test_eq, Table.get_default]
  exact BitVec.getLsbD_zero

theorem test_foldl_set {bits : List ℕ} (m : Table n Byte) (h : ∀ b ∈ bits, b < 8 * n) (b : ℕ) :
    test (bits.foldl set m) b = (decide (b ∈ bits) || test m b) := by
  induction bits generalizing m with
  | nil => simp
  | cons c bits ih =>
    rw [List.foldl_cons, ih (set m c) fun b hb => h b (List.mem_cons_of_mem c hb),
      test_set m (h c List.mem_cons_self)]
    by_cases hbc : b = c <;> simp [hbc]

theorem test_foldl_clear {bits : List ℕ} (m : Table n Byte) (h : ∀ b ∈ bits, b < 8 * n) (b : ℕ) :
    test (bits.foldl clear m) b = (decide (b ∉ bits) && test m b) := by
  induction bits generalizing m with
  | nil => simp
  | cons c bits ih =>
    rw [List.foldl_cons, ih (clear m c) fun b hb => h b (List.mem_cons_of_mem c hb),
      test_clear m (h c List.mem_cons_self)]
    by_cases hbc : b = c <;> simp [hbc]

/-! ## Counting clear bits -/

/-- The clear bits in `[lo, hi)`. -/
def clearBits (m : Table n Byte) (lo hi : ℕ) : Finset ℕ :=
  (Finset.Ico lo hi).filter fun b => test m b = false

/-- The number of clear bits in `[lo, hi)`. -/
def clearCount (m : Table n Byte) (lo hi : ℕ) : ℕ := (clearBits m lo hi).card

variable {lo hi : ℕ}

@[simp] theorem mem_clearBits {m : Table n Byte} {b : ℕ} :
    b ∈ clearBits m lo hi ↔ (lo ≤ b ∧ b < hi) ∧ test m b = false := by
  simp [clearBits]

theorem lt_of_mem_clearBits {m : Table n Byte} {b : ℕ} (h : b ∈ clearBits m lo hi) : b < hi :=
  (mem_clearBits.mp h).1.2

/-- Setting a clear bit of the range takes one from the count. -/
theorem clearCount_set {m : Table n Byte} {bit : ℕ} (h : bit < 8 * n)
    (hmem : bit ∈ clearBits m lo hi) : clearCount (set m bit) lo hi + 1 = clearCount m lo hi := by
  have : clearBits (set m bit) lo hi = (clearBits m lo hi).erase bit := by
    ext b
    simp only [mem_clearBits, Finset.mem_erase, test_set m h, Bool.or_eq_false_iff,
      decide_eq_false_iff_not]
    tauto
  rw [clearCount, this, Finset.card_erase_add_one hmem, clearCount]

/-- Clearing a set bit of the range adds one to the count. -/
theorem clearCount_clear {m : Table n Byte} {bit : ℕ} (h : bit < 8 * n) (hlo : lo ≤ bit)
    (hhi : bit < hi) (hset : test m bit = true) :
    clearCount (clear m bit) lo hi = clearCount m lo hi + 1 := by
  have hnot : bit ∉ clearBits m lo hi := by simp [hset]
  have : clearBits (clear m bit) lo hi = insert bit (clearBits m lo hi) := by
    ext b
    simp only [mem_clearBits, Finset.mem_insert, test_clear m h]
    by_cases hb : b = bit <;> simp [hb, hlo, hhi]
  rw [clearCount, this, Finset.card_insert_of_notMem hnot, clearCount]

/-- Setting several clear bits of the range takes their number from the count. -/
theorem clearCount_foldl_set {bits : List ℕ} {m : Table n Byte} (hnd : bits.Nodup)
    (h : ∀ b ∈ bits, b < 8 * n) (hmem : ∀ b ∈ bits, b ∈ clearBits m lo hi) :
    clearCount (bits.foldl set m) lo hi + bits.length = clearCount m lo hi := by
  induction bits generalizing m with
  | nil => rfl
  | cons c bits ih =>
    obtain ⟨hc, hnd'⟩ := List.nodup_cons.mp hnd
    have hlt := h c List.mem_cons_self
    have hset := clearCount_set hlt (hmem c List.mem_cons_self)
    have hrest : ∀ b ∈ bits, b ∈ clearBits (set m c) lo hi := by
      intro b hb
      obtain ⟨hrange, htest⟩ := mem_clearBits.mp (hmem b (List.mem_cons_of_mem c hb))
      rw [mem_clearBits, test_set m hlt, htest, Bool.or_false, decide_eq_false_iff_not]
      exact ⟨hrange, fun hbc => hc (hbc ▸ hb)⟩
    have := ih hnd' (fun b hb => h b (List.mem_cons_of_mem c hb)) hrest
    rw [List.foldl_cons, List.length_cons]
    omega

theorem clearCount_le (m : Table n Byte) (lo hi : ℕ) : clearCount m lo hi ≤ hi - lo := by
  have := Finset.card_filter_le (Finset.Ico lo hi) fun b => test m b = false
  rwa [Nat.card_Ico] at this

theorem clearCount_eq_zero {m : Table n Byte} :
    clearCount m lo hi = 0 ↔ ∀ b, lo ≤ b → b < hi → test m b = true := by
  rw [clearCount, Finset.card_eq_zero, Finset.eq_empty_iff_forall_notMem]
  simp only [mem_clearBits]
  constructor
  · intro h b hlo hhi
    simpa [hlo, hhi] using h b
  · rintro h b ⟨⟨hlo, hhi⟩, hb⟩
    simp [h b hlo hhi] at hb

end Bitmap
