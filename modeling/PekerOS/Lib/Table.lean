import Mathlib

/-!
# Tables and byte buffers

A C array of fixed length is a table: a read past the end gives the default cell and a write past
the end changes nothing, so an index needs no proof and every bounds condition is a hypothesis of
the lemma that needs it. A byte buffer is a table of bytes; `patch` is `memcpy` into a buffer, and
`getWord`, `setWord` read and write a 32-bit word in little-endian order, as an `unsigned int` field
of a packed structure is read and written on the target machine.

## Main definitions

* `Table n α`, `Table.get`, `Table.set`, `Table.ofFn`: tables and their cells
* `Table.patch`: overwrite a range of cells
* `wordByte`, `Table.getWord`, `Table.setWord`: little-endian words in a byte buffer

## Main results

* `Table.ext_get`: tables with the same cells are equal
* `wordOfBytes_wordByte`: a word is its four bytes
* `Table.getWord_patch_of_disjoint`, `Table.getWord_setWord`: reading after writing
-/

universe u

/-- A C array of `n` cells. -/
def Table (n : ℕ) (α : Type u) : Type u := Fin n → α

/-- An `unsigned char`. -/
abbrev Byte : Type := BitVec 8

/-- An `unsigned int`. -/
abbrev Word : Type := BitVec 32

namespace Table

variable {n : ℕ} {α : Type u}

instance [DecidableEq α] : DecidableEq (Table n α) :=
  inferInstanceAs (DecidableEq (Fin n → α))

/-- The table whose cell `i` is `f i`. -/
def ofFn (f : ℕ → α) : Table n α := fun k => f k

instance [Inhabited α] : Inhabited (Table n α) := ⟨ofFn fun _ => default⟩

/-- Cell `i`; past the end, the default. -/
def get [Inhabited α] (t : Table n α) (i : ℕ) : α :=
  if h : i < n then t ⟨i, h⟩ else default

/-- Cell `i` becomes `a`; past the end, nothing changes. -/
def set (t : Table n α) (i : ℕ) (a : α) : Table n α := fun k => if k.val = i then a else t k

/-- `memcpy` of `len` cells of `src` to offset `off`. -/
def patch [Inhabited α] (t : Table n α) (off len : ℕ) (src : ℕ → α) : Table n α :=
  ofFn fun i => if off ≤ i ∧ i < off + len then src (i - off) else t.get i

section Cells

variable [Inhabited α]

theorem get_ofFn (f : ℕ → α) {i : ℕ} (h : i < n) : (ofFn f : Table n α).get i = f i := by
  simp [get, ofFn, h]

theorem get_of_le (t : Table n α) {i : ℕ} (h : n ≤ i) : t.get i = default := by
  simp [get, Nat.not_lt.mpr h]

@[simp] theorem get_default (i : ℕ) : (default : Table n α).get i = default := by
  by_cases h : i < n
  · exact get_ofFn _ h
  · exact get_of_le _ (Nat.le_of_not_lt h)

theorem get_set_self (t : Table n α) {i : ℕ} (h : i < n) (a : α) : (t.set i a).get i = a := by
  simp [get, set, h]

theorem get_set_ne (t : Table n α) {i j : ℕ} (h : j ≠ i) (a : α) :
    (t.set i a).get j = t.get j := by
  by_cases hj : j < n <;> simp [get, set, hj, h]

theorem get_set (t : Table n α) {i : ℕ} (h : i < n) (a : α) (j : ℕ) :
    (t.set i a).get j = if j = i then a else t.get j := by
  split
  · next hj => subst hj; exact get_set_self t h a
  · next hj => exact get_set_ne t hj a

@[simp] theorem set_get (t : Table n α) (i : ℕ) : t.set i (t.get i) = t := by
  funext k
  by_cases hk : k.val = i
  · subst hk
    simp [get, set]
  · simp [set, hk]

theorem get_patch (t : Table n α) {off len : ℕ} (src : ℕ → α) {i : ℕ} (h : i < n) :
    (t.patch off len src).get i = if off ≤ i ∧ i < off + len then src (i - off) else t.get i :=
  get_ofFn _ h

theorem get_patch_of_not_mem (t : Table n α) {off len : ℕ} (src : ℕ → α) {i : ℕ}
    (h : ¬(off ≤ i ∧ i < off + len)) : (t.patch off len src).get i = t.get i := by
  by_cases hi : i < n
  · rw [get_patch t src hi, if_neg h]
  · rw [get_of_le _ (Nat.le_of_not_lt hi), get_of_le _ (Nat.le_of_not_lt hi)]

theorem get_patch_of_mem (t : Table n α) {off len : ℕ} (src : ℕ → α) {i : ℕ} (hi : off + i < n)
    (h : i < len) : (t.patch off len src).get (off + i) = src i := by
  rw [get_patch t src hi, if_pos ⟨by omega, by omega⟩, Nat.add_sub_cancel_left]

/-- Tables with the same cells are equal. -/
theorem ext_get {t t' : Table n α} (h : ∀ i < n, t.get i = t'.get i) : t = t' := by
  funext k
  simpa [get, k.isLt] using h k k.isLt

end Cells

end Table

/-! ## Little-endian words -/

/-- Byte `i` of a word, least significant first. -/
def wordByte (w : Word) (i : ℕ) : Byte := w.extractLsb' (8 * i) 8

/-- The word with the given bytes, least significant first. -/
def wordOfBytes (f : ℕ → Byte) : Word := f 3 ++ f 2 ++ f 1 ++ f 0

theorem wordOfBytes_wordByte (w : Word) : wordOfBytes (wordByte w) = w := by
  apply BitVec.eq_of_getLsbD_eq
  intro i hi
  simp only [wordOfBytes, wordByte, BitVec.getLsbD_append, BitVec.getLsbD_extractLsb']
  by_cases h0 : i < 8
  · simp [h0]
  by_cases h1 : i < 16
  · have : 8 + (i - 8) = i := by omega
    simp [h0, show i - 8 < 8 by omega, this]
  by_cases h2 : i < 24
  · have : 16 + (i - 8 - 8) = i := by omega
    simp [h0, show ¬ i - 8 < 8 by omega, show i - 8 - 8 < 8 by omega, this]
  · have : 24 + (i - 8 - 8 - 8) = i := by omega
    simp [h0, show ¬ i - 8 < 8 by omega, show ¬ i - 8 - 8 < 8 by omega,
      show i - 8 - 8 - 8 < 8 by omega, this]

theorem wordOfBytes_congr {f g : ℕ → Byte} (h : ∀ i < 4, f i = g i) :
    wordOfBytes f = wordOfBytes g := by
  simp [wordOfBytes, h 0, h 1, h 2, h 3]

namespace Table

variable {n : ℕ}

/-- The word at byte offset `off`. -/
def getWord (t : Table n Byte) (off : ℕ) : Word := wordOfBytes fun i => t.get (off + i)

/-- The word at byte offset `off` becomes `w`. -/
def setWord (t : Table n Byte) (off : ℕ) (w : Word) : Table n Byte := t.patch off 4 (wordByte w)

theorem getWord_congr {t t' : Table n Byte} {off : ℕ} (h : ∀ i < 4, t.get (off + i) = t'.get (off + i)) :
    t.getWord off = t'.getWord off :=
  wordOfBytes_congr h

theorem getWord_patch_of_disjoint (t : Table n Byte) {off len at' : ℕ} (src : ℕ → Byte)
    (h : at' + 4 ≤ off ∨ off + len ≤ at') : (t.patch off len src).getWord at' = t.getWord at' :=
  getWord_congr fun i hi => get_patch_of_not_mem t src (by omega)

theorem getWord_setWord (t : Table n Byte) {off : ℕ} (h : off + 4 ≤ n) (w : Word) :
    (t.setWord off w).getWord off = w := by
  rw [getWord, ← wordOfBytes_wordByte w]
  refine wordOfBytes_congr fun i hi => ?_
  rw [setWord, get_patch_of_mem t _ (by omega) hi, wordOfBytes_wordByte]

theorem getWord_ofFn {f : ℕ → Byte} {off : ℕ} (h : off + 4 ≤ n) :
    (ofFn f : Table n Byte).getWord off = wordOfBytes fun i => f (off + i) :=
  wordOfBytes_congr fun i hi => get_ofFn _ (by omega)

end Table
