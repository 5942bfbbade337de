import PekerOS.Lib.Table

/-!
# Ring buffers

A ring buffer over a table of `n` cells: a producer stores at `head`, a consumer loads at `tail`, and
`len` cells are in use. A producer may store several cells before it counts them, and a consumer may
load several before it discounts them, so storing, loading and counting are separate operations.

## Main definitions

* `RingBuffer`, `RingBuffer.store`, `RingBuffer.load`: the buffer, a store at the head, a load at the tail
* `RingBuffer.contents`: the cells in use, oldest first
* `RingBuffer.Ok`: the head is `len` cells after the tail

## Main results

* `RingBuffer.contents_stores`, `RingBuffer.contents_loads`: storing appends, loading takes from the front
-/

universe u

structure RingBuffer (n : ℕ) (α : Type u) where
  buffer : Table n α
  head : ℕ
  tail : ℕ
  len : ℕ

namespace RingBuffer

variable {n : ℕ} {α : Type u}

/-- A cell is stored at the head; it is not counted yet. -/
def store (r : RingBuffer n α) (a : α) : RingBuffer n α :=
  { r with buffer := r.buffer.set r.head a, head := (r.head + 1) % n }

/-- Several cells, one after the other. -/
def stores (r : RingBuffer n α) (as : List α) : RingBuffer n α := as.foldl store r

@[simp] theorem store_tail (r : RingBuffer n α) (a : α) : (r.store a).tail = r.tail := rfl

@[simp] theorem store_len (r : RingBuffer n α) (a : α) : (r.store a).len = r.len := rfl

@[simp] theorem stores_nil (r : RingBuffer n α) : r.stores [] = r := rfl

theorem stores_cons (r : RingBuffer n α) (a : α) (as : List α) :
    r.stores (a :: as) = (r.store a).stores as := rfl

@[simp] theorem stores_tail (r : RingBuffer n α) (as : List α) : (r.stores as).tail = r.tail := by
  induction as generalizing r with
  | nil => rfl
  | cons a as ih => rw [stores_cons, ih, store_tail]

@[simp] theorem stores_len (r : RingBuffer n α) (as : List α) : (r.stores as).len = r.len := by
  induction as generalizing r with
  | nil => rfl
  | cons a as ih => rw [stores_cons, ih, store_len]

variable [Inhabited α]

instance : Inhabited (RingBuffer n α) := ⟨⟨default, 0, 0, 0⟩⟩

/-- The cell at the tail is loaded; it is still counted. -/
def load (r : RingBuffer n α) : RingBuffer n α × α :=
  ({ r with tail := (r.tail + 1) % n }, r.buffer.get r.tail)

/-- Several cells, one after the other. -/
def loads (r : RingBuffer n α) : ℕ → RingBuffer n α × List α
  | 0 => (r, [])
  | k + 1 =>
    let (r, a) := r.load
    let (r, as) := loads r k
    (r, a :: as)

/-- `len` cells from the tail on. -/
def contents (r : RingBuffer n α) : List α :=
  (List.range r.len).map fun i => r.buffer.get ((r.tail + i) % n)

/-- The head is `len` cells after the tail. -/
structure Ok (r : RingBuffer n α) : Prop where
  len_le : r.len ≤ n
  tail_lt : r.tail < n
  head : r.head = (r.tail + r.len) % n

variable {r : RingBuffer n α}

@[simp] theorem length_contents (r : RingBuffer n α) : r.contents.length = r.len := by simp [contents]

/-- Positions less than `n` apart are different cells. -/
theorem add_mod_ne {t i j : ℕ} (hij : i < j) (hj : j < n) : (t + i) % n ≠ (t + j) % n := by
  intro h
  have hdvd : n ∣ (t + j) - (t + i) := Nat.dvd_of_mod_eq_zero (Nat.sub_mod_eq_zero_of_mod_eq h.symm)
  have hle := Nat.le_of_dvd (by omega) hdvd
  omega

/-- One cell, stored and counted. -/
theorem contents_store (hr : r.Ok) (hlen : r.len < n) (a : α) :
    { r.store a with len := r.len + 1 }.contents = r.contents ++ [a] ∧
      Ok { r.store a with len := r.len + 1 } := by
  have hn : 0 < n := by omega
  have hhead : r.head < n := hr.head ▸ Nat.mod_lt _ hn
  constructor
  · simp only [contents, store, List.range_succ, List.map_append, List.map_cons, List.map_nil]
    congr 1
    · refine List.map_congr_left fun i hi => ?_
      have hi := List.mem_range.mp hi
      rw [Table.get_set_ne]
      rw [hr.head]
      exact add_mod_ne hi hlen
    · rw [← hr.head, Table.get_set_self _ hhead]
  · refine ⟨hlen, hr.tail_lt, ?_⟩
    show (r.head + 1) % n = (r.tail + (r.len + 1)) % n
    rw [hr.head, Nat.mod_add_mod, Nat.add_assoc]

/-- Storing and then counting `as` appends it to the contents. -/
theorem contents_stores {as : List α} (hr : r.Ok) (hlen : r.len + as.length ≤ n) :
    { r.stores as with len := r.len + as.length }.contents = r.contents ++ as ∧
      Ok { r.stores as with len := r.len + as.length } := by
  induction as generalizing r with
  | nil => simpa using hr
  | cons a as ih =>
    rw [List.length_cons] at hlen
    obtain ⟨hone, hok⟩ := contents_store hr (by omega) a
    obtain ⟨hrest, hok'⟩ := ih hok (by dsimp only; omega)
    -- counting after every cell or once at the end gives the same ring
    have hcount (as : List α) (r : RingBuffer n α) (m : ℕ) :
        stores { r with len := m } as = { stores r as with len := m } := by
      induction as generalizing r with
      | nil => rfl
      | cons b bs ih => exact ih (r.store b)
    rw [hcount] at hrest hok'
    rw [stores_cons, List.length_cons, show r.len + (as.length + 1) = r.len + 1 + as.length by omega]
    refine ⟨?_, hok'⟩
    rw [hrest, hone, List.append_assoc, List.singleton_append]

theorem loads_fst (r : RingBuffer n α) (hn : r.tail < n) (k : ℕ) :
    (r.loads k).1 = { r with tail := (r.tail + k) % n } := by
  induction k generalizing r with
  | zero => rw [loads, Nat.add_zero, Nat.mod_eq_of_lt hn]
  | succ k ih =>
    rw [loads, load]
    dsimp only
    rw [ih _ (Nat.mod_lt _ (by omega))]
    dsimp only
    rw [Nat.mod_add_mod, Nat.add_assoc, Nat.add_comm 1 k]

theorem loads_snd (r : RingBuffer n α) (hn : r.tail < n) (k : ℕ) :
    (r.loads k).2 = (List.range k).map fun i => r.buffer.get ((r.tail + i) % n) := by
  induction k generalizing r with
  | zero => rfl
  | succ k ih =>
    rw [loads, load]
    dsimp only
    rw [ih _ (Nat.mod_lt _ (by omega)), List.range_succ_eq_map, List.map_cons, List.map_map,
      show (r.tail + 0) % n = r.tail from Nat.mod_eq_of_lt hn]
    congr 1
    refine List.map_congr_left fun i _ => ?_
    simp only [Function.comp, Nat.mod_add_mod]
    rw [Nat.add_assoc, Nat.add_comm 1 i]

/-- Loading and then discounting `k` cells takes them from the front of the contents. -/
theorem contents_loads (hr : r.Ok) {k : ℕ} (hk : k ≤ r.len) :
    (r.loads k).2 = r.contents.take k ∧
      { (r.loads k).1 with len := r.len - k }.contents = r.contents.drop k ∧
      Ok { (r.loads k).1 with len := r.len - k } := by
  have htail := hr.tail_lt
  rw [loads_fst r htail]
  refine ⟨?_, ?_, hr.len_le.trans' (Nat.sub_le _ _), Nat.mod_lt _ (by omega), ?_⟩
  · rw [loads_snd r htail, contents, ← List.map_take, List.take_range, min_eq_left hk]
  · apply List.ext_getElem
    · simp
    · intro i h₁ h₂
      simp only [contents, List.getElem_map, List.getElem_range, List.getElem_drop, Nat.mod_add_mod]
      rw [Nat.add_assoc]
  · show r.head = ((r.tail + k) % n + (r.len - k)) % n
    rw [hr.head, Nat.mod_add_mod, Nat.add_assoc, Nat.add_sub_cancel' hk]

theorem loads_succ (r : RingBuffer n α) (k : ℕ) :
    r.loads (k + 1) = ((r.load.1.loads k).1, r.load.2 :: (r.load.1.loads k).2) := rfl

theorem loads_add (r : RingBuffer n α) (k m : ℕ) :
    r.loads (k + m) = (((r.loads k).1.loads m).1, (r.loads k).2 ++ ((r.loads k).1.loads m).2) := by
  induction k generalizing r with
  | zero => rw [Nat.zero_add, loads, List.nil_append]
  | succ k ih => rw [Nat.add_right_comm, loads_succ, loads_succ, ih, List.cons_append]

/-- Loading twice before discounting: the second load goes on where the first one ended. -/
theorem contents_loads_loads (hr : r.Ok) {k m : ℕ} (h : k + m ≤ r.len) :
    (r.loads k).2 = r.contents.take k ∧ ((r.loads k).1.loads m).2 = (r.contents.drop k).take m ∧
      { ((r.loads k).1.loads m).1 with len := r.len - (k + m) }.contents = r.contents.drop (k + m) ∧
      Ok { ((r.loads k).1.loads m).1 with len := r.len - (k + m) } := by
  obtain ⟨hboth, hrest⟩ := contents_loads hr h
  have hfirst := (contents_loads hr ((Nat.le_add_right k m).trans h)).1
  rw [loads_add] at hboth hrest
  rw [List.take_add, ← hfirst] at hboth
  exact ⟨hfirst, List.append_cancel_left hboth, hrest⟩

end RingBuffer
