import Mathlib.Data.List.Range
import Mathlib.Tactic.Common

/-!
# Memory that is edited in place

A memory is a function of the place, a store overwrites what is at some places, and a slice is what is
at some places one after the other. A slice that a store does not touch is the same before and after, so
what a sequence of stores leaves can be read off slice by slice.

## Main definitions

* `Memory.store`, `Memory.slice`: overwriting and reading places one after the other

## Main results

* `Memory.slice_store_of_disjoint`, `Memory.slice_store_self`: slices after a store
* `Memory.slice_store_inside`: a slice with a field that was stored
-/

universe u

namespace Memory

variable {α : Type u}

/-- The cells `as` are stored from place `off` on. -/
def store (mem : ℕ → α) (off : ℕ) (as : List α) (i : ℕ) : α :=
  if off ≤ i then as[i - off]?.getD (mem i) else mem i

/-- `n` cells from place `off` on. -/
def slice (mem : ℕ → α) (off n : ℕ) : List α := (List.range n).map fun i => mem (off + i)

variable (mem : ℕ → α) {off i o n m : ℕ} {as : List α}

@[simp] theorem length_slice (off n : ℕ) : (slice mem off n).length = n := by simp [slice]

theorem slice_one (off : ℕ) : slice mem off 1 = [mem off] := rfl

theorem getElem?_slice (h : i < n) : (slice mem off n)[i]? = some (mem (off + i)) := by
  simp [slice, h]

theorem slice_add (off n m : ℕ) : slice mem off (n + m) = slice mem off n ++ slice mem (off + n) m := by
  simp only [slice, List.range_add, List.map_append, List.map_map]
  congr 1
  exact List.map_congr_left fun i _ => congrArg mem (Nat.add_assoc off n i).symm

theorem drop_slice (off n m : ℕ) : (slice mem off n).drop m = slice mem (off + m) (n - m) := by
  by_cases h : m ≤ n
  · have hsplit := slice_add mem off m (n - m)
    rw [Nat.add_sub_cancel' h] at hsplit
    rw [hsplit]
    exact List.drop_left' (length_slice mem off m)
  · rw [List.drop_eq_nil_of_le (by rw [length_slice]; omega), Nat.sub_eq_zero_of_le (by omega)]
    rfl

theorem take_slice (h : m ≤ n) : (slice mem off n).take m = slice mem off m := by
  have hsplit := slice_add mem off m (n - m)
  rw [Nat.add_sub_cancel' h] at hsplit
  rw [hsplit]
  exact List.take_left' (length_slice mem off m)

theorem store_of_disjoint (h : i < off ∨ off + as.length ≤ i) : store mem off as i = mem i := by
  rw [store]
  split
  · rw [List.getElem?_eq_none (by omega), Option.getD_none]
  · rfl

theorem store_add (h : i < as.length) : store mem off as (off + i) = as[i] := by
  rw [store, if_pos (Nat.le_add_right off i), Nat.add_sub_cancel_left, List.getElem?_eq_getElem h,
    Option.getD_some]

/-- A copy of cells. -/
theorem store_slice {src : ℕ → α} (h : i < n) : store mem off (slice src o n) (off + i) = src (o + i) := by
  rw [store_add mem (by rwa [length_slice])]
  simp [slice]

theorem apply_of_slice {mem mem' : ℕ → α} (h : slice mem off n = slice mem' off n) (hi : i < n) :
    mem (off + i) = mem' (off + i) := by
  have hcell := congrArg (·[i]?) h
  simpa only [getElem?_slice _ hi, Option.some_inj] using hcell

/-- A store elsewhere. -/
theorem slice_store_of_disjoint (h : o + n ≤ off ∨ off + as.length ≤ o) :
    slice (store mem off as) o n = slice mem o n := by
  refine List.map_congr_left fun i hi => ?_
  have hi := List.mem_range.mp hi
  exact store_of_disjoint mem (by omega)

theorem slice_store_self (h : as.length = n) : slice (store mem off as) off n = as := by
  subst h
  refine List.ext_getElem (length_slice _ _ _) fun i h h' => ?_
  simp only [slice, List.getElem_map, List.getElem_range]
  exact store_add mem h'

/-- A slice that a store goes into. -/
theorem slice_store_inside (h : m + as.length ≤ n) :
    slice (store mem (off + m) as) off n =
      slice mem off m ++ as ++ slice mem (off + m + as.length) (n - m - as.length) := by
  have hn : n = m + as.length + (n - m - as.length) := by omega
  rw [hn, slice_add, slice_add, slice_store_self _ rfl, slice_store_of_disjoint _ (.inl le_rfl),
    ← Nat.add_assoc, slice_store_of_disjoint _ (.inr le_rfl), ← hn]

end Memory
