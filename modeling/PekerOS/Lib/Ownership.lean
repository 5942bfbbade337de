import Mathlib

/-!
# Exclusive ownership

A family of slots, each empty or naming one resource, owns a set of resources exclusively when every
resource of the set is named by exactly one slot and no slot names a resource outside it. Filling
an empty slot with a fresh resource, emptying a slot, and moving a resource between slots keep this,
the set growing, shrinking and staying as it was.

## Main definitions

* `Owns slot used`: the slots own the set `used` exclusively

## Main results

* `Owns.existsUnique`: a used resource has exactly one owner
* `Owns.assign`, `Owns.release`, `Owns.move`: the three updates
-/

/-- The slots own the resources of `used`, each by exactly one slot. -/
structure Owns {ι β : Type*} (slot : ι → Option β) (used : Set β) : Prop where
  /-- A named resource is in use. -/
  used_of_slot : ∀ {i b}, slot i = some b → b ∈ used
  /-- A resource in use is named. -/
  owner : ∀ {b}, b ∈ used → ∃ i, slot i = some b
  /-- No resource is named twice. -/
  inj : ∀ {i j b}, slot i = some b → slot j = some b → i = j

namespace Owns

variable {ι β : Type*} {slot slot' : ι → Option β} {used used' : Set β} {i j : ι} {b : β}

theorem existsUnique (h : Owns slot used) (hb : b ∈ used) : ∃! i, slot i = some b := by
  obtain ⟨i, hi⟩ := h.owner hb
  exact ⟨i, hi, fun j hj => h.inj hj hi⟩

/-- Slots that all are empty own nothing. -/
theorem empty (h : ∀ i, slot i = none) : Owns slot (∅ : Set β) where
  used_of_slot hi := by simp [h] at hi
  owner hb := hb.elim
  inj hi := by simp [h] at hi

/-- Filling an empty slot with a fresh resource. -/
theorem assign (h : Owns slot used) (hi : slot i = none) (hb : b ∉ used)
    (hself : slot' i = some b) (hne : ∀ j, j ≠ i → slot' j = slot j)
    (hused : ∀ c, c ∈ used' ↔ c = b ∨ c ∈ used) : Owns slot' used' where
  used_of_slot {j c} hj := by
    rw [hused]
    by_cases hji : j = i
    · subst hji
      exact Or.inl (Option.some.inj (hj.symm.trans hself))
    · exact Or.inr (h.used_of_slot ((hne j hji).symm.trans hj))
  owner {c} hc := by
    rcases (hused c).mp hc with rfl | hc
    · exact ⟨i, hself⟩
    · obtain ⟨j, hj⟩ := h.owner hc
      have hji : j ≠ i := by
        rintro rfl
        simp [hi] at hj
      exact ⟨j, (hne j hji).trans hj⟩
  inj {j k c} hj hk := by
    -- the fresh resource is named by no other slot, since every named one was in use before
    have hfresh : ∀ l, l ≠ i → slot' l ≠ some b := fun l hl hlb =>
      hb (h.used_of_slot ((hne l hl).symm.trans hlb))
    by_cases hji : j = i <;> by_cases hki : k = i
    · rw [hji, hki]
    · subst hji
      exact absurd (hk.trans (hj.symm.trans hself)) (hfresh k hki)
    · subst hki
      exact absurd (hj.trans (hk.symm.trans hself)) (hfresh j hji)
    · exact h.inj ((hne j hji).symm.trans hj) ((hne k hki).symm.trans hk)

/-- Emptying a slot. -/
theorem release (h : Owns slot used) (hi : slot i = some b) (hself : slot' i = none)
    (hne : ∀ j, j ≠ i → slot' j = slot j) (hused : ∀ c, c ∈ used' ↔ c ≠ b ∧ c ∈ used) :
    Owns slot' used' where
  used_of_slot {j c} hj := by
    have hji : j ≠ i := by
      rintro rfl
      simp [hself] at hj
    have hj' : slot j = some c := (hne j hji).symm.trans hj
    refine (hused c).mpr ⟨?_, h.used_of_slot hj'⟩
    rintro rfl
    exact hji (h.inj hj' hi)
  owner {c} hc := by
    obtain ⟨hcb, hc⟩ := (hused c).mp hc
    obtain ⟨j, hj⟩ := h.owner hc
    have hji : j ≠ i := by
      rintro rfl
      exact hcb (Option.some.inj (hj.symm.trans hi))
    exact ⟨j, (hne j hji).trans hj⟩
  inj {j k c} hj hk := by
    have hocc : ∀ l, slot' l = some c → l ≠ i := by
      rintro l hl rfl
      simp [hself] at hl
    exact h.inj ((hne j (hocc j hj)).symm.trans hj) ((hne k (hocc k hk)).symm.trans hk)

/-- Moving a resource from slot `j` to the empty slot `i`. -/
theorem move (h : Owns slot used) (hi : slot i = none) (hj : slot j = some b)
    (hself : slot' i = some b) (hold : slot' j = none)
    (hne : ∀ k, k ≠ i → k ≠ j → slot' k = slot k) : Owns slot' used := by
  classical
  have hij : i ≠ j := by
    rintro rfl
    simp [hi] at hj
  -- empty slot `j`, then fill slot `i` with the resource just released
  have hmid : Owns (Function.update slot j none) (used \ {b}) :=
    h.release hj (by simp) (fun k hk => by simp [hk]) fun c => by simp [and_comm]
  refine hmid.assign (i := i) (b := b) (by simp [hij, hi]) (by simp) hself ?_ ?_
  · intro k hk
    by_cases hkj : k = j
    · subst hkj
      simp [hold]
    · simp [hkj, hne k hk hkj]
  · intro c
    by_cases hcb : c = b
    · simp [hcb, h.used_of_slot hj]
    · simp [hcb]

theorem congr (h : Owns slot used) (hs : ∀ i, slot' i = slot i) (hu : ∀ b, b ∈ used' ↔ b ∈ used) :
    Owns slot' used' where
  used_of_slot hi := (hu _).mpr (h.used_of_slot ((hs _).symm.trans hi))
  owner hb := by
    obtain ⟨i, hi⟩ := h.owner ((hu _).mp hb)
    exact ⟨i, (hs i).trans hi⟩
  inj hi hj := h.inj ((hs _).symm.trans hi) ((hs _).symm.trans hj)

end Owns
