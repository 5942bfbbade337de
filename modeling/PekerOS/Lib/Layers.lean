import Mathlib.Data.List.Basic
import Mathlib.Tactic.Common

/-!
# Layers

A picture is painted in layers. Each gives a colour to the points that it covers, and at a point the
colour of the last one is seen that covers it, or what was there before if none does. To paint a list of
layers one after the other is to paint one, their pile.

## Main definitions

* `Layer P C`: the colours of the points that are covered
* `Layer.onto`: what is seen once it is painted
* `Layer.region`: one colour for all points of a region
* `Layer.pile`: the layers of a list, the last of them on top
* `Layer.recolor`: other colours at the same points

## Main results

* `Layer.pile_append`: a pile on another
* `Layer.pile_eq_some_iff`, `Layer.pile_eq_none_iff`: the layer that is seen
* `Layer.pile_map_region`, `Layer.pile_map_of_forall_ne`: regions of one colour, and layers of which one
  at most covers a point
-/

/-- The colour of each point that is covered. -/
abbrev Layer (P C : Type*) : Type _ := P → Option C

namespace Layer

variable {P C D α : Type*}

/-- What is seen once the layer is painted. -/
def onto (l : Layer P C) (base : P → C) : P → C := fun p => (l p).getD (base p)

/-- A region in one colour. -/
def region (r : P → Bool) (c : C) : Layer P C := fun p => if r p then some c else none

/-- The layers of a list as one. -/
def pile (ls : List (Layer P C)) : Layer P C := fun p => ls.reverse.findSome? fun l => l p

/-- The same points in other colours. -/
def recolor (f : C → D) (l : Layer P C) : Layer P D := fun p => (l p).map f

variable {l m : Layer P C} {ls ms : List (Layer P C)} {p : P} {c : C} {base : P → C}

theorem region_eq_some_iff {r : P → Bool} {c' : C} : region r c p = some c' ↔ r p = true ∧ c = c' := by
  rw [region]
  split
  · next h => exact ⟨fun hc => ⟨h, Option.some.inj hc⟩, fun hc => congrArg some hc.2⟩
  · next h => exact ⟨nofun, fun hc => absurd hc.1 h⟩

@[simp] theorem pile_nil : pile ([] : List (Layer P C)) p = none := rfl

@[simp] theorem pile_singleton : pile [l] p = l p := by
  rw [pile, List.reverse_singleton, List.findSome?_cons]
  cases l p <;> rfl

theorem pile_append : pile (ls ++ ms) p = (pile ms p).or (pile ls p) := by
  rw [pile, List.reverse_append, List.findSome?_append]
  rfl

theorem pile_cons : pile (l :: ls) p = (pile ls p).or (l p) := by
  rw [← List.singleton_append, pile_append, pile_singleton]

theorem pile_concat : pile (ls ++ [l]) p = (l p).or (pile ls p) := by
  rw [pile_append, pile_singleton]

theorem pile_eq_none_iff : pile ls p = none ↔ ∀ l ∈ ls, l p = none := by
  rw [pile, List.findSome?_eq_none_iff]
  exact ⟨fun h l hl => h l (List.mem_reverse.mpr hl), fun h l hl => h l (List.mem_reverse.mp hl)⟩

/-- The layer that is seen is covered by none of those above it. -/
theorem pile_eq_some_iff : pile ls p = some c ↔
    ∃ below l above, ls = below ++ l :: above ∧ l p = some c ∧ ∀ m ∈ above, m p = none := by
  rw [pile, List.findSome?_eq_some_iff]
  constructor
  · rintro ⟨front, l, back, hsplit, hl, hfront⟩
    refine ⟨back.reverse, l, front.reverse, ?_, hl, fun m hm => hfront m (List.mem_reverse.mp hm)⟩
    rw [← List.reverse_reverse ls, hsplit, List.reverse_append, List.reverse_cons, List.append_assoc]
    rfl
  · rintro ⟨below, l, above, rfl, hl, habove⟩
    refine ⟨above.reverse, l, below.reverse, ?_, hl, fun m hm => habove m (List.mem_reverse.mp hm)⟩
    rw [List.reverse_append, List.reverse_cons, List.append_assoc]
    rfl

/-- A point that some layer covers. -/
theorem isSome_pile_iff : (pile ls p).isSome ↔ ∃ l ∈ ls, (l p).isSome := by
  rw [← Option.ne_none_iff_isSome, Ne, pile_eq_none_iff]
  push Not
  exact exists_congr fun l => and_congr_right fun _ => Option.ne_none_iff_isSome

/-- Regions of one colour are the region that they cover together. -/
theorem pile_map_region {r : α → P → Bool} {as : List α} {q : P → Bool}
    (hq : q p = true ↔ ∃ a ∈ as, r a p = true) :
    pile (as.map fun a => region (r a) c) p = region q c p := by
  by_cases h : q p = true
  · obtain ⟨a, ha, hr⟩ := hq.mp h
    have hcovered : (region (r a) c p).isSome := by
      rw [region, if_pos hr]
      rfl
    have hlayer : region (r a) c ∈ as.map fun a => region (r a) c :=
      List.mem_map_of_mem (f := fun a => region (r a) c) ha
    obtain ⟨c', hc'⟩ := Option.isSome_iff_exists.mp (isSome_pile_iff.mpr ⟨_, hlayer, hcovered⟩)
    obtain ⟨_, _, _, hsplit, hl, -⟩ := pile_eq_some_iff.mp hc'
    -- whichever it is, it has the colour
    have hmem := hsplit ▸ List.mem_append_right _ List.mem_cons_self
    obtain ⟨b, -, rfl⟩ := List.mem_map.mp hmem
    rw [hc', ← (region_eq_some_iff.mp hl).2]
    exact (region_eq_some_iff.mpr ⟨h, rfl⟩).symm
  · rw [region, if_neg h, pile_eq_none_iff]
    intro l hl
    obtain ⟨a, ha, rfl⟩ := List.mem_map.mp hl
    rw [region, if_neg fun hr => h (hq.mpr ⟨a, ha, hr⟩)]

/-- Only one of the layers can cover the point. -/
theorem pile_map_of_forall_ne [DecidableEq α] {l : α → Layer P C} {as : List α} {b : α}
    (h : ∀ a ∈ as, a ≠ b → l a p = none) :
    pile (as.map l) p = if b ∈ as then l b p else none := by
  induction as with
  | nil => rfl
  | cons a as ih =>
    rw [List.map_cons, pile_cons, ih fun a' ha' => h a' (List.mem_cons_of_mem a ha')]
    by_cases hab : a = b
    · subst hab
      rw [if_pos List.mem_cons_self]
      split
      · exact Option.or_self
      · exact Option.none_or
    · rw [h a List.mem_cons_self hab, Option.or_none]
      refine if_congr ?_ rfl rfl
      rw [List.mem_cons]
      exact (or_iff_right (Ne.symm hab)).symm

theorem recolor_region (f : C → D) (r : P → Bool) (c : C) :
    recolor f (region r c) = region r (f c) := by
  funext p
  rw [recolor, region, region, apply_ite (Option.map f)]
  rfl

theorem recolor_pile (f : C → D) (ls : List (Layer P C)) :
    recolor f (pile ls) = pile (ls.map (recolor f)) := by
  funext p
  rw [recolor]
  induction ls with
  | nil => rfl
  | cons l ls ih =>
    rw [List.map_cons, pile_cons, pile_cons, ← ih, Option.map_or]
    rfl

theorem recolor_recolor {E : Type*} (g : D → E) (f : C → D) (l : Layer P C) :
    recolor g (recolor f l) = recolor (g ∘ f) l :=
  funext fun _ => Option.map_map ..

/-- A layer painted onto another. -/
theorem onto_onto : m.onto (l.onto base) p = onto (fun p => (m p).or (l p)) base p := by
  rw [onto, onto, onto]
  cases m p <;> rfl

end Layer
