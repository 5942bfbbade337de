import Mathlib

/-!
# Name resolution with links

Positions are joined by named edges, and an edge may lead to a link instead of a position. A link has
a starting position and names of its own, which are resolved in its place, or it dangles. A function
that follows links calls itself once for each link, so on links that lead to one another it need not
return. Here it takes the number of calls that may be nested and returns nothing when they do not
suffice.

What the names lead to is said without that number, by a relation. The calls do not suffice exactly
when there is a chain of links, longer than their number, of which each is met while the one before
is resolved. Along links that never lead back to one another every resolution ends.

## Main definitions

* `LinkGraph`: positions, names and links
* `LinkGraph.walk`, `LinkGraph.resolve`: resolution with a bound on nested calls
* `LinkGraph.Walks`, `LinkGraph.Visits`, `LinkGraph.Meets`: where names lead, which names are looked
  up on the way and which links are met
* `LinkGraph.Follows`, `LinkGraph.Reaches`, `LinkGraph.ChainFrom`: links met while another is resolved
* `LinkGraph.Stops`, `LinkGraph.Adds`: names that lead to an edge that is missing, and such edges added

## Main results

* `LinkGraph.resolve_eq_none_iff`: when a bound on nested calls does not suffice
* `LinkGraph.resolve_eq_some`: what resolution gives when it does
* `LinkGraph.exists_resolve`: it does for some bound when no links lead back to one another
* `LinkGraph.Walks.exists_resolve`: and it does when the names lead somewhere
* `LinkGraph.Adds.walks_or_stops`: where names lead once edges are added
-/

/-- What stands at an edge: nothing, a position, or a link. -/
inductive Found (σ κ : Type*)
  | missing
  | node (s : σ)
  | link (l : κ)

/-- Positions, names and links. -/
structure LinkGraph (σ ν κ : Type*) where
  find : σ → ν → Found σ κ
  /-- Where resolving a link starts, and its names; `none` for one that dangles. -/
  target : κ → Option (σ × List ν)

namespace LinkGraph

variable {σ ν κ : Type*} (G : LinkGraph σ ν κ)

/-! ## Resolution with a bound on nested calls -/

/-- Resolves names one by one; `follow` is the call for a link, `none` one that does not return. -/
def walk (follow : κ → Option (Option σ)) : σ → List ν → Option (Option σ)
  | s, [] => some (some s)
  | s, n :: ns =>
    match G.find s n with
    | .missing => some none
    | .node t => walk follow t ns
    | .link l =>
      match follow l with
      | none => none
      | some none => some none
      | some (some t) => walk follow t ns

/-- The call for a link, with a number of calls that may be nested. -/
def follow : ℕ → κ → Option (Option σ)
  | 0, _ => none
  | d + 1, l =>
    match G.target l with
    | none => some none
    | some (s, ns) => G.walk (follow d) s ns

def resolve (d : ℕ) : σ → List ν → Option (Option σ) := G.walk (G.follow d)

/-! ## Where names lead -/

/-- The names lead from one position to another, links being resolved. -/
inductive Walks : σ → List ν → σ → Prop
  | nil {s} : Walks s [] s
  | node {s n t ns r} : G.find s n = .node t → Walks t ns r → Walks s (n :: ns) r
  | link {s n l b ms t ns r} : G.find s n = .link l → G.target l = some (b, ms) → Walks b ms t →
      Walks t ns r → Walks s (n :: ns) r

/-- The link leads to the position. -/
def Leads (l : κ) (t : σ) : Prop := ∃ b ms, G.target l = some (b, ms) ∧ G.Walks b ms t

/-- Resolving the names looks up `m` at the position `p`. The names of links are not counted in. -/
inductive Visits : σ → List ν → σ → ν → Prop
  | here {s n ns} : Visits s (n :: ns) s n
  | node {s n t ns p m} : G.find s n = .node t → Visits t ns p m → Visits s (n :: ns) p m
  | link {s n l t ns p m} : G.find s n = .link l → G.Leads l t → Visits t ns p m →
      Visits s (n :: ns) p m

/-- Resolving the names comes to the link. -/
def Meets (s : σ) (ns : List ν) (l : κ) : Prop := ∃ p m, G.Visits s ns p m ∧ G.find p m = .link l

/-- Resolving the link `l` comes to the link `l'`. -/
def Follows (l' l : κ) : Prop := ∃ b ms, G.target l = some (b, ms) ∧ G.Meets b ms l'

/-- Resolving the names comes to the link, or to a link that leads on to it. -/
def Reaches (s : σ) (ns : List ν) (l : κ) : Prop :=
  ∃ i, G.Meets s ns i ∧ Relation.ReflTransGen (fun a b => G.Follows b a) i l

/-- A chain of `d` links after `l`, each met while the one before is resolved. -/
def ChainFrom : ℕ → κ → Prop
  | 0, _ => True
  | d + 1, l => ∃ l', G.Follows l' l ∧ ChainFrom d l'

/-- The names lead to an edge of `C`: the last of them is looked up there, or it is a link whose names
lead to one. -/
inductive Stops (C : σ → ν → Prop) : σ → List ν → Prop
  | here {s n} : C s n → Stops C s [n]
  | node {s n t ns} : G.find s n = .node t → Stops C t ns → Stops C s (n :: ns)
  | through {s n l t ns} : G.find s n = .link l → G.Leads l t → Stops C t ns → Stops C s (n :: ns)
  | link {s n l b ms} : G.find s n = .link l → G.target l = some (b, ms) → Stops C b ms →
      Stops C s [n]

variable {G} {s t r : σ} {n : ν} {ns ms : List ν} {l : κ} {d e : ℕ} {o : Option σ}
  {f : κ → Option (Option σ)}

theorem Walks.unique (h : G.Walks s ns t) (h' : G.Walks s ns r) : t = r := by
  induction h generalizing r with
  | nil =>
    cases h'
    rfl
  | node hfind _ ih =>
    cases h' with
    | node hfind' hwalk' =>
      obtain rfl := Found.node.inj (hfind.symm.trans hfind')
      exact ih hwalk'
    | link hfind' => exact absurd (hfind.symm.trans hfind') (by simp)
  | link hfind htarget _ _ ihtarget ih =>
    cases h' with
    | node hfind' => exact absurd (hfind.symm.trans hfind') (by simp)
    | link hfind' htarget' hwalk' hrest' =>
      obtain rfl := Found.link.inj (hfind.symm.trans hfind')
      obtain ⟨rfl, rfl⟩ := Prod.mk.inj (Option.some.inj (htarget.symm.trans htarget'))
      obtain rfl := ihtarget hwalk'
      exact ih hrest'

theorem Leads.unique (h : G.Leads l t) (h' : G.Leads l r) : t = r := by
  obtain ⟨b, ms, htarget, hwalk⟩ := h
  obtain ⟨b', ms', htarget', hwalk'⟩ := h'
  obtain ⟨rfl, rfl⟩ := Prod.mk.inj (Option.some.inj (htarget.symm.trans htarget'))
  exact hwalk.unique hwalk'

theorem walks_append : G.Walks s (ns ++ ms) r ↔ ∃ t, G.Walks s ns t ∧ G.Walks t ms r := by
  constructor
  · intro h
    induction ns generalizing s with
    | nil => exact ⟨s, .nil, h⟩
    | cons n ns ih =>
      cases h with
      | node hfind hrest =>
        obtain ⟨t, hns, hms⟩ := ih hrest
        exact ⟨t, .node hfind hns, hms⟩
      | link hfind htarget hwalk hrest =>
        obtain ⟨t, hns, hms⟩ := ih hrest
        exact ⟨t, .link hfind htarget hwalk hns, hms⟩
  · rintro ⟨t, hns, hms⟩
    induction hns with
    | nil => exact hms
    | node hfind _ ih => exact .node hfind (ih hms)
    | link hfind htarget hwalk _ _ ih => exact .link hfind htarget hwalk (ih hms)

/-- Names that are resolved to a position, in two parts. -/
theorem walk_append : G.walk f s (ns ++ ms) = some (some r) ↔
    ∃ t, G.walk f s ns = some (some t) ∧ G.walk f t ms = some (some r) := by
  induction ns generalizing s with
  | nil => simp [walk]
  | cons n ns ih =>
    cases hfind : G.find s n with
    | missing => simp [walk, hfind]
    | node t =>
      simp only [List.cons_append, walk, hfind]
      exact ih
    | link l =>
      rcases hl : f l with _ | _ | t
      · simp [walk, hfind, hl]
      · simp [walk, hfind, hl]
      · simp only [List.cons_append, walk, hfind, hl]
        exact ih

/-- A position at the next name is where the walk goes on. -/
theorem walks_cons_node (h : G.find s n = .node t) : G.Walks s (n :: ns) r ↔ G.Walks t ns r := by
  refine ⟨fun hwalk => ?_, .node h⟩
  cases hwalk with
  | node hfind hrest =>
    obtain rfl := Found.node.inj (h.symm.trans hfind)
    exact hrest
  | link hfind => exact absurd (h.symm.trans hfind) (by simp)

/-- A link at the next name: the walk goes on from where it leads. -/
theorem walks_cons_link (h : G.find s n = .link l) :
    G.Walks s (n :: ns) r ↔ ∃ t, G.Leads l t ∧ G.Walks t ns r := by
  constructor
  · intro hwalk
    cases hwalk with
    | node hfind => exact absurd (h.symm.trans hfind) (by simp)
    | link hfind htarget hwalk hrest =>
      obtain rfl := Found.link.inj (h.symm.trans hfind)
      exact ⟨_, ⟨_, _, htarget, hwalk⟩, hrest⟩
  · rintro ⟨t, ⟨b, ms, htarget, hwalk⟩, hrest⟩
    exact .link h htarget hwalk hrest

theorem not_walks_cons (h : G.find s n = .missing) : ¬G.Walks s (n :: ns) r := by
  intro hwalk
  cases hwalk with
  | node hfind => exact absurd (h.symm.trans hfind) (by simp)
  | link hfind => exact absurd (h.symm.trans hfind) (by simp)

@[simp] theorem walks_nil : G.Walks s [] r ↔ s = r := by
  refine ⟨fun h => ?_, fun h => h ▸ .nil⟩
  cases h
  rfl

/-- Two positions with the same edges: names lead from both to the same. -/
theorem walks_congr (h : ∀ n, G.find s n = G.find t n) (hns : ns ≠ []) :
    G.Walks s ns r ↔ G.Walks t ns r := by
  obtain ⟨n, ns, rfl⟩ := List.exists_cons_of_ne_nil hns
  cases hfind : G.find t n with
  | missing => exact iff_of_false (not_walks_cons ((h n).trans hfind)) (not_walks_cons hfind)
  | node u => rw [walks_cons_node ((h n).trans hfind), walks_cons_node hfind]
  | link l => rw [walks_cons_link ((h n).trans hfind), walks_cons_link hfind]

/-! ## Which links are met -/

theorem Visits.mem {p : σ} {m : ν} (h : G.Visits s ns p m) : m ∈ ns := by
  induction h with
  | here => exact List.mem_cons_self
  | node _ _ ih => exact List.mem_cons_of_mem _ ih
  | link _ _ _ ih => exact List.mem_cons_of_mem _ ih

@[simp] theorem not_meets_nil : ¬G.Meets s [] l := by
  rintro ⟨p, m, hvisit, -⟩
  cases hvisit

theorem not_meets_cons (h : G.find s n = .missing) : ¬G.Meets s (n :: ns) l := by
  rintro ⟨p, m, hvisit, hlink⟩
  cases hvisit with
  | here => exact absurd (h.symm.trans hlink) (by simp)
  | node hfind => exact absurd (h.symm.trans hfind) (by simp)
  | link hfind => exact absurd (h.symm.trans hfind) (by simp)

theorem meets_cons_node (h : G.find s n = .node t) : G.Meets s (n :: ns) l ↔ G.Meets t ns l := by
  constructor
  · rintro ⟨p, m, hvisit, hlink⟩
    cases hvisit with
    | here => exact absurd (h.symm.trans hlink) (by simp)
    | node hfind hrest =>
      obtain rfl := Found.node.inj (h.symm.trans hfind)
      exact ⟨p, m, hrest, hlink⟩
    | link hfind => exact absurd (h.symm.trans hfind) (by simp)
  · rintro ⟨p, m, hvisit, hlink⟩
    exact ⟨p, m, .node h hvisit, hlink⟩

theorem meets_cons_link {m : κ} (h : G.find s n = .link m) :
    G.Meets s (n :: ns) l ↔ m = l ∨ ∃ t, G.Leads m t ∧ G.Meets t ns l := by
  constructor
  · rintro ⟨p, k, hvisit, hlink⟩
    cases hvisit with
    | here => exact .inl (Found.link.inj (h.symm.trans hlink))
    | node hfind => exact absurd (h.symm.trans hfind) (by simp)
    | link hfind hleads hrest =>
      obtain rfl := Found.link.inj (h.symm.trans hfind)
      exact .inr ⟨_, hleads, p, k, hrest, hlink⟩
  · rintro (rfl | ⟨t, hleads, p, k, hvisit, hlink⟩)
    · exact ⟨s, n, .here, h⟩
    · exact ⟨p, k, .link h hleads hvisit, hlink⟩

/-! ## Resolution agrees with the relations -/

/-- Where the call for a link returns, it returns what the link leads to. -/
def Exact (G : LinkGraph σ ν κ) (f : κ → Option (Option σ)) : Prop :=
  ∀ {l o}, f l = some o → ∀ t, o = some t ↔ G.Leads l t

theorem walk_eq_some (hf : G.Exact f) (h : G.walk f s ns = some o) (r : σ) :
    o = some r ↔ G.Walks s ns r := by
  induction ns generalizing s with
  | nil =>
    obtain rfl := Option.some.inj h
    simp
  | cons n ns ih =>
    unfold walk at h
    cases hfind : G.find s n with
    | missing =>
      simp only [hfind, Option.some.injEq] at h
      simp [← h, not_walks_cons hfind]
    | node t =>
      simp only [hfind] at h
      rw [walks_cons_node hfind, ih h]
    | link l =>
      rw [walks_cons_link hfind]
      cases hl : f l with
      | none => simp [hfind, hl] at h
      | some o' =>
        cases o' with
        | none =>
          simp only [hfind, hl, Option.some.injEq] at h
          -- the call says that the link leads nowhere
          have hno : ∀ t, ¬G.Leads l t := fun t ht => by simpa using (hf hl t).mpr ht
          simp [← h, hno]
        | some t =>
          simp only [hfind, hl] at h
          have hleads : G.Leads l t := (hf hl t).mp rfl
          rw [ih h]
          refine ⟨fun hwalk => ⟨t, hleads, hwalk⟩, ?_⟩
          rintro ⟨t', hleads', hwalk⟩
          exact hleads.unique hleads' ▸ hwalk

theorem walk_eq_none_iff (hf : G.Exact f) :
    G.walk f s ns = none ↔ ∃ l, G.Meets s ns l ∧ f l = none := by
  induction ns generalizing s with
  | nil => simp [walk]
  | cons n ns ih =>
    cases hfind : G.find s n with
    | missing => simp [walk, hfind, not_meets_cons hfind]
    | node t => simp [walk, hfind, meets_cons_node hfind, ih]
    | link m =>
      simp only [meets_cons_link hfind]
      cases hm : f m with
      | none => simp [walk, hfind, hm]
      | some o =>
        -- the call for this link returns, so one that does not is for a later link
        have hne : ∀ l, f l = none → m ≠ l := by
          rintro l hl rfl
          simp [hm] at hl
        cases o with
        | none =>
          have hno : ∀ t, ¬G.Leads m t := fun t ht => by simpa using (hf hm t).mpr ht
          simp [walk, hfind, hm, hno]
        | some t =>
          have hleads : G.Leads m t := (hf hm t).mp rfl
          simp only [walk, hfind, hm, ih]
          refine exists_congr fun l => and_congr_left fun hl => ?_
          simp only [hne l hl, false_or]
          refine ⟨fun hmeets => ⟨t, hleads, hmeets⟩, ?_⟩
          rintro ⟨t', hleads', hmeets⟩
          exact hleads.unique hleads' ▸ hmeets

theorem exact_follow (d : ℕ) : G.Exact (G.follow d) := by
  induction d with
  | zero =>
    intro l o h
    simp [follow] at h
  | succ d ih =>
    intro l o h t
    unfold follow at h
    cases htarget : G.target l with
    | none =>
      simp only [htarget, Option.some.injEq] at h
      simp [← h, Leads, htarget]
    | some b =>
      obtain ⟨b, ms⟩ := b
      simp only [htarget] at h
      simp [walk_eq_some ih h t, Leads, htarget]

theorem follow_eq_none_iff : G.follow d l = none ↔ G.ChainFrom d l := by
  induction d generalizing l with
  | zero => simp [follow, ChainFrom]
  | succ d ih =>
    unfold follow
    cases htarget : G.target l with
    | none => simp [ChainFrom, Follows, htarget]
    | some b =>
      obtain ⟨b, ms⟩ := b
      simp [ChainFrom, Follows, htarget, walk_eq_none_iff (exact_follow d), ih]

/-- **A bound on nested calls.** Calls nested `d` deep do not suffice exactly when the names come to a
link with a chain of `d` links after it. -/
theorem resolve_eq_none_iff :
    G.resolve d s ns = none ↔ ∃ l, G.Meets s ns l ∧ G.ChainFrom d l := by
  simp only [resolve, walk_eq_none_iff (exact_follow d), follow_eq_none_iff]

/-- What is resolved is where the names lead. -/
theorem resolve_eq_some (h : G.resolve d s ns = some o) (r : σ) : o = some r ↔ G.Walks s ns r :=
  walk_eq_some (exact_follow d) h r

theorem ChainFrom.pred (h : G.ChainFrom (d + 1) l) : G.ChainFrom d l := by
  induction d generalizing l with
  | zero => trivial
  | succ d ih =>
    obtain ⟨l', hfollows, hchain⟩ := h
    exact ⟨l', hfollows, ih hchain⟩

theorem ChainFrom.le (h : G.ChainFrom e l) (hde : d ≤ e) : G.ChainFrom d l := by
  induction e, hde using Nat.le_induction with
  | base => exact h
  | succ e _ ih => exact ih h.pred

/-! ## Links that never lead back to one another -/

/-- Names meet finitely many links, so bounds for each give one for all. -/
theorem exists_bound (h : ∀ l, G.Meets s ns l → ∃ d, ¬G.ChainFrom d l) :
    ∃ d, ∀ l, G.Meets s ns l → ¬G.ChainFrom d l := by
  induction ns generalizing s with
  | nil => exact ⟨0, fun l hl => absurd hl not_meets_nil⟩
  | cons n ns ih =>
    cases hfind : G.find s n with
    | missing => exact ⟨0, fun l hl => absurd hl (not_meets_cons hfind)⟩
    | node t =>
      simp only [meets_cons_node hfind] at h ⊢
      exact ih h
    | link m =>
      simp only [meets_cons_link hfind] at h ⊢
      obtain ⟨d, hd⟩ := h m (.inl rfl)
      by_cases hm : ∃ t, G.Leads m t
      · -- the link itself needs one bound and the links after it another
        obtain ⟨t, hleads⟩ := hm
        obtain ⟨e, he⟩ := ih fun l hl => h l (.inr ⟨t, hleads, hl⟩)
        refine ⟨max d e, ?_⟩
        rintro l (rfl | ⟨t', hleads', hl⟩) hchain
        · exact hd (hchain.le (le_max_left d e))
        · obtain rfl := hleads.unique hleads'
          exact he l hl (hchain.le (le_max_right d e))
      · -- a link that leads nowhere is the last to be met
        refine ⟨d, ?_⟩
        rintro l (rfl | ⟨t', hleads', -⟩)
        · exact hd
        · exact absurd ⟨t', hleads'⟩ hm

theorem exists_not_chainFrom (hwf : WellFounded G.Follows) (l : κ) : ∃ d, ¬G.ChainFrom d l := by
  induction l using hwf.induction with
  | _ l ih =>
    cases htarget : G.target l with
    | none => exact ⟨1, fun ⟨l', ⟨b, ms, hb, _⟩, _⟩ => by simp [htarget] at hb⟩
    | some b =>
      obtain ⟨b, ms⟩ := b
      obtain ⟨d, hd⟩ := exists_bound fun l' hl' => ih l' ⟨b, ms, htarget, hl'⟩
      refine ⟨d + 1, ?_⟩
      rintro ⟨l', ⟨b', ms', htarget', hmeets⟩, hchain⟩
      obtain ⟨rfl, rfl⟩ := Prod.mk.inj (Option.some.inj (htarget.symm.trans htarget'))
      exact hd l' hmeets hchain

/-- **Resolution ends.** When no links lead back to one another, some number of nested calls suffices
for any names. -/
theorem exists_resolve (hwf : WellFounded G.Follows) (s : σ) (ns : List ν) :
    ∃ d o, G.resolve d s ns = some o := by
  obtain ⟨d, hd⟩ : ∃ d, ∀ l, G.Meets s ns l → ¬G.ChainFrom d l :=
    exists_bound fun l _ => exists_not_chainFrom hwf l
  refine ⟨d, ?_⟩
  cases h : G.resolve d s ns with
  | none =>
    obtain ⟨l, hmeets, hchain⟩ := resolve_eq_none_iff.mp h
    exact absurd hchain (hd l hmeets)
  | some o => exact ⟨o, rfl⟩

/-- The links on the way of names that lead somewhere are resolved within some bound. -/
theorem Walks.exists_bound (h : G.Walks s ns r) : ∃ d, ∀ l, G.Meets s ns l → ¬G.ChainFrom d l := by
  induction h with
  | nil => exact ⟨0, fun l hl => absurd hl not_meets_nil⟩
  | node hfind _ ih =>
    simp only [meets_cons_node hfind]
    exact ih
  | @link s n m b ms t ns r hfind htarget hwalk _ ihtarget ih =>
    obtain ⟨d, hd⟩ := ihtarget
    obtain ⟨e, he⟩ := ih
    refine ⟨max (d + 1) e, fun l hl hchain => ?_⟩
    rcases (meets_cons_link hfind).mp hl with rfl | ⟨t', hleads, hrest⟩
    · obtain ⟨l', ⟨b', ms', htarget', hmeets⟩, hchain'⟩ := hchain.le (le_max_left (d + 1) e)
      obtain ⟨rfl, rfl⟩ := Prod.mk.inj (Option.some.inj (htarget.symm.trans htarget'))
      exact hd l' hmeets hchain'
    · obtain rfl := hleads.unique ⟨b, ms, htarget, hwalk⟩
      exact he l hrest (hchain.le (le_max_right (d + 1) e))

/-- **Names that lead somewhere** are resolved to it within some bound. -/
theorem Walks.exists_resolve (h : G.Walks s ns r) : ∃ d, G.resolve d s ns = some (some r) := by
  obtain ⟨d, hd⟩ := h.exists_bound
  refine ⟨d, ?_⟩
  cases hres : G.resolve d s ns with
  | none =>
    obtain ⟨l, hmeets, hchain⟩ := resolve_eq_none_iff.mp hres
    exact absurd hchain (hd l hmeets)
  | some o => rw [(resolve_eq_some hres r).mpr h]

/-! ## Edges added -/

section Added

variable {G' : LinkGraph σ ν κ} {C : σ → ν → Prop} {good : ν → Prop} {p : σ}

/-- Two positions with the same edges: names lead from both to edges of `C`. -/
theorem Stops.congr (h : ∀ n, G.find s n = G.find t n) (hC : ∀ n, C s n → C t n)
    (hstop : G.Stops C s ns) : G.Stops C t ns := by
  cases hstop with
  | here hedge => exact .here (hC _ hedge)
  | node hfind hrest => exact .node ((h _).symm.trans hfind) hrest
  | through hfind hleads hrest => exact .through ((h _).symm.trans hfind) hleads hrest
  | link hfind htarget hrest => exact .link ((h _).symm.trans hfind) htarget hrest

/-- The second graph has the position `p` at the edges of `C`, where the first has nothing. For the names
in `good` the two agree elsewhere. -/
structure Adds (G G' : LinkGraph σ ν κ) (good : ν → Prop) (C : σ → ν → Prop) (p : σ) : Prop where
  missing : ∀ {s n}, C s n → G.find s n = .missing
  found : ∀ {s n}, good n → C s n → G'.find s n = .node p
  other : ∀ {s n}, good n → ¬C s n → G'.find s n = G.find s n
  target : ∀ {s n l}, G.find s n = .link l → G'.target l = G.target l
  good_target : ∀ {s n l b ms}, G.find s n = .link l → G.target l = some (b, ms) → ∀ m ∈ ms, good m

/-- Names that lead to an edge that is missing lead to one with a name in `good`. -/
theorem Adds.exists_edge (h : Adds G G' good C p) (hstop : G.Stops C s ns) (hns : ∀ n ∈ ns, good n) :
    ∃ s n, C s n ∧ good n := by
  induction hstop with
  | here hedge => exact ⟨_, _, hedge, hns _ List.mem_cons_self⟩
  | node _ _ ih => exact ih (List.forall_mem_cons.mp hns).2
  | through _ _ _ ih => exact ih (List.forall_mem_cons.mp hns).2
  | link hfind htarget _ ih => exact ih (h.good_target hfind htarget)

/-- What is found in the first graph is found in the second. -/
theorem Adds.find_eq (h : Adds G G' good C p) (hn : good n) (hfind : G.find s n ≠ .missing) :
    G'.find s n = G.find s n :=
  h.other hn fun hedge => hfind (h.missing hedge)

/-- Names lead where they led. -/
theorem Adds.walks (h : Adds G G' good C p) (hwalk : G.Walks s ns r) (hns : ∀ n ∈ ns, good n) :
    G'.Walks s ns r := by
  induction hwalk with
  | nil => exact .nil
  | node hfind _ ih =>
    obtain ⟨hn, hns⟩ := List.forall_mem_cons.mp hns
    exact .node ((h.find_eq hn (by simp [hfind])).trans hfind) (ih hns)
  | link hfind htarget _ _ ihtarget ih =>
    obtain ⟨hn, hns⟩ := List.forall_mem_cons.mp hns
    exact .link ((h.find_eq hn (by simp [hfind])).trans hfind) ((h.target hfind).trans htarget)
      (ihtarget (h.good_target hfind htarget)) (ih hns)

/-- Names that led to an added edge lead to its position. -/
theorem Adds.walks_of_stops (h : Adds G G' good C p) (hstop : G.Stops C s ns)
    (hns : ∀ n ∈ ns, good n) : G'.Walks s ns p := by
  induction hstop with
  | here hedge => exact .node (h.found (hns _ List.mem_cons_self) hedge) .nil
  | node hfind _ ih =>
    obtain ⟨hn, hns⟩ := List.forall_mem_cons.mp hns
    exact .node ((h.find_eq hn (by simp [hfind])).trans hfind) (ih hns)
  | through hfind hleads _ ih =>
    obtain ⟨hn, hns⟩ := List.forall_mem_cons.mp hns
    obtain ⟨b, ms, htarget, hwalk⟩ := hleads
    exact .link ((h.find_eq hn (by simp [hfind])).trans hfind) ((h.target hfind).trans htarget)
      (h.walks hwalk (h.good_target hfind htarget)) (ih hns)
  | link hfind htarget _ ih =>
    obtain ⟨hn, -⟩ := List.forall_mem_cons.mp hns
    exact .link ((h.find_eq hn (by simp [hfind])).trans hfind) ((h.target hfind).trans htarget)
      (ih (h.good_target hfind htarget)) .nil

/-- Names that lead to an edge that is missing lead nowhere. -/
theorem Adds.not_walks (h : Adds G G' good C p) (hstop : G.Stops C s ns) (r : σ) :
    ¬G.Walks s ns r := by
  induction hstop generalizing r with
  | here hedge => exact not_walks_cons (h.missing hedge)
  | node hfind _ ih =>
    rw [walks_cons_node hfind]
    exact ih r
  | through hfind hleads _ ih =>
    rw [walks_cons_link hfind]
    rintro ⟨t, hleads', hwalk⟩
    exact ih r (hleads'.unique hleads ▸ hwalk)
  | link hfind htarget _ ih =>
    rw [walks_cons_link hfind]
    rintro ⟨t, ⟨b', ms', htarget', hwalk⟩, -⟩
    obtain ⟨rfl, rfl⟩ := Prod.mk.inj (Option.some.inj (htarget.symm.trans htarget'))
    exact ih t hwalk

/-- **Where names lead in the second graph**: where they led, or to an added edge, if nothing led on from
the position that stands there. -/
theorem Adds.walks_or_stops (h : Adds G G' good C p)
    (hleaf : ∀ {s n}, C s n → good n → ∀ ns, ns ≠ [] → (∀ n ∈ ns, good n) →
      ¬G.Stops C p ns ∧ ∀ r, ¬G.Walks p ns r)
    (hwalk : G'.Walks s ns r) (hns : ∀ n ∈ ns, good n) :
    G.Walks s ns r ∨ r = p ∧ G.Stops C s ns := by
  -- from `p` on, only no names at all lead anywhere
  have hend : ∀ {s n ns r}, C s n → good n → (∀ n ∈ ns, good n) → G'.Walks p ns r →
      (G.Walks p ns r ∨ r = p ∧ G.Stops C p ns) → ns = [] ∧ r = p := by
    intro s n ns r hedge hn hns hwalk hor
    by_cases hnil : ns = []
    · subst hnil
      exact ⟨rfl, (walks_nil.mp hwalk).symm⟩
    · obtain ⟨hstop, hnone⟩ := hleaf hedge hn ns hnil hns
      rcases hor with hwalk | ⟨-, hstop'⟩
      · exact absurd hwalk (hnone r)
      · exact absurd hstop' hstop
  induction hwalk with
  | nil => exact .inl .nil
  | @node s n t ns r hfind hrest ih =>
    obtain ⟨hn, hns⟩ := List.forall_mem_cons.mp hns
    by_cases hedge : C s n
    · obtain rfl := Found.node.inj ((h.found hn hedge).symm.trans hfind)
      obtain ⟨rfl, rfl⟩ := hend hedge hn hns hrest (ih hns)
      exact .inr ⟨rfl, .here hedge⟩
    · rw [h.other hn hedge] at hfind
      exact (ih hns).imp (.node hfind) fun hstop => ⟨hstop.1, .node hfind hstop.2⟩
  | @link s n l b ms t ns r hfind htarget _ hrest ihtarget ih =>
    obtain ⟨hn, hns⟩ := List.forall_mem_cons.mp hns
    have hedge : ¬C s n := fun hedge => by simp [h.found hn hedge] at hfind
    rw [h.other hn hedge] at hfind
    rw [h.target hfind] at htarget
    have hms := h.good_target hfind htarget
    rcases ihtarget hms with hwalk | ⟨rfl, hstop⟩
    · exact (ih hns).imp (.link hfind htarget hwalk) fun hstop =>
        ⟨hstop.1, .through hfind ⟨b, ms, htarget, hwalk⟩ hstop.2⟩
    · obtain ⟨_, _, hedge, hgood⟩ := h.exists_edge hstop hms
      obtain ⟨rfl, rfl⟩ := hend hedge hgood hns hrest (ih hns)
      exact .inr ⟨rfl, .link hfind htarget hstop⟩

end Added

end LinkGraph
