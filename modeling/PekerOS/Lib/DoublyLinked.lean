import Mathlib

/-!
# Doubly linked lists

Nodes with a link to the next and one to the previous node, and a head and a tail; `null` is the link to
nothing. Followed from the head, the links to the next visit a sequence of nodes, and the links to the
previous one visit it backwards from the tail. A node is taken out of the sequence by the two links around
it, and put at its end behind the tail.

## Main definitions

* `Visits next a ws b`: following `next` from `a` visits the nodes `ws` and arrives at `b`
* `DoublyLinked`, `DoublyLinked.unlink`, `DoublyLinked.append`: the links, and the two operations
* `DoublyLinked.Lists d ws`: the nodes in their order

## Main results

* `DoublyLinked.Lists.unlink`, `DoublyLinked.Lists.append`: the order after the operations
-/

variable {α : Type*} {null : α}

/-- Following the links from one node visits the given nodes, and arrives at another. -/
def Visits (null : α) (next : α → α) : α → List α → α → Prop
  | a, [], b => a = b
  | a, w :: ws, b => a = w ∧ w ≠ null ∧ Visits null next (next w) ws b

namespace Visits

variable {next next' : α → α} {a b : α} {ws l r : List α}

theorem append_iff :
    Visits null next a (l ++ r) b ↔ ∃ c, Visits null next a l c ∧ Visits null next c r b := by
  induction l generalizing a with
  | nil => exact ⟨fun h => ⟨a, rfl, h⟩, fun ⟨_, hc, h⟩ => hc ▸ h⟩
  | cons w l ih =>
    constructor
    · rintro ⟨rfl, hne, hrest⟩
      obtain ⟨c, hl, hr⟩ := ih.mp hrest
      exact ⟨c, ⟨rfl, hne, hl⟩, hr⟩
    · rintro ⟨c, ⟨rfl, hne, hl⟩, hr⟩
      exact ⟨rfl, hne, ih.mpr ⟨c, hl, hr⟩⟩

/-- Only the links of the nodes that are visited count. -/
theorem congr (h : Visits null next a ws b) (hnext : ∀ w ∈ ws, next' w = next w) :
    Visits null next' a ws b := by
  induction ws generalizing a with
  | nil => exact h
  | cons w ws ih =>
    obtain ⟨rfl, hne, hrest⟩ := h
    refine ⟨rfl, hne, ?_⟩
    rw [hnext _ List.mem_cons_self]
    exact ih hrest fun v hv => hnext v (List.mem_cons_of_mem _ hv)

theorem ne_null (h : Visits null next a ws b) : ∀ w ∈ ws, w ≠ null := by
  induction ws generalizing a with
  | nil => exact fun _ hw => absurd hw List.not_mem_nil
  | cons w ws ih =>
    obtain ⟨-, hne, hrest⟩ := h
    intro v hv
    rcases List.mem_cons.mp hv with rfl | hv
    · exact hne
    · exact ih hrest v hv

theorem first_mem (h : Visits null next a ws b) (hne : ws ≠ []) : a ∈ ws := by
  cases ws with
  | nil => exact absurd rfl hne
  | cons w ws => exact h.1 ▸ List.mem_cons_self

end Visits

/-- The links of all nodes, the first node and the last. -/
structure DoublyLinked (α : Type*) where
  next : α → α
  prev : α → α
  head : α
  tail : α

namespace DoublyLinked

variable {d : DoublyLinked α} {a : α} {ws l r : List α}

/-- The nodes in their order, each once. -/
structure Lists (null : α) (d : DoublyLinked α) (ws : List α) : Prop where
  nodup : ws.Nodup
  forward : Visits null d.next d.head ws null
  backward : Visits null d.prev d.tail ws.reverse null

theorem Lists.ne_null (h : Lists null d ws) (ha : a ∈ ws) : a ≠ null := h.forward.ne_null a ha

/-- No node is its own neighbour. -/
theorem Lists.next_ne (h : Lists null d ws) (ha : a ∈ ws) : d.next a ≠ a := by
  obtain ⟨l, r, rfl⟩ := List.append_of_mem ha
  obtain ⟨_, -, -, hne, hr⟩ := Visits.append_iff.mp h.forward
  have har : a ∉ r := (List.nodup_cons.mp h.nodup.of_append_right).1
  cases r with
  | nil => exact fun hself => hne (hself ▸ hr)
  | cons b r => exact fun hself => har (hself ▸ hr.1 ▸ List.mem_cons_self)

/-- The same list, backwards. -/
theorem Lists.reverse (h : Lists null d ws) : Lists null ⟨d.prev, d.next, d.tail, d.head⟩ ws.reverse where
  nodup := List.nodup_reverse.mpr h.nodup
  forward := h.backward
  backward := ws.reverse_reverse.symm ▸ h.forward

theorem Lists.prev_ne (h : Lists null d ws) (ha : a ∈ ws) : d.prev a ≠ a :=
  h.reverse.next_ne (List.mem_reverse.mpr ha)

theorem Lists.head_eq_null_iff (h : Lists null d ws) : d.head = null ↔ ws = [] := by
  constructor
  · intro hhead
    by_contra hne
    exact h.forward.ne_null _ (h.forward.first_mem hne) hhead
  · rintro rfl
    exact h.forward

theorem Lists.tail_eq_null_iff (h : Lists null d ws) : d.tail = null ↔ ws = [] :=
  h.reverse.head_eq_null_iff.trans List.reverse_eq_nil_iff

theorem Lists.tail_mem (h : Lists null d ws) (hne : d.tail ≠ null) : d.tail ∈ ws :=
  List.mem_reverse.mp (h.backward.first_mem fun hnil =>
    hne (h.tail_eq_null_iff.mpr (List.reverse_eq_nil_iff.mp hnil)))

/-- Put behind the others, the last node is where it was. -/
theorem Lists.erase_tail [DecidableEq α] (h : Lists null d ws) (hne : d.tail ≠ null) :
    ws.erase d.tail ++ [d.tail] = ws := by
  rcases List.eq_nil_or_concat' ws with rfl | ⟨ws, b, rfl⟩
  · exact absurd h.backward hne
  · obtain ⟨hnodup, -, hback⟩ := h
    rw [List.reverse_append] at hback
    rw [hback.1, List.erase_append_right _ (by grind), List.erase_cons_head, List.append_nil]

theorem lists_nil (next prev : α → α) : Lists null ⟨next, prev, null, null⟩ [] := ⟨List.nodup_nil, rfl, rfl⟩

variable [DecidableEq α]

/-- The links around a node go past it. -/
def unlink (null : α) (d : DoublyLinked α) (a : α) : DoublyLinked α where
  next := if d.prev a ≠ null then Function.update d.next (d.prev a) (d.next a) else d.next
  prev := if d.next a ≠ null then Function.update d.prev (d.next a) (d.prev a) else d.prev
  head := if a = d.head then d.next a else d.head
  tail := if a = d.tail then d.prev a else d.tail

/-- A node behind the tail. -/
def append (null : α) (d : DoublyLinked α) (a : α) : DoublyLinked α where
  next := Function.update (if d.tail ≠ null then Function.update d.next d.tail a else d.next) a null
  prev := Function.update d.prev a d.tail
  head := if d.head = null then a else d.head
  tail := a

/-- One direction of `unlink`: the links that are followed skip the node, if those in the other direction
lead back from it. -/
theorem visits_unlink {next prev : α → α} {head tail : α} (hnodup : (l ++ a :: r).Nodup)
    (hnext : Visits null next head (l ++ a :: r) null)
    (hprev : Visits null prev tail (l ++ a :: r).reverse null) :
    Visits null (if prev a ≠ null then Function.update next (prev a) (next a) else next)
      (if a = head then next a else head) (l ++ r) null := by
  rw [List.reverse_append, List.reverse_cons, List.append_assoc] at hprev
  obtain ⟨_, -, rfl, -, hback⟩ := Visits.append_iff.mp hprev
  obtain ⟨c, hl, rfl, -, hr⟩ := Visits.append_iff.mp hnext
  rcases List.eq_nil_or_concat' l with rfl | ⟨l, b, rfl⟩
  · -- the node is the first
    obtain rfl := hl
    have hfirst : prev head = null := hback
    rw [if_neg (not_not.mpr hfirst), if_pos rfl]
    exact hr
  · -- its predecessor is `b`
    rw [List.reverse_append] at hback
    obtain ⟨hprev_eq, hb, -⟩ := hback
    obtain ⟨hdisjoint, hbl, hbr⟩ : c ∉ l ++ [b] ∧ b ∉ l ∧ b ∉ r := by grind
    have hhead : c ≠ head := fun hc => hdisjoint (hc ▸ hl.first_mem (by simp))
    obtain ⟨_, hinit, rfl, -, -⟩ := Visits.append_iff.mp hl
    rw [hprev_eq, if_pos hb, if_neg hhead]
    refine Visits.append_iff.mpr ⟨next c, Visits.append_iff.mpr ⟨_, ?_, rfl, hb, ?_⟩, ?_⟩
    · exact hinit.congr fun w hw => Function.update_of_ne (ne_of_mem_of_not_mem hw hbl) _ _
    · exact Function.update_self ..
    · exact hr.congr fun w hw => Function.update_of_ne (ne_of_mem_of_not_mem hw hbr) _ _

theorem Lists.unlink (h : Lists null d ws) (ha : a ∈ ws) : Lists null (d.unlink null a) (ws.erase a) := by
  obtain ⟨l, r, rfl⟩ := List.append_of_mem ha
  have hal : a ∉ l := fun hl => (List.nodup_append.mp h.nodup).2.2 a hl a List.mem_cons_self rfl
  rw [List.erase_append_right _ hal, List.erase_cons_head]
  refine ⟨(List.nodup_middle.mp h.nodup).of_cons, visits_unlink h.nodup h.forward h.backward, ?_⟩
  obtain ⟨hnodup, hback, hforward⟩ := h.reverse
  rw [List.reverse_append, List.reverse_cons, List.append_assoc, List.singleton_append] at *
  exact visits_unlink hnodup hback hforward

theorem Lists.append (h : Lists null d ws) (ha : a ∉ ws) (hnull : a ≠ null) :
    Lists null (d.append null a) (ws ++ [a]) where
  nodup := List.nodup_append.mpr
    ⟨h.nodup, List.nodup_singleton a, fun w hw v hv hwv => ha (List.mem_singleton.mp hv ▸ hwv ▸ hw)⟩
  forward := by
    refine Visits.append_iff.mpr ⟨a, ?_, rfl, hnull, Function.update_self ..⟩
    have hother {next : α → α} : ∀ w ∈ ws, Function.update next a null w = next w := fun w hw =>
      Function.update_of_ne (ne_of_mem_of_not_mem hw ha) _ _
    refine Visits.congr ?_ hother
    change Visits null (if d.tail ≠ null then Function.update d.next d.tail a else d.next)
      (if d.head = null then a else d.head) ws a
    obtain ⟨hnodup, hforward, hback⟩ := h
    rcases List.eq_nil_or_concat' ws with rfl | ⟨ws, b, rfl⟩
    · -- the node is the first
      have hhead : d.head = null := hforward
      exact if_pos hhead
    · -- `b` was the last
      rw [List.reverse_append] at hback
      obtain ⟨htail, hb, -⟩ := hback
      have hhead : d.head ≠ null := hforward.ne_null _ (hforward.first_mem (by simp))
      have hbws : b ∉ ws := by grind
      obtain ⟨_, hinit, rfl, -, -⟩ := Visits.append_iff.mp hforward
      rw [htail, if_pos hb, if_neg hhead]
      refine Visits.append_iff.mpr ⟨_, ?_, rfl, hb, Function.update_self ..⟩
      exact hinit.congr fun w hw => Function.update_of_ne (ne_of_mem_of_not_mem hw hbws) _ _
  backward := by
    rw [List.reverse_append, List.reverse_singleton, List.singleton_append]
    refine ⟨rfl, hnull, ?_⟩
    -- backwards the new node comes first, and the old list as before
    change Visits null (Function.update d.prev a d.tail) (Function.update d.prev a d.tail a) _ _
    rw [Function.update_self]
    exact h.backward.congr fun w hw =>
      Function.update_of_ne (ne_of_mem_of_not_mem (List.mem_reverse.mp hw) ha) _ _

end DoublyLinked
