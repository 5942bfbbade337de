import Mathlib

/-!
# Linked and tiled segments

Two facts about a list of nodes that an allocator keeps: the nodes are doubly linked in this order,
and the intervals they stand for tile a range. Both are segments, so a list splits into its parts,
and an edit of one place needs to be checked there only.

## Main definitions

* `Linked next prev p as e`: the nodes `as` are linked in both directions, entered from `p` and left
  to `e`
* `Tiled addr len lo as hi`: the intervals `[addr a, addr a + len a)` of `as` tile `[lo, hi)`

## Main results

* `Linked.append`, `Tiled.append`: a segment is the two parts of any cut
* `Linked.insert`, `Linked.absorb`: one node more or less
* `Tiled.insert`, `Tiled.absorb`: an interval cut in two, and two intervals joined
* `Tiled.pairwise`, `Tiled.bounds`, `Tiled.sum`: where the intervals lie
-/

universe u

variable {α : Type u}

/-! ## Doubly linked segments -/

/-- The nodes `as` are linked in both directions, entered from `p` and left to `e`. -/
def Linked (next prev : α → α) : α → List α → α → Prop
  | _, [], _ => True
  | p, a :: as, e => prev a = p ∧ next a = as.headD e ∧ Linked next prev a as e

namespace Linked

variable {next prev next' prev' : α → α} {p e a b : α} {as l r : List α}

theorem append : Linked next prev p (l ++ r) e ↔
    Linked next prev p l (r.headD e) ∧ Linked next prev (l.getLastD p) r e := by
  induction l generalizing p with
  | nil => simp [Linked]
  | cons a l ih =>
    have hhead : (l ++ r).headD e = l.headD (r.headD e) := by cases l <;> rfl
    simp only [List.cons_append, Linked, ih, hhead, List.getLastD_cons, and_assoc]

theorem congr (h : Linked next prev p as e) (hnext : ∀ x ∈ as, next' x = next x)
    (hprev : ∀ x ∈ as, prev' x = prev x) : Linked next' prev' p as e := by
  induction as generalizing p with
  | nil => trivial
  | cons a as ih =>
    obtain ⟨hp, hn, hrest⟩ := h
    refine ⟨(hprev a List.mem_cons_self).trans hp, (hnext a List.mem_cons_self).trans hn, ?_⟩
    exact ih hrest (fun x hx => hnext x (List.mem_cons_of_mem a hx))
      fun x hx => hprev x (List.mem_cons_of_mem a hx)

/-- A segment entered from another node: only its head is told. -/
theorem enter {q : α} (h : Linked next prev p as e) (hnd : as.Nodup)
    (hnext : ∀ x ∈ as, next' x = next x)
    (hhead : ∀ x ∈ as.head?, prev' x = q)
    (hprev : ∀ x ∈ as, x ∉ as.head? → prev' x = prev x) : Linked next' prev' q as e := by
  cases as with
  | nil => trivial
  | cons a as =>
    obtain ⟨-, hn, hrest⟩ := h
    obtain ⟨hna, -⟩ := List.nodup_cons.mp hnd
    refine ⟨hhead a rfl, (hnext a List.mem_cons_self).trans hn, ?_⟩
    refine hrest.congr (fun x hx => hnext x (List.mem_cons_of_mem a hx)) fun x hx => ?_
    refine hprev x (List.mem_cons_of_mem a hx) fun heq => ?_
    obtain rfl : a = x := Option.some.inj heq
    exact hna hx

/-- A new node `b` behind `a`. -/
theorem insert (h : Linked next prev p (l ++ a :: r) e) (hr : r.Nodup)
    (hnext : ∀ x ∈ l ++ r, next' x = next x) (hprev : ∀ x ∈ l ++ [a], prev' x = prev x)
    (ha : next' a = b) (hb : next' b = next a) (hback : prev' b = a)
    (hhead : ∀ x ∈ r.head?, prev' x = b)
    (htail : ∀ x ∈ r, x ∉ r.head? → prev' x = prev x) :
    Linked next' prev' p (l ++ a :: b :: r) e := by
  obtain ⟨hl, hpa, hna, hrest⟩ := append.mp h
  refine append.mpr ⟨?_, ?_, ha, hback, hb.trans hna, ?_⟩
  · exact hl.congr (fun x hx => hnext x (List.mem_append_left r hx))
      fun x hx => hprev x (List.mem_append_left [a] hx)
  · exact (hprev a (by simp)).trans hpa
  · exact hrest.enter hr (fun x hx => hnext x (List.mem_append_right l hx)) hhead htail

/-- The node `b` behind `a` left out. -/
theorem absorb (h : Linked next prev p (l ++ a :: b :: r) e) (hr : r.Nodup)
    (hnext : ∀ x ∈ l ++ r, next' x = next x) (hprev : ∀ x ∈ l ++ [a], prev' x = prev x)
    (ha : next' a = next b) (hhead : ∀ x ∈ r.head?, prev' x = a)
    (htail : ∀ x ∈ r, x ∉ r.head? → prev' x = prev x) :
    Linked next' prev' p (l ++ a :: r) e := by
  obtain ⟨hl, hpa, hna, hpb, hnb, hrest⟩ := append.mp h
  refine append.mpr ⟨?_, ?_, ha.trans hnb, ?_⟩
  · exact hl.congr (fun x hx => hnext x (List.mem_append_left r hx))
      fun x hx => hprev x (List.mem_append_left [a] hx)
  · exact (hprev a (by simp)).trans hpa
  · exact hrest.enter hr (fun x hx => hnext x (List.mem_append_right l hx)) hhead htail

/-- The links of a node in the middle. -/
theorem mid (h : Linked next prev p (l ++ a :: r) e) :
    prev a = l.getLastD p ∧ next a = r.headD e :=
  ⟨(append.mp h).2.1, (append.mp h).2.2.1⟩

/-- Neighbours point to each other. -/
theorem isChain (h : Linked next prev p as e) :
    as.IsChain fun a b => next a = b ∧ prev b = a := by
  induction as generalizing p with
  | nil => exact List.isChain_nil
  | cons a as ih =>
    obtain ⟨-, hnext, hrest⟩ := h
    refine List.isChain_cons.mpr ⟨fun b hb => ?_, ih hrest⟩
    cases as with
    | nil => exact absurd hb (by simp)
    | cons c as =>
      obtain rfl : c = b := Option.some.inj hb
      exact ⟨hnext, hrest.1⟩

end Linked

/-! ## Tiled segments -/

/-- The intervals `[addr a, addr a + len a)` of `as` tile `[lo, hi)`. -/
def Tiled (addr len : α → ℕ) : ℕ → List α → ℕ → Prop
  | lo, [], hi => lo = hi
  | lo, a :: as, hi => addr a = lo ∧ Tiled addr len (lo + len a) as hi

namespace Tiled

variable {addr len len' : α → ℕ} {lo mid hi : ℕ} {as l r : List α} {a b : α}

theorem append : Tiled addr len lo (l ++ r) hi ↔
    ∃ mid, Tiled addr len lo l mid ∧ Tiled addr len mid r hi := by
  induction l generalizing lo with
  | nil => simp [Tiled]
  | cons a l ih => simp only [List.cons_append, Tiled, ih, ← exists_and_left, and_assoc]

theorem congr (h : Tiled addr len lo as hi) (hlen : ∀ x ∈ as, len' x = len x) :
    Tiled addr len' lo as hi := by
  induction as generalizing lo with
  | nil => exact h
  | cons a as ih =>
    obtain ⟨ha, hrest⟩ := h
    refine ⟨ha, ?_⟩
    rw [hlen a List.mem_cons_self]
    exact ih hrest fun x hx => hlen x (List.mem_cons_of_mem a hx)

theorem sum (h : Tiled addr len lo as hi) : lo + (as.map len).sum = hi := by
  induction as generalizing lo with
  | nil => exact h
  | cons a as ih =>
    rw [List.map_cons, List.sum_cons, ← Nat.add_assoc]
    exact ih h.2

theorem le (h : Tiled addr len lo as hi) : lo ≤ hi := by
  have := h.sum
  omega

theorem bounds (h : Tiled addr len lo as hi) (ha : a ∈ as) :
    lo ≤ addr a ∧ addr a + len a ≤ hi := by
  obtain ⟨l, r, rfl⟩ := List.append_of_mem ha
  obtain ⟨mid, hl, haddr, hr⟩ := append.mp h
  have h₁ := hl.le
  have h₂ := hr.le
  omega

/-- Each interval begins where the one before it ends. -/
theorem isChain (h : Tiled addr len lo as hi) :
    as.IsChain fun a b => addr b = addr a + len a := by
  induction as generalizing lo with
  | nil => exact List.isChain_nil
  | cons a as ih =>
    obtain ⟨ha, hrest⟩ := h
    refine List.isChain_cons.mpr ⟨fun b hb => ?_, ih hrest⟩
    cases as with
    | nil => exact absurd hb (by simp)
    | cons c as =>
      obtain rfl : c = b := Option.some.inj hb
      rw [hrest.1, ha]

/-- Every interval ends before the next ones begin. -/
theorem pairwise (h : Tiled addr len lo as hi) :
    as.Pairwise fun a b => addr a + len a ≤ addr b := by
  induction as generalizing lo with
  | nil => exact List.Pairwise.nil
  | cons a as ih =>
    obtain ⟨ha, hrest⟩ := h
    refine List.Pairwise.cons (fun b hb => ?_) (ih hrest)
    have := (hrest.bounds hb).1
    omega

theorem nodup (h : Tiled addr len lo as hi) (hpos : ∀ a ∈ as, 0 < len a) : as.Nodup := by
  refine h.pairwise.imp_of_mem fun {a b} ha hb hle heq => ?_
  have hp := hpos a ha
  rw [← heq] at hle
  omega

/-- Two different intervals do not meet. -/
theorem disjoint (h : Tiled addr len lo as hi) (ha : a ∈ as) (hb : b ∈ as) (hne : a ≠ b) :
    addr a + len a ≤ addr b ∨ addr b + len b ≤ addr a := by
  obtain ⟨l, r, rfl⟩ := List.append_of_mem ha
  obtain ⟨hl, har, hcross⟩ := List.pairwise_append.mp h.pairwise
  rcases List.mem_append.mp hb with hbl | hbr
  · exact Or.inr (hcross b hbl a List.mem_cons_self)
  · rcases List.mem_cons.mp hbr with rfl | hbr
    · exact absurd rfl hne
    · exact Or.inl (List.rel_of_pairwise_cons har hbr)

/-- Every point of the range lies in one of the intervals. -/
theorem cover (h : Tiled addr len lo as hi) {x : ℕ} (hlo : lo ≤ x) (hhi : x < hi) :
    ∃ l a r, as = l ++ a :: r ∧ addr a ≤ x ∧ x < addr a + len a := by
  induction as generalizing lo with
  | nil =>
    change lo = hi at h
    omega
  | cons a as ih =>
    obtain ⟨ha, hrest⟩ := h
    by_cases hx : x < lo + len a
    · exact ⟨[], a, as, rfl, by omega, by omega⟩
    · obtain ⟨l, b, r, rfl, hb, hb'⟩ := ih hrest (by omega)
      exact ⟨a :: l, b, r, rfl, hb, hb'⟩

/-- The next interval begins where one ends. -/
theorem next_addr (h : Tiled addr len lo (l ++ a :: r) hi) (hlt : addr a + len a < hi) :
    ∃ b r', r = b :: r' ∧ addr b = addr a + len a := by
  obtain ⟨mid, -, ha, hr⟩ := append.mp h
  cases r with
  | nil =>
    change mid + len a = hi at hr
    omega
  | cons b r => exact ⟨b, r, rfl, by rw [hr.1, ha]⟩

/-- One interval cut in two. -/
theorem insert (h : Tiled addr len lo (l ++ a :: r) hi) (hlen : ∀ x ∈ l ++ r, len' x = len x)
    (haddr : addr b = addr a + len' a) (hcut : len' a + len' b = len a) :
    Tiled addr len' lo (l ++ a :: b :: r) hi := by
  obtain ⟨mid, hl, ha, hr⟩ := append.mp h
  refine append.mpr ⟨mid, hl.congr fun x hx => hlen x (List.mem_append_left r hx), ha, ?_, ?_⟩
  · rw [haddr, ha]
  · rw [Nat.add_assoc, hcut]
    exact hr.congr fun x hx => hlen x (List.mem_append_right l hx)

/-- Two neighbouring intervals joined. -/
theorem absorb (h : Tiled addr len lo (l ++ a :: b :: r) hi) (hlen : ∀ x ∈ l ++ r, len' x = len x)
    (hjoin : len' a = len a + len b) : Tiled addr len' lo (l ++ a :: r) hi := by
  obtain ⟨mid, hl, ha, -, hr⟩ := append.mp h
  refine append.mpr ⟨mid, hl.congr fun x hx => hlen x (List.mem_append_left r hx), ha, ?_⟩
  rw [hjoin, ← Nat.add_assoc]
  exact hr.congr fun x hx => hlen x (List.mem_append_right l hx)

theorem dvd {n : ℕ} (h : Tiled addr len lo as hi) (hlo : n ∣ lo) (hlen : ∀ a ∈ as, n ∣ len a)
    (ha : a ∈ as) : n ∣ addr a := by
  induction as generalizing lo with
  | nil => exact absurd ha List.not_mem_nil
  | cons c as ih =>
    obtain ⟨hc, hrest⟩ := h
    rcases List.mem_cons.mp ha with rfl | ha
    · exact hc ▸ hlo
    · exact ih hrest (hlo.add (hlen c List.mem_cons_self))
        (fun x hx => hlen x (List.mem_cons_of_mem c hx)) ha

/-- A tiled range holds no more nodes than fit. -/
theorem mul_length_le {n : ℕ} (h : Tiled addr len lo as hi) (hlen : ∀ a ∈ as, n ≤ len a) :
    lo + n * as.length ≤ hi := by
  induction as generalizing lo with
  | nil => exact Nat.le_of_eq h
  | cons a as ih =>
    have hrest := ih h.2 fun x hx => hlen x (List.mem_cons_of_mem a hx)
    have ha := hlen a List.mem_cons_self
    rw [List.length_cons, Nat.mul_succ]
    omega

end Tiled
