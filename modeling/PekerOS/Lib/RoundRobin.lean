import Mathlib

/-!
# Round robin

The positions of a list are visited in turn, those that do not take part being skipped, and after the
last one comes the first. The positions that take part, in the order in which they are visited after
the position `c`, are a list of which each visit takes the head and puts it at the end.

## Main definitions

* `after n c`: the positions of a list of length `n` in the order they are visited after `c`
* `distance n c t`: how many positions further `t` is

## Main results

* `after_of_split`: the order after a later position
* `filter_after`: what one visit does to the positions that take part
* `distance_lt_of_split`: the way to a position gets shorter, also in a list that becomes longer
-/

/-- The positions below `n` after `c`, in cyclic order; `c` is the last. -/
def after (n c : ℕ) : List ℕ := (List.range n).rotate (c + 1)

/-- The number of steps from the position `c` to the position `t` among `n`, at least one. -/
def distance (n c t : ℕ) : ℕ := if c < t then t - c else n - c + t

section After

variable {n c t : ℕ} {p : ℕ → Bool} {pre post rest : List ℕ}

@[simp] theorem mem_after : t ∈ after n c ↔ t < n := by
  rw [after, List.mem_rotate, List.mem_range]

@[simp] theorem length_after (n c : ℕ) : (after n c).length = n := by
  rw [after, List.length_rotate, List.length_range]

theorem after_mod (n k : ℕ) : (List.range n).rotate (k % n) = (List.range n).rotate k := by
  have hmod := List.rotate_mod (List.range n) k
  rwa [List.length_range] at hmod

/-- The order from a position on, and after it. -/
theorem rotate_eq_cons {k : ℕ} (hk : k < n) :
    ∃ l, (List.range n).rotate k = k :: l ∧ after n k = l ++ [k] := by
  have hhead : ((List.range n).rotate k)[0]? = some k := by
    rw [List.getElem?_rotate (by rw [List.length_range]; omega), List.length_range, Nat.zero_add,
      Nat.mod_eq_of_lt hk, List.getElem?_range hk]
  rw [after, ← List.rotate_rotate]
  cases hl : (List.range n).rotate k with
  | nil =>
    rw [hl] at hhead
    cases hhead
  | cons a l =>
    rw [hl] at hhead
    obtain rfl := Option.some.inj hhead
    exact ⟨l, rfl, List.rotate_cons_succ l a 0 |>.trans (List.rotate_zero _)⟩

theorem after_of_split (h : after n c = pre ++ t :: post) : after n t = post ++ (pre ++ [t]) := by
  have hlen : pre.length < n := by
    have hsum := congrArg List.length h
    rw [length_after, List.length_append, List.length_cons] at hsum
    omega
  -- the position `t` is reached from `c` in `pre.length + 1` steps
  have hget : (after n c)[pre.length]? = some t := by
    rw [h, List.getElem?_append_right le_rfl, Nat.sub_self, List.getElem?_cons_zero]
  have ht : (pre.length + (c + 1)) % n = t := by
    rw [after, List.getElem?_rotate (by rwa [List.length_range]), List.length_range,
      List.getElem?_range (Nat.mod_lt _ (by omega))] at hget
    exact Option.some.inj hget
  have hrot : after n t = (after n c).rotate (pre ++ [t]).length := by
    rw [after, after, List.rotate_rotate, ← ht, ← List.rotate_rotate, after_mod, List.rotate_rotate,
      List.length_append, List.length_singleton]
    exact congrArg _ (by omega)
  rw [hrot, h, List.append_cons, List.rotate_append_length_eq]

/-- The next position that takes part, and the order after it. -/
theorem filter_after (h : (after n c).filter p = t :: rest) :
    (after n c).find? p = some t ∧ (after n t).filter p = rest ++ [t] := by
  obtain ⟨pre, post, hsplit, hpre, ht, hpost⟩ := List.filter_eq_cons_iff.mp h
  refine ⟨?_, ?_⟩
  · rw [hsplit, List.find?_append, List.find?_eq_none.mpr hpre, Option.none_or, List.find?_cons_of_pos ht]
  · rw [after_of_split hsplit, List.filter_append, List.filter_append, hpost,
      List.filter_eq_nil_iff.mpr hpre, List.nil_append, List.filter_cons_of_pos ht, List.filter_nil]

theorem distance_pos {a : ℕ} (h : a < n) : 0 < distance n a t := by
  unfold distance
  split <;> omega

theorem distance_le (ht : t < n) : distance n c t ≤ n := by
  unfold distance
  split <;> omega

/-- What is visited before `t` is nearer to it than `c`, also among `N` positions. -/
theorem distance_lt_of_split {N a : ℕ} (h : after n c = pre ++ a :: post) (hc : c < n) (hN : n ≤ N)
    (ht : t ∈ post) : distance N a t < distance N c t := by
  -- first come those after `c`, in order, then those up to `c`
  have horder : (after n c).Pairwise fun a t => distance N a t < distance N c t := by
    rw [after, List.rotate_eq_drop_append_take (by rw [List.length_range]; omega), List.pairwise_append]
    refine ⟨?_, ?_, fun a ha t ht => ?_⟩
    · refine (List.pairwise_lt_range.drop).imp_of_mem fun {a t} ha ht hlt => ?_
      obtain ⟨i, hi, rfl⟩ := List.mem_iff_getElem.mp ha
      rw [List.getElem_drop, List.getElem_range] at hlt ⊢
      unfold distance
      rw [if_pos hlt, if_pos (by omega)]
      omega
    · refine (List.pairwise_lt_range.take).imp_of_mem fun {a t} ha ht hlt => ?_
      have htc := List.mem_range.mp (List.take_range.symm ▸ ht : t ∈ List.range (min (c + 1) n))
      unfold distance
      rw [if_pos hlt, if_neg (by omega)]
      omega
    · obtain ⟨i, hi, rfl⟩ := List.mem_iff_getElem.mp ha
      have htc := List.mem_range.mp (List.take_range.symm ▸ ht : t ∈ List.range (min (c + 1) n))
      rw [List.length_drop, List.length_range] at hi
      rw [List.getElem_drop, List.getElem_range]
      unfold distance
      rw [if_neg (by omega), if_neg (by omega)]
      omega
  rw [h, List.pairwise_append] at horder
  exact List.rel_of_pairwise_cons horder.2.1 ht

end After
