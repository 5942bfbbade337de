import Mathlib

/-!
# The recent entries of a sequence

Of a growing sequence the last `n` entries are kept, where an entry that repeats the one before it counts
only once. An entry that comes in is compared with the last one that is kept, and pushes the oldest one
out when there are `n`.

## Main definitions

* `recent n l`: the last `n` entries of `l`, without repetitions of the entry before

## Main results

* `recent_concat`: one more entry
-/

section Last

variable {α : Type*} {n : ℕ}

theorem length_rtake (l : List α) : (l.rtake n).length = min n l.length := by
  rw [List.rtake, List.length_drop]
  omega

/-- Of the list as far as it is kept, the last entries are those of the whole list. -/
theorem rtake_rtake_concat (l : List α) (x : α) :
    (l.rtake (n + 1) ++ [x]).rtake (n + 1) = (l ++ [x]).rtake (n + 1) := by
  rw [List.rtake_concat_succ, List.rtake_concat_succ]
  congr 1
  rw [List.rtake, length_rtake, List.rtake, List.rtake, List.drop_drop]
  congr 1
  omega

theorem getLast?_rtake_succ (l : List α) : (l.rtake (n + 1)).getLast? = l.getLast? := by
  cases l using List.reverseRecOn with
  | nil => rw [List.rtake_nil]
  | append_singleton l x => rw [List.rtake_concat_succ, List.getLast?_concat, List.getLast?_concat]

/-- One entry more than are kept pushes the first one out. -/
theorem rtake_concat (l : List α) (x : α) (hle : l.length ≤ n + 1) :
    (l ++ [x]).rtake (n + 1) = if l.length ≤ n then l ++ [x] else l.tail ++ [x] := by
  rw [List.rtake_concat_succ, List.rtake]
  split
  · next h => rw [Nat.sub_eq_zero_of_le h, List.drop_zero]
  · next h => rw [show l.length - n = 1 by omega, List.drop_one]

end Last

variable {α : Type*} [DecidableEq α] {n : ℕ}

def recent (n : ℕ) (l : List α) : List α := (l.destutter (· ≠ ·)).rtake n

@[simp] theorem recent_nil : recent n ([] : List α) = [] := by
  rw [recent, List.destutter_nil, List.rtake_nil]

theorem recent_length_le (l : List α) : (recent n l).length ≤ n := by
  rw [recent, length_rtake]
  exact min_le_left _ _

theorem destutter'_concat (a : α) (l : List α) (x : α) : (l ++ [x]).destutter' (· ≠ ·) a =
    if (l.destutter' (· ≠ ·) a).getLast? = some x then l.destutter' (· ≠ ·) a
    else l.destutter' (· ≠ ·) a ++ [x] := by
  induction l generalizing a with
  | nil =>
    rw [List.nil_append, List.destutter'_singleton, List.destutter'_nil, List.getLast?_singleton]
    by_cases h : a = x
    · rw [if_neg (not_not.mpr h), if_pos (congrArg some h)]
    · rw [if_pos h, if_neg fun hx => h (Option.some.inj hx)]
      rfl
  | cons b l ih =>
    by_cases h : a ≠ b
    · have hlast : (a :: l.destutter' (· ≠ ·) b).getLast? = (l.destutter' (· ≠ ·) b).getLast? :=
        List.getLast?_cons_of_ne_nil (List.destutter'_ne_nil _ _)
      rw [List.cons_append, List.destutter'_cons_pos _ h, List.destutter'_cons_pos _ h, hlast, ih]
      split <;> rfl
    · rw [List.cons_append, List.destutter'_cons_neg _ h, List.destutter'_cons_neg _ h]
      exact ih a

/-- One more entry is dropped if it repeats the last one. -/
theorem destutter_concat (l : List α) (x : α) : (l ++ [x]).destutter (· ≠ ·) =
    if (l.destutter (· ≠ ·)).getLast? = some x then l.destutter (· ≠ ·)
    else l.destutter (· ≠ ·) ++ [x] := by
  cases l with
  | nil => rfl
  | cons a l => exact destutter'_concat a l x

/-- One more entry is compared with the last that is kept. -/
theorem recent_concat (l : List α) (x : α) : recent (n + 1) (l ++ [x]) =
    if (recent (n + 1) l).getLast? = some x then recent (n + 1) l
    else (recent (n + 1) l ++ [x]).rtake (n + 1) := by
  rw [recent, destutter_concat, recent, getLast?_rtake_succ, rtake_rtake_concat]
  split <;> rfl
