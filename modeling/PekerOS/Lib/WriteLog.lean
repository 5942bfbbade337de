import Mathlib.Logic.Function.Basic
import Mathlib.Tactic.Common

/-!
# Logs of writes

A store of cells is written one cell at a time, and what a computation does to it is the list of its
writes. A machine that stops in between has made a first part of them; a device that keeps writes back has
made some of them, in an order of its own. What every single write keeps, any such list keeps.

## Main definitions

* `WriteLog.replay`: the store after a list of writes

## Main results

* `WriteLog.replay_keeps`: what every write of a list keeps holds afterwards
* `WriteLog.take_concat_cases`: the first part of a list with one write at its end
-/

namespace WriteLog

variable {α β : Type*} [DecidableEq α]

/-- The store after a list of writes, the first of them first. -/
def replay (m : α → β) (ws : List (α × β)) : α → β :=
  ws.foldl (fun m w => Function.update m w.1 w.2) m

variable {m : α → β} {w : α × β} {ws ws' : List (α × β)}

@[simp] theorem replay_nil : replay m [] = m := rfl

@[simp] theorem replay_cons : replay m (w :: ws) = replay (Function.update m w.1 w.2) ws := rfl

theorem replay_append : replay m (ws ++ ws') = replay (replay m ws) ws' := List.foldl_append

/-- **What every write keeps** holds after all of them. -/
theorem replay_keeps {P : (α → β) → Prop} (hm : P m)
    (hws : ∀ w ∈ ws, ∀ m, P m → P (Function.update m w.1 w.2)) : P (replay m ws) := by
  induction ws generalizing m with
  | nil => exact hm
  | cons w ws ih =>
    refine ih (hws w List.mem_cons_self m hm) fun w' hw' => ?_
    exact hws w' (List.mem_cons_of_mem w hw')

omit [DecidableEq α] in
/-- Of a list with one write at its end either the whole has been made, or a part without the last. -/
theorem take_concat_cases (ws : List (α × β)) (w : α × β) (n : ℕ) : (ws ++ [w]).take n = ws ++ [w] ∨
    (ws ++ [w]).take n = ws.take n := by
  by_cases hn : n ≤ ws.length
  · exact Or.inr (List.take_append_of_le_length hn)
  · refine Or.inl (List.take_of_length_le ?_)
    rw [List.length_append, List.length_singleton]
    omega

end WriteLog
