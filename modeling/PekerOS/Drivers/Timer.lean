import PekerOS.Lib.Run
import PekerOS.Lib.Table

/-!
# Sleeping on the timer

`sleep` turns milliseconds into ticks of the timer, remembers the tick count, and halts until the count has
gone up by as many ticks. Interrupts come between any two of its steps, and each timer interrupt counts a
tick. The count may wrap while `sleep` waits, and the difference of two counts is then still no more than
what has gone by. The product of the milliseconds and the frequency may wrap too, and then `sleep` does
not wait long enough.

## Main definitions

* `ticksToWait`: the conversion, in 32 bits
* `Sleep`, `Machine`, `sleepStep`, `timerHandler`: a call of `sleep`, and the counters around it
* `Event`, `step`, `run`: interrupts and steps of `sleep`, in any order

## Main results

* `waited`: `sleep` waits for as many ticks as it has computed
* `sleep_waits_iff`: when these are enough
-/

namespace PekerOS.Drivers.Timer

/-- The conversion of milliseconds in `sleep`. -/
def ticksToWait (ms timerFreq : Word) : Word :=
  let ticksToWait := ms * timerFreq / 1000#32
  if ticksToWait = 0#32 then 1#32 else ticksToWait

/-- Where a call of `sleep` is. -/
inductive Sleep where
  | called (ms : Word)
  /-- Before `start = tick_count`. -/
  | starting (ticksToWait : Word)
  /-- At the test of the loop. -/
  | testing (ticksToWait start : Word)
  /-- In `sti; hlt`. -/
  | halted (ticksToWait start : Word)
  | returned
deriving DecidableEq

/-- The counters of `timer.c`, a call of `sleep`, and the timer interrupts since the call. -/
structure Machine where
  tickCount : Word
  timerFreq : Word
  sleep : Sleep
  ticks : ℕ

/-- The call of `sleep`. -/
def call (ms timerFreq tickCount : Word) : Machine := ⟨tickCount, timerFreq, .called ms, 0⟩

/-- One step of `sleep`. -/
def sleepStep (m : Machine) : Machine :=
  match m.sleep with
  | .called ms =>
    if m.timerFreq = 0#32 then { m with sleep := .returned }
    else { m with sleep := .starting (ticksToWait ms m.timerFreq) }
  | .starting w => { m with sleep := .testing w m.tickCount }
  | .testing w start =>
    -- the difference is unsigned, so a counter that wraps does no harm
    if m.tickCount - start < w then { m with sleep := .halted w start }
    else { m with sleep := .returned }
  | .halted _ _ => m
  | .returned => m

/-- An interrupt ends `hlt`. -/
def Sleep.wake : Sleep → Sleep
  | .halted w start => .testing w start
  | s => s

/-- `timer_handler` -/
def timerHandler (m : Machine) : Machine :=
  { m with tickCount := m.tickCount + 1#32, ticks := m.ticks + 1 }

/-- What happens next: the timer interrupt, another interrupt, or `sleep` goes on. -/
inductive Event where
  | timer
  | interrupt
  | go
deriving DecidableEq

def step (m : Machine) : Event → Machine
  | .timer => { timerHandler m with sleep := m.sleep.wake }
  | .interrupt => { m with sleep := m.sleep.wake }
  | .go => sleepStep m

def run (m : Machine) (es : List Event) : Machine := es.foldl step m

theorem run_append (m : Machine) (es es' : List Event) : run m (es ++ es') = run (run m es) es' :=
  List.foldl_append

/-! ## The running difference -/

/-- The difference of two counts is no more than the ticks between them, though these may have wrapped. -/
theorem toNat_add_ofNat_sub_le (start : Word) (t : ℕ) :
    (start + BitVec.ofNat 32 t - start).toNat ≤ t := by
  rw [add_sub_cancel_left, BitVec.toNat_ofNat]
  exact Nat.mod_le t _

/-- The count has gone up from `start` by some of the `ticks`. -/
def Since (start count : Word) (ticks : ℕ) : Prop := ∃ t ≤ ticks, count = start + BitVec.ofNat 32 t

theorem since_self (count : Word) (ticks : ℕ) : Since count count ticks :=
  ⟨0, Nat.zero_le ticks, (BitVec.add_zero count).symm⟩

theorem Since.tick {start count : Word} {ticks : ℕ} (h : Since start count ticks) :
    Since start (count + 1#32) (ticks + 1) := by
  obtain ⟨t, ht, rfl⟩ := h
  refine ⟨t + 1, Nat.succ_le_succ ht, ?_⟩
  rw [BitVec.ofNat_add, BitVec.add_assoc]

/-- What a call of `sleep` has done so far. -/
def Waits (ms freq : Word) (m : Machine) : Prop :=
  m.timerFreq = freq ∧
    match m.sleep with
    | .called ms' => ms' = ms
    | .starting w => w = ticksToWait ms freq
    | .testing w start => w = ticksToWait ms freq ∧ Since start m.tickCount m.ticks
    | .halted w start => w = ticksToWait ms freq ∧ Since start m.tickCount m.ticks
    | .returned => freq = 0#32 ∨ (ticksToWait ms freq).toNat ≤ m.ticks

section Runs

variable {ms freq : Word} {m : Machine}

theorem Waits.wake (h : Waits ms freq m) : Waits ms freq { m with sleep := m.sleep.wake } := by
  obtain ⟨count, freq', sleep, ticks⟩ := m
  cases sleep with
  | called ms' => exact h
  | starting w => exact h
  | testing w start => exact h
  | halted w start => exact h
  | returned => exact h

theorem Waits.timerHandler (h : Waits ms freq m) : Waits ms freq (timerHandler m) := by
  obtain ⟨count, freq', sleep, ticks⟩ := m
  obtain ⟨hfreq, h⟩ := h
  refine ⟨hfreq, ?_⟩
  cases sleep with
  | called ms' => exact h
  | starting w => exact h
  | testing w start => exact ⟨h.1, h.2.tick⟩
  | halted w start => exact ⟨h.1, h.2.tick⟩
  | returned => exact h.imp_right Nat.le_succ_of_le

theorem Waits.sleepStep (h : Waits ms freq m) : Waits ms freq (sleepStep m) := by
  obtain ⟨count, freq', sleep, ticks⟩ := m
  obtain ⟨rfl, h⟩ := h
  cases sleep with
  | called ms' =>
    obtain rfl : ms' = ms := h
    simp only [Timer.sleepStep]
    split
    · next hzero => exact ⟨rfl, .inl hzero⟩
    · exact ⟨rfl, rfl⟩
  | starting w => exact ⟨rfl, h, since_self count ticks⟩
  | testing w start =>
    simp only [Timer.sleepStep]
    split
    · exact ⟨rfl, h⟩
    · next hdone =>
      -- the difference is what has been waited for, and the ticks are no fewer
      obtain ⟨hw, t, ht, hcount⟩ := h
      change w = ticksToWait ms freq' at hw
      change count = start + BitVec.ofNat 32 t at hcount
      have hle := toNat_add_ofNat_sub_le start t
      rw [BitVec.lt_def, Nat.not_lt, hw, hcount] at hdone
      exact ⟨rfl, .inr (hdone.trans (hle.trans ht))⟩
  | halted w start => exact ⟨rfl, h⟩
  | returned => exact ⟨rfl, h⟩

theorem Waits.step (h : Waits ms freq m) (e : Event) : Waits ms freq (step m e) := by
  cases e with
  | timer => exact h.wake.timerHandler
  | interrupt => exact h.wake
  | go => exact h.sleepStep

/-- **`sleep` waits** for as many ticks as it has computed, whatever the count is at the call. -/
theorem waited {count : Word} {es : List Event} (hfreq : freq ≠ 0#32)
    (h : (run (call ms freq count) es).sleep = .returned) :
    (ticksToWait ms freq).toNat ≤ (run (call ms freq count) es).ticks := by
  have hcall : Waits ms freq (call ms freq count) := ⟨rfl, rfl⟩
  have hrun : Waits ms freq (run (call ms freq count) es) :=
    invariant_run (fun hw => hw.step _) hcall
  have hticks := hrun.2
  rw [h] at hticks
  exact hticks.resolve_left hfreq

/-! ## A call that waits no longer -/

/-- The loop, with nothing but a timer interrupt at each `hlt`. -/
theorem run_loop {w start : Word} {n : ℕ} (hn : n ≤ w.toNat) (ticks : ℕ) :
    run ⟨start, freq, .testing w start, ticks⟩ (List.replicate n [Event.go, .timer]).flatten =
      ⟨start + BitVec.ofNat 32 n, freq, .testing w start, ticks + n⟩ := by
  induction n with
  | zero => simp [run]
  | succ n ih =>
    have hlt := w.isLt
    have htest : BitVec.ofNat 32 n < w := by
      rw [BitVec.lt_def, BitVec.toNat_ofNat, Nat.mod_eq_of_lt (by omega)]
      exact hn
    rw [List.replicate_succ', List.flatten_append, run_append, ih (by omega)]
    simp [run, step, Timer.sleepStep, Timer.timerHandler, Sleep.wake, htest, BitVec.ofNat_add,
      BitVec.add_assoc, Nat.add_assoc]

/-- A call that returns after as many ticks as it has computed. -/
theorem exists_run (ms count : Word) (hfreq : freq ≠ 0#32) :
    ∃ es, (run (call ms freq count) es).sleep = .returned ∧
      (run (call ms freq count) es).ticks = (ticksToWait ms freq).toNat := by
  have hstart : run (call ms freq count) [.go, .go] =
      ⟨count, freq, .testing (ticksToWait ms freq) count, 0⟩ := by
    simp [run, step, call, Timer.sleepStep, hfreq]
  refine ⟨[.go, .go] ++
    (List.replicate (ticksToWait ms freq).toNat [Event.go, .timer]).flatten ++ [.go], ?_⟩
  rw [run_append, run_append, hstart, run_loop le_rfl]
  simp [run, step, Timer.sleepStep]

end Runs

/-! ## The conversion -/

theorem ticksToWait_toNat (ms freq : Word) :
    (ticksToWait ms freq).toNat = max 1 (ms.toNat * freq.toNat % 2 ^ 32 / 1000) := by
  have hdiv : (ms * freq / 1000#32).toNat = ms.toNat * freq.toNat % 2 ^ 32 / 1000 := by
    rw [BitVec.toNat_udiv, BitVec.toNat_mul]
    rfl
  rw [ticksToWait]
  split
  · next hzero =>
    rw [hzero] at hdiv
    rw [← hdiv]
    rfl
  · next hne =>
    have hpos : (ms * freq / 1000#32).toNat ≠ 0 := fun h => hne (BitVec.eq_of_toNat_eq h)
    rw [hdiv] at hpos ⊢
    omega

/-- **`sleep` waits long enough** in every run, whatever the tick count is at the call, if and only if the
product of the milliseconds and the frequency does not wrap. -/
theorem sleep_waits_iff (ms freq count : Word) :
    (∀ es, (run (call ms freq count) es).sleep = .returned →
      ms.toNat * freq.toNat / 1000 ≤ (run (call ms freq count) es).ticks) ↔
      ms.toNat * freq.toNat < 2 ^ 32 := by
  have hwait := ticksToWait_toNat ms freq
  by_cases hfreq : freq = 0#32
  · simp [hfreq]
  · constructor
    · intro h
      obtain ⟨es, hret, hticks⟩ := exists_run ms count hfreq
      have hle := h es hret
      rw [hticks, hwait] at hle
      omega
    · intro hlt es hret
      have hle := waited hfreq hret
      rw [hwait, Nat.mod_eq_of_lt hlt] at hle
      exact (le_max_right 1 _).trans hle

/-- At 100 ticks a second, a call for almost twelve hours returns after one tick. -/
theorem sleep_returns_early :
    let m := run (call 42949673#32 100#32 0#32) [.go, .go, .go, .timer, .go]
    m.sleep = .returned ∧ m.ticks = 1 ∧ 42949673 * 100 / 1000 = 4294967 ∧
      ¬(42949673#32).toNat * (100#32).toNat / 1000 ≤ m.ticks := by
  decide

end PekerOS.Drivers.Timer
