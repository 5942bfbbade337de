import Mathlib

/-!
# Runs of a step function

A run folds a step function over a list of commands. `Along P` says that `P` holds in every state
the run passes through, the first and the last included, and `Steps C` that every command of the run
satisfies `C` in the state it is issued in. When, under an invariant, a step keeps `P` exactly when
`C` holds of it, the two say the same of a whole run. A step may have no result; `Permits C` says of such
steps what `Steps C` does.

## Main definitions

* `Along step P s as`: `P` in every state of the run of `as` from `s`
* `Steps step C s as`: `C` of every step of the run
* `Permits step C s as`: `C` of every step of a run that goes on as long as there are results

## Main results

* `along_iff_take`: `Along` as a statement about all prefixes
* `along_of_steps`, `along_iff_steps`, `along_and_steps_iff`, `along_and_steps_iff_of_invariant`,
  `Steps.imp`, `steps_congr`: from one step to the run
* `Permits.run`: steps that keep an invariant have results
-/

section Run

variable {σ α : Type*} (step : σ → α → σ)

def Along (P : σ → Prop) : σ → List α → Prop
  | s, [] => P s
  | s, a :: as => P s ∧ Along P (step s a) as

def Steps (C : σ → α → Prop) : σ → List α → Prop
  | _, [] => True
  | s, a :: as => C s a ∧ Steps C (step s a) as

variable {step} {P I : σ → Prop} {C : σ → α → Prop} {s : σ} {as : List α}

theorem Along.first (h : Along step P s as) : P s := by
  cases as with
  | nil => exact h
  | cons a as => exact h.1

theorem Along.final (h : Along step P s as) : P (as.foldl step s) := by
  induction as generalizing s with
  | nil => exact h
  | cons a as ih => exact ih h.2

theorem Along.imp {Q : σ → Prop} (h : Along step P s as) (hPQ : ∀ {s}, P s → Q s) :
    Along step Q s as := by
  induction as generalizing s with
  | nil => exact hPQ h
  | cons a as ih => exact ⟨hPQ h.1, ih h.2⟩

theorem along_iff_take : Along step P s as ↔ ∀ n, P ((as.take n).foldl step s) := by
  induction as generalizing s with
  | nil => simp [Along]
  | cons a as ih =>
    rw [Along, ih]
    constructor
    · rintro ⟨hs, has⟩ n
      cases n with
      | zero => exact hs
      | succ n => exact has n
    · intro h
      exact ⟨h 0, fun n => h (n + 1)⟩

theorem steps_of_forall {C : α → Prop} (h : ∀ a ∈ as, C a) : Steps step (fun _ => C) s as := by
  induction as generalizing s with
  | nil => trivial
  | cons a as ih =>
    exact ⟨h a List.mem_cons_self, ih fun b hb => h b (List.mem_cons_of_mem a hb)⟩

/-- A property every step with `C` keeps holds all along a run of such steps. -/
theorem along_of_steps (hI : ∀ {s a}, I s → I (step s a))
    (hP : ∀ {s a}, I s → P s → C s a → P (step s a)) (hi : I s) (hs : P s)
    (h : Steps step C s as) : Along step P s as := by
  induction as generalizing s with
  | nil => exact hs
  | cons a as ih => exact ⟨hs, ih (hI hi) (hP hi hs h.1) h.2⟩

/-- If a step keeps the property exactly when it has `C`, a run keeps it exactly when all its steps
do. -/
theorem along_iff_steps (hI : ∀ {s a}, I s → I (step s a))
    (hP : ∀ {s a}, I s → P s → (P (step s a) ↔ C s a)) (hi : I s) (hs : P s) :
    Along step P s as ↔ Steps step C s as := by
  induction as generalizing s with
  | nil => exact ⟨fun _ => trivial, fun _ => hs⟩
  | cons a as ih =>
    rw [Along, Steps]
    constructor
    · rintro ⟨-, h⟩
      exact ⟨(hP hi hs).mp h.first, (ih (hI hi) h.first).mp h⟩
    · rintro ⟨hc, h⟩
      have hs' := (hP hi hs).mpr hc
      exact ⟨hs, (ih (hI hi) hs').mpr h⟩

/-- If a state with `P` has a step that keeps `P` and has `D` exactly when the step has `C`, all states
of a run have `P` and all steps `D` exactly when all steps have `C`. -/
theorem along_and_steps_iff {D : σ → α → Prop}
    (hP : ∀ {s a}, P s → (P (step s a) ∧ D s a ↔ C s a)) (hs : P s) :
    Along step P s as ∧ Steps step D s as ↔ Steps step C s as := by
  induction as generalizing s with
  | nil => exact ⟨fun _ => trivial, fun _ => ⟨hs, trivial⟩⟩
  | cons a as ih =>
    rw [Along, Steps, Steps]
    constructor
    · rintro ⟨⟨-, halong⟩, hd, hsteps⟩
      exact ⟨(hP hs).mp ⟨halong.first, hd⟩, (ih halong.first).mp ⟨halong, hsteps⟩⟩
    · rintro ⟨hc, hsteps⟩
      obtain ⟨hs', hd⟩ := (hP hs).mpr hc
      obtain ⟨halong, hsteps'⟩ := (ih hs').mpr hsteps
      exact ⟨⟨hs, halong⟩, hd, hsteps'⟩

/-- The same with an invariant that steps with `C` keep: it gives `P` in a state and `D` of a step with
`C`, and a step without `C` does not keep `P` or has not `D`. -/
theorem along_and_steps_iff_of_invariant {D : σ → α → Prop} (hP : ∀ {s}, I s → P s)
    (hI : ∀ {s a}, I s → C s a → I (step s a) ∧ D s a)
    (hbad : ∀ {s a}, I s → ¬C s a → ¬(P (step s a) ∧ D s a)) (hi : I s) :
    Along step P s as ∧ Steps step D s as ↔ Steps step C s as := by
  induction as generalizing s with
  | nil => exact ⟨fun _ => trivial, fun _ => ⟨hP hi, trivial⟩⟩
  | cons a as ih =>
    rw [Along, Steps, Steps]
    constructor
    · rintro ⟨⟨-, halong⟩, hd, hsteps⟩
      have hc : C s a := by
        by_contra hc
        exact hbad hi hc ⟨halong.first, hd⟩
      exact ⟨hc, (ih (hI hi hc).1).mp ⟨halong, hsteps⟩⟩
    · rintro ⟨hc, hsteps⟩
      obtain ⟨hi', hd⟩ := hI hi hc
      obtain ⟨halong, hsteps'⟩ := (ih hi').mpr hsteps
      exact ⟨⟨hP hi, halong⟩, hd, hsteps'⟩

/-- What follows of one step from an invariant and from `C` follows of every step of a run. -/
theorem Steps.imp {D : σ → α → Prop} (hI : ∀ {s a}, I s → C s a → I (step s a))
    (hD : ∀ {s a}, I s → C s a → D s a) (hi : I s) (h : Steps step C s as) : Steps step D s as := by
  induction as generalizing s with
  | nil => trivial
  | cons a as ih => exact ⟨hD hi h.1, ih (hI hi h.1) h.2⟩

theorem Steps.and {D : σ → α → Prop} (h : Steps step C s as) (h' : Steps step D s as) :
    Steps step (fun s a => C s a ∧ D s a) s as := by
  induction as generalizing s with
  | nil => trivial
  | cons a as ih => exact ⟨⟨h.1, h'.1⟩, ih h.2 h'.2⟩

/-- The steps of a run in two parts. -/
theorem steps_append {bs : List α} :
    Steps step C s (as ++ bs) ↔ Steps step C s as ∧ Steps step C (as.foldl step s) bs := by
  induction as generalizing s with
  | nil => exact (true_and _).symm.to_iff
  | cons a as ih => rw [List.cons_append, Steps, ih, Steps, List.foldl_cons, and_assoc]

/-- Conditions that agree on every step agree on every run. -/
theorem steps_congr {D : σ → α → Prop} (hCD : ∀ s a, C s a ↔ D s a) :
    Steps step C s as ↔ Steps step D s as := by
  induction as generalizing s with
  | nil => exact Iff.rfl
  | cons a as ih => exact and_congr (hCD s a) ih

/-- The invariant holds all along a run. -/
theorem invariant_run (hI : ∀ {s a}, I s → I (step s a)) (hi : I s) : I (as.foldl step s) := by
  induction as generalizing s with
  | nil => exact hi
  | cons a as ih => exact ih (hI hi)

/-! ### Steps that may have no result -/

section Partial

variable (pstep : σ → α → Option σ)

def Permits (C : σ → α → Prop) : σ → List α → Prop
  | _, [] => True
  | s, a :: as => C s a ∧ ∀ s', pstep s a = some s' → Permits C s' as

variable {pstep} {s' : σ}

/-- If every step with `C` has a result with the invariant, so has a run of such steps. -/
theorem Permits.run (hI : ∀ {s a}, I s → C s a → ∃ s', pstep s a = some s' ∧ I s') (hi : I s)
    (h : Permits pstep C s as) : ∃ s', as.foldlM pstep s = some s' ∧ I s' := by
  induction as generalizing s with
  | nil => exact ⟨s, rfl, hi⟩
  | cons a as ih =>
    obtain ⟨s₁, hstep, hi₁⟩ := hI hi h.1
    obtain ⟨s', hrun, hi'⟩ := ih hi₁ (h.2 s₁ hstep)
    refine ⟨s', ?_, hi'⟩
    rw [List.foldlM_cons, hstep]
    exact hrun

end Partial

end Run
