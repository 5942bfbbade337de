import PekerOS.Proc.Scheduling

/-!
# No task starves

While a task that is not dead waits for its turn, other tasks are created, exit, go to sleep and are
woken, so the list through which `schedule_internal` goes changes between two interrupts. Each interrupt
that selects another task brings the search nearer to the one that waits, since a new task is added at
the end of the list: also where that lies between the two, as it then lies there for every interrupt
of the run. So no task gets a second turn before it.

## Main definitions

* `selected`: the tasks that the interrupts of a run select
* `StaysAlive`: a task is not dead anywhere in a run

## Main results

* `no_starvation`: a task runs before any other runs twice
-/

namespace PekerOS.Proc

/-- The tasks that the interrupts of a run select. -/
def selected : Sched → List Event → List ℕ
  | _, [] => []
  | s, e :: es =>
    match step s e with
    | none => []
    | some s' =>
      match e with
      | .interrupt _ => s'.current :: selected s' es
      | _ => selected s' es

/-- The task is not dead before, between and after the events of a run. -/
def StaysAlive (s : Sched) (t : ℕ) (es : List Event) : Prop :=
  Along runStep (fun s => ∀ s₀, s = some s₀ → s₀.alive t = true) (some s) es

section Events

variable {s s' : Sched} {e : Event} {es : List Event} {esp ret : Word} {t N : ℕ}

theorem selected_cons_interrupt (h : step s (.interrupt esp) = some s') :
    selected s (.interrupt esp :: es) = s'.current :: selected s' es := by
  rw [selected, h]

theorem selected_cons_of_ne (h : step s e = some s') (he : ∀ esp, e ≠ .interrupt esp) :
    selected s (e :: es) = selected s' es := by
  cases e with
  | interrupt esp => exact absurd rfl (he esp)
  | createTask name entryPoint isUser stack kstack => rw [selected, h]
  | taskExit => rw [selected, h]
  | goToSleep => rw [selected, h]
  | wake t => rw [selected, h]

theorem StaysAlive.cons (h : StaysAlive s t (e :: es)) (hstep : step s e = some s') :
    s.alive t = true ∧ StaysAlive s' t es := by
  obtain ⟨hfirst, hrest⟩ := h
  rw [show runStep (some s) e = some s' from hstep] at hrest
  exact ⟨hfirst s rfl, hrest⟩

/-- No event removes a task from the list. -/
theorem length_le_of_step (hs : Wf s) (h : step s e = some s') : s.tasks.length ≤ s'.tasks.length := by
  cases e with
  | interrupt esp =>
    obtain ⟨s₁, ret, hcall, hswitch⟩ := scheduleInternal_spec hs esp
    rw [step, hcall] at h
    obtain rfl := Option.some.inj h
    exact hswitch.length.ge
  | createTask name entryPoint isUser stack kstack =>
    obtain rfl := Option.some.inj h
    obtain ⟨task, htasks, -⟩ := @createTask_tasks s name entryPoint stack kstack isUser
    rw [htasks, List.length_append]
    exact Nat.le_add_right _ _
  | taskExit =>
    obtain rfl := Option.some.inj h
    unfold taskExit
    split
    · exact le_rfl
    · exact (length_setState _ _ _).ge
  | goToSleep =>
    obtain rfl := Option.some.inj h
    unfold goToSleep
    split
    · exact (length_setState _ _ _).ge
    · exact le_rfl
  | wake i =>
    obtain rfl := Option.some.inj h
    exact (length_setState _ _ _).ge

/-- Only an interrupt changes which task is the current one. -/
theorem current_of_step (h : step s e = some s') (he : ∀ esp, e ≠ .interrupt esp) :
    s'.current = s.current := by
  cases e with
  | interrupt esp => exact absurd rfl (he esp)
  | createTask name entryPoint isUser stack kstack =>
    obtain rfl := Option.some.inj h
    rfl
  | taskExit =>
    obtain rfl := Option.some.inj h
    unfold taskExit
    split <;> rfl
  | goToSleep =>
    obtain rfl := Option.some.inj h
    unfold goToSleep
    split <;> rfl
  | wake i =>
    obtain rfl := Option.some.inj h
    rfl

theorem length_le_of_run (hs : Wf s) (h : run s es = some s') : s.tasks.length ≤ s'.tasks.length := by
  induction es generalizing s with
  | nil =>
    obtain rfl : s = s' := Option.some.inj h
    exact le_rfl
  | cons e es ih =>
    obtain ⟨s₁, hstep, hs₁⟩ := hs.step e
    rw [run, List.foldlM_cons, hstep] at h
    exact (length_le_of_step hs hstep).trans (ih hs₁ h)

/-! ## The way to the waiting task -/

/-- An interrupt that selects another task selects one that is nearer to the task that waits. -/
theorem Switched.distance_lt (hswitch : Switched s s' esp ret) (hs : Wf s) (hlt : t < s.tasks.length)
    (halive : s.alive t = true) (hne : s'.current ≠ t) (hN : s.tasks.length ≤ N) :
    distance N s'.current t < distance N s.current t := by
  obtain ⟨pre, post, hsplit, hdead⟩ := hswitch.split
  refine distance_lt_of_split hsplit hs.current hN ?_
  -- the tasks passed over are dead
  have hmem : t ∈ pre ++ s'.current :: post := hsplit ▸ mem_after.mpr hlt
  rcases List.mem_append.mp hmem with hpre | hpost
  · exact absurd (hdead t hpre) (alive_iff.mp halive)
  · exact (List.mem_cons.mp hpost).resolve_left (Ne.symm hne)

/-- Among as many tasks as there are in the end, each selection is nearer than those before. -/
theorem pairwise_distance (hs : Wf s) (hlt : t < s.tasks.length) (halive : StaysAlive s t es)
    (hrun : run s es = some s') (hnot : t ∉ selected s es) (hN : s'.tasks.length = N) :
    (s.current :: selected s es).Pairwise fun i j => distance N j t < distance N i t := by
  induction es generalizing s with
  | nil => exact List.pairwise_singleton _ _
  | cons e es ih =>
    obtain ⟨s₁, hstep, hs₁⟩ := hs.step e
    obtain ⟨hfirst, hrest⟩ := halive.cons hstep
    have hle := length_le_of_run hs hrun
    have hlt₁ := hlt.trans_le (length_le_of_step hs hstep)
    rw [run, List.foldlM_cons, hstep] at hrun
    by_cases he : ∃ esp, e = .interrupt esp
    · obtain ⟨esp, rfl⟩ := he
      rw [selected_cons_interrupt hstep] at hnot ⊢
      rw [List.mem_cons, not_or] at hnot
      have hih := ih hs₁ hlt₁ hrest hrun hnot.2
      obtain ⟨s₁', ret, hcall, hswitch⟩ := scheduleInternal_spec hs esp
      rw [step, hcall] at hstep
      obtain rfl := Option.some.inj hstep
      have hnearer := hswitch.distance_lt hs hlt hfirst (Ne.symm hnot.1) (hN ▸ hle)
      refine List.pairwise_cons.mpr ⟨fun j hj => ?_, hih⟩
      rcases List.mem_cons.mp hj with rfl | hj
      · exact hnearer
      · exact ((List.pairwise_cons.mp hih).1 j hj).trans hnearer
    · have hcall : ∀ esp, e ≠ .interrupt esp := fun esp heq => he ⟨esp, heq⟩
      rw [selected_cons_of_ne hstep hcall] at hnot ⊢
      rw [← current_of_step hstep hcall]
      exact ih hs₁ hlt₁ hrest hrun hnot

/-- The tasks selected are in the list. -/
theorem lt_of_mem_selected (hs : Wf s) (hrun : run s es = some s') {i : ℕ} (hi : i ∈ selected s es) :
    i < s'.tasks.length := by
  induction es generalizing s with
  | nil => cases hi
  | cons e es ih =>
    obtain ⟨s₁, hstep, hs₁⟩ := hs.step e
    rw [run, List.foldlM_cons, hstep] at hrun
    by_cases he : ∃ esp, e = .interrupt esp
    · obtain ⟨esp, rfl⟩ := he
      rw [selected_cons_interrupt hstep] at hi
      rcases List.mem_cons.mp hi with rfl | hi
      · exact hs₁.current.trans_le (length_le_of_run hs₁ hrun)
      · exact ih hs₁ hrun hi
    · rw [selected_cons_of_ne hstep fun esp heq => he ⟨esp, heq⟩] at hi
      exact ih hs₁ hrun hi

end Events

/-- **No task starves.** After any run, let a task that is not dead wait while interrupts select others,
and tasks are created, exit, go to sleep and are woken. Then no task has run twice in that time, the one
that was current at its beginning included, and there were fewer interrupts than there are tasks. -/
theorem no_starvation (task : Tcb) (stackTop esp0 : Word) (mem : Word → Word) (es es' : List Event)
    {s : Sched} {t : ℕ} (hrun : run (initMultitasking task stackTop esp0 mem) es = some s)
    (hlt : t < s.tasks.length) (halive : StaysAlive s t es') (hnot : t ∉ selected s es') :
    (s.current :: selected s es').Nodup ∧
      ∃ s', run s es' = some s' ∧ (selected s es').length < s'.tasks.length := by
  obtain ⟨s₁, hrun₁, hs⟩ := (wf_init task stackTop esp0 mem).run es
  obtain rfl := Option.some.inj (hrun.symm.trans hrun₁)
  obtain ⟨s', hrun', hs'⟩ := hs.run es'
  have hnodup : (s.current :: selected s es').Nodup := by
    refine (pairwise_distance hs hlt halive hrun' hnot rfl).imp fun {i j} hnearer heq => ?_
    rw [heq] at hnearer
    exact lt_irrefl _ hnearer
  refine ⟨hnodup, s', hrun', ?_⟩
  -- they are different positions in the list
  have hsub : s.current :: selected s es' ⊆ List.range s'.tasks.length := by
    intro i hi
    rw [List.mem_range]
    rcases List.mem_cons.mp hi with rfl | hi
    · exact hs.current.trans_le (length_le_of_run hs hrun')
    · exact lt_of_mem_selected hs hrun' hi
  have hle := (List.subperm_of_subset hnodup hsub).length_le
  rwa [List.length_range] at hle

/-- Two user tasks: the first runs, and creates another, before the second one does. -/
theorem no_starvation_created : ∃ s,
    run (initMultitasking zeroTask 0xC0110000#32 0#32 fun _ => 0#32)
      [.createTask [0x61#8] 0x08048000#32 true 0xC0200000#32 0xC0202000#32,
        .createTask [0x62#8] 0x08048000#32 true 0xC0204000#32 0xC0206000#32] = some s ∧
    (s.current :: selected s [.interrupt 0xC0110000#32,
      .createTask [0x63#8] 0x08048000#32 true 0xC0208000#32 0xC020A000#32]).Nodup := by
  refine ⟨_, rfl, (no_starvation zeroTask 0xC0110000#32 0#32 (fun _ => 0#32)
    [.createTask [0x61#8] 0x08048000#32 true 0xC0200000#32 0xC0202000#32,
      .createTask [0x62#8] 0x08048000#32 true 0xC0204000#32 0xC0206000#32]
    [.interrupt 0xC0110000#32, .createTask [0x63#8] 0x08048000#32 true 0xC0208000#32 0xC020A000#32]
    (t := 2) rfl (Nat.lt_succ_self 2) ?_ ?_).1⟩
  · refine ⟨?_, ?_, ?_⟩ <;>
    · intro s₀ hs₀
      obtain rfl := Option.some.inj hs₀
      rfl
  · decide +kernel

end PekerOS.Proc
