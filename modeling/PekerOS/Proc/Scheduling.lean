import PekerOS.Lib.Run
import PekerOS.Proc.Task

/-!
# Which task runs next

The kernel task heads the list and never dies, so the search of `schedule_internal` ends within a round
for each task. It stops at the first task after the current one that is not dead, in cyclic order. So
the tasks that are not dead take turns, and sleeping tasks take theirs as well: the search skips dead
tasks only, where its comment speaks of the next ready one.

## Main definitions

* `Wf`: the invariant of the scheduler
* `Switched`: what a call of `schedule_internal` does
* `lastSaved`: the stack pointer last saved for a task in the course of a run
* `SleepersStay`, `RunAfterWake`: tasks that sleep do not run
* `NextAwake`: no sleeping task is the next that is not dead

## Main results

* `round_robin`: tasks take turns
* `sleepers_stay`: when sleeping tasks do not run
-/

namespace PekerOS.Proc

open Net (TaskState)

/-! ## Fields of the tasks -/

section Fields

variable {s : Sched} {t i : ℕ} {state : TaskState}

/-- The id of the task at a position. -/
def Sched.id? (s : Sched) (t : ℕ) : Option Word := s.tasks[t]?.map (·.id)

/-- A field of a list of tasks in which one is changed. -/
theorem map_getElem?_modify {β : Type*} (g : Tcb → β) (f : Tcb → Tcb) (l : List Tcb) (t i : ℕ) :
    (l.modify t f)[i]?.map g = if i = t then l[i]?.map (g ∘ f) else l[i]?.map g := by
  by_cases hi : i = t
  · rw [if_pos hi, hi, List.getElem?_modify_eq, ← Option.map_map]
    rfl
  · rw [if_neg hi, List.getElem?_modify_ne f l (Ne.symm hi)]

theorem state?_setState (s : Sched) (t : ℕ) (state : TaskState) (i : ℕ) :
    (s.setState t state).state? i = if i = t then (s.state? i).map fun _ => state else s.state? i := by
  rw [Sched.state?, Sched.setState, map_getElem?_modify, Sched.state?, Option.map_map]
  rfl

@[simp] theorem id?_setState (s : Sched) (t : ℕ) (state : TaskState) (i : ℕ) :
    (s.setState t state).id? i = s.id? i := by
  rw [Sched.id?, Sched.setState, map_getElem?_modify]
  exact ite_self _

@[simp] theorem esp?_setState (s : Sched) (t : ℕ) (state : TaskState) (i : ℕ) :
    (s.setState t state).esp? i = s.esp? i := by
  rw [Sched.esp?, Sched.setState, map_getElem?_modify]
  exact ite_self _

@[simp] theorem length_setState (s : Sched) (t : ℕ) (state : TaskState) :
    (s.setState t state).tasks.length = s.tasks.length := List.length_modify _ _ _

@[simp] theorem state?_saveEsp (s : Sched) (esp : Word) (i : ℕ) :
    (s.saveEsp esp).state? i = s.state? i := by
  rw [Sched.state?, Sched.saveEsp, map_getElem?_modify]
  exact ite_self _

@[simp] theorem id?_saveEsp (s : Sched) (esp : Word) (i : ℕ) : (s.saveEsp esp).id? i = s.id? i := by
  rw [Sched.id?, Sched.saveEsp, map_getElem?_modify]
  exact ite_self _

theorem esp?_saveEsp (h : s.current < s.tasks.length) (esp : Word) (i : ℕ) :
    (s.saveEsp esp).esp? i = if i = s.current then some esp else s.esp? i := by
  rw [Sched.esp?, Sched.saveEsp, map_getElem?_modify]
  by_cases hi : i = s.current
  · rw [if_pos hi, if_pos hi, hi, List.getElem?_eq_getElem h]
    rfl
  · rw [if_neg hi, if_neg hi, Sched.esp?]

@[simp] theorem length_saveEsp (s : Sched) (esp : Word) :
    (s.saveEsp esp).tasks.length = s.tasks.length := List.length_modify _ _ _

@[simp] theorem alive_saveEsp (s : Sched) (esp : Word) : (s.saveEsp esp).alive = s.alive :=
  funext fun i => by rw [Sched.alive, Sched.alive, state?_saveEsp]

theorem state?_eq_none_iff : s.state? t = none ↔ s.tasks.length ≤ t := by
  rw [Sched.state?, Option.map_eq_none_iff, List.getElem?_eq_none_iff]

theorem alive_iff : s.alive t = true ↔ s.state? t ≠ some .dead := decide_eq_true_iff

end Fields

/-! ## The search -/

/-- The rounds of the search go through the list in cyclic order. -/
theorem search_eq (alive : ℕ → Bool) {n rounds next : ℕ} (hrounds : rounds ≤ n) (hnext : next ≤ n) :
    search alive n rounds next = (((List.range n).rotate next).take rounds).find? alive := by
  induction rounds generalizing next with
  | zero => rfl
  | succ rounds ih =>
    -- after the last task comes the first
    obtain ⟨k, hk, hwrap, hrot⟩ : ∃ k < n, (if next < n then next else 0) = k ∧
        (List.range n).rotate next = (List.range n).rotate k := by
      by_cases hlt : next < n
      · exact ⟨next, hlt, if_pos hlt, rfl⟩
      · obtain rfl : next = n := by omega
        refine ⟨0, by omega, if_neg hlt, ?_⟩
        rw [List.rotate_zero]
        have hlen := List.rotate_length (List.range next)
        rwa [List.length_range] at hlen
    obtain ⟨l, hcons, hnext⟩ := rotate_eq_cons hk
    have hlength : l.length + 1 = n := by
      have hsum := congrArg List.length hcons
      rw [List.length_rotate, List.length_range, List.length_cons] at hsum
      exact hsum.symm
    rw [search, hwrap, hrot, ih (by omega) (by omega), ← after, hnext, hcons, List.take_succ_cons,
      List.take_append_of_le_length (by omega), List.find?_cons]
    cases alive k <;> rfl

/-! ## The invariant -/

/-- The current task is in the list, and the kernel task, whose id is 1, heads it and is not dead. -/
structure Wf (s : Sched) : Prop where
  current : s.current < s.tasks.length
  first : s.id? 0 = some 1#32
  alive : s.alive 0 = true

/-- What `schedule_internal` does, given the stack pointer, and what it returns: it selects the next
task that is not dead. -/
structure Switched (s s' : Sched) (esp ret : Word) : Prop where
  next : (after s.tasks.length s.current).find? s.alive = some s'.current
  length : s'.tasks.length = s.tasks.length
  id : ∀ i, s'.id? i = s.id? i
  state : ∀ i, s'.state? i = if i = s'.current then some .running else s.state? i
  esp : ∀ i, s'.esp? i = if i = s.current then some esp else s.esp? i
  ret : s'.esp? s'.current = some ret

section Switch

variable {s s' : Sched} {esp ret : Word} {t : ℕ}

/-- The search ends, since the kernel task is not dead. -/
theorem Wf.find (h : Wf s) : ∃ t < s.tasks.length, s.alive t = true ∧
    (after s.tasks.length s.current).find? s.alive = some t := by
  cases hfind : (after s.tasks.length s.current).find? s.alive with
  | none =>
    have hlt := h.current
    have hdead := List.find?_eq_none.mp hfind 0 (mem_after.mpr (by omega))
    exact absurd h.alive hdead
  | some t => exact ⟨t, mem_after.mp (List.mem_of_find?_eq_some hfind), List.find?_some hfind, rfl⟩

/-- **The search of `schedule_internal` ends**, and the call does as it should. -/
theorem scheduleInternal_spec (h : Wf s) (esp : Word) :
    ∃ s' ret, scheduleInternal s esp = some (s', ret) ∧ Switched s s' esp ret := by
  obtain ⟨t, hlt, -, hfind⟩ := h.find
  -- the loop finds the first task alive in cyclic order
  have hsearch : search s.alive s.tasks.length s.tasks.length (s.current + 1) = some t := by
    have hall := List.take_of_length_le (length_after s.tasks.length s.current).le
    rw [after] at hall
    rw [search_eq _ le_rfl h.current, hall]
    exact hfind
  obtain ⟨task, htask⟩ : ∃ task, (s.saveEsp esp).tasks[t]? = some task :=
    ⟨_, List.getElem?_eq_getElem ((length_saveEsp s esp).symm ▸ hlt)⟩
  refine ⟨{ (s.saveEsp esp).setState t .running with current := t, esp0 := task.kstackTop }, task.esp, ?_,
    hfind, (length_setState _ _ _).trans (length_saveEsp s esp), fun i => ?_, fun i => ?_, fun i => ?_, ?_⟩
  · rw [scheduleInternal]
    dsimp only
    rw [alive_saveEsp, length_saveEsp, show (s.saveEsp esp).current = s.current from rfl, hsearch]
    simp only [Option.bind_eq_bind, Option.bind_some, htask]
    rfl
  · exact (id?_setState _ t _ i).trans (id?_saveEsp s esp i)
  · refine (state?_setState _ t _ i).trans ?_
    rw [state?_saveEsp]
    by_cases hi : i = t
    · rw [if_pos hi, if_pos hi, hi, Sched.state?, List.getElem?_eq_getElem hlt]
      rfl
    · rw [if_neg hi, if_neg hi]
  · exact (esp?_setState _ t _ i).trans (esp?_saveEsp h.current esp i)
  · exact (esp?_setState _ t _ t).trans (by rw [Sched.esp?, htask]; rfl)

theorem Switched.current_lt (h : Switched s s' esp ret) : s'.current < s.tasks.length :=
  mem_after.mp (List.mem_of_find?_eq_some h.next)

theorem Switched.current_alive (h : Switched s s' esp ret) : s.alive s'.current = true :=
  List.find?_some h.next

/-- A call of `schedule_internal` leaves the tasks that are dead. -/
theorem Switched.alive_eq (h : Switched s s' esp ret) : s'.alive = s.alive := by
  funext i
  rw [Sched.alive, h.state]
  by_cases hi : i = s'.current
  · rw [if_pos hi, hi, h.current_alive]
    rfl
  · rw [if_neg hi, Sched.alive]

theorem Switched.wf (h : Switched s s' esp ret) (hs : Wf s) : Wf s' :=
  ⟨h.length ▸ h.current_lt, (h.id 0).trans hs.first, h.alive_eq ▸ hs.alive⟩

end Switch

/-! ## The frame of a new task -/

section Frame

variable {s : Sched} {name : List Byte} {entryPoint stack kstack : Word} {isUser : Bool} {i : ℕ}

theorem foldl_push_esp (ws : List Word) (m : (Word → Word) × Word) :
    (ws.foldl push m).2 = m.2 - BitVec.ofNat 32 (4 * ws.length) := by
  induction ws using List.reverseRecOn with
  | nil => simp
  | append_singleton ws w ih =>
    rw [List.foldl_append, List.foldl_cons, List.foldl_nil, push, ih, List.length_append,
      List.length_singleton, Nat.mul_add, BitVec.ofNat_add, BitVec.sub_sub]

/-- From the stack pointer up, the words are in the order in which they are popped. -/
theorem foldl_push_mem (ws : List Word) (m : (Word → Word) × Word) (hfits : 4 * ws.length < 2 ^ 32)
    (hi : i < ws.length) :
    some ((ws.foldl push m).1 ((ws.foldl push m).2 + BitVec.ofNat 32 (4 * i))) = ws.reverse[i]? := by
  induction ws using List.reverseRecOn generalizing i with
  | nil => exact absurd hi (Nat.not_lt_zero i)
  | append_singleton ws w ih =>
    rw [List.length_append, List.length_singleton] at hfits hi
    rw [List.foldl_append, List.foldl_cons, List.foldl_nil, List.reverse_append, List.reverse_singleton,
      List.singleton_append, push]
    dsimp only
    cases i with
    | zero => simp
    | succ i =>
      have hup : (ws.foldl push m).2 - 4#32 + BitVec.ofNat 32 (4 * (i + 1)) =
          (ws.foldl push m).2 + BitVec.ofNat 32 (4 * i) := by
        rw [Nat.mul_add, BitVec.ofNat_add]
        bv_omega
      rw [hup, Function.update_of_ne (by bv_omega), List.getElem?_cons_succ]
      exact ih (by omega) (by omega)

theorem length_initialFrame (entryPoint stackTop : Word) (isUser : Bool) :
    (initialFrame entryPoint stackTop isUser).length = if isUser then 16 else 14 := by
  cases isUser <;> rfl

/-- A new task is added at the end, with the stack pointer at its frame. -/
theorem createTask_tasks : ∃ task,
    (createTask s name entryPoint isUser stack kstack).tasks = s.tasks ++ [task] ∧
    task.state = .ready ∧ task.esp = initialEsp stack isUser := by
  refine ⟨_, rfl, rfl, ?_⟩
  dsimp only
  rw [foldl_push_esp, length_initialFrame, initialEsp]
  cases isUser <;> rfl

/-- The stack of a new task is that of an interrupted one: what the return from the interrupt pops is
`initialFrame`. -/
theorem createTask_frame (hi : i < (initialFrame entryPoint (stack + 4096#32) isUser).length) :
    some ((createTask s name entryPoint isUser stack kstack).mem
      (initialEsp stack isUser + BitVec.ofNat 32 (4 * i))) =
      (initialFrame entryPoint (stack + 4096#32) isUser).reverse[i]? := by
  have hlen : (initialFrame entryPoint (stack + 4096#32) isUser).length ≤ 16 := by
    rw [length_initialFrame]
    split <;> decide
  have hesp : initialEsp stack isUser =
      ((initialFrame entryPoint (stack + 4096#32) isUser).foldl push (s.mem, stack + 4096#32)).2 := by
    rw [foldl_push_esp, length_initialFrame, initialEsp]
    cases isUser <;> rfl
  rw [hesp]
  exact foldl_push_mem _ _ (by omega) hi

end Frame

/-! ## Runs -/

section Steps

variable {s s' : Sched} {e : Event} {t : ℕ}

theorem getElem?_createTask {β : Type*} (g : Tcb → β) {tasks : List Tcb} {task : Tcb} (i : ℕ) :
    (tasks ++ [task])[i]?.map g = if i = tasks.length then some (g task) else tasks[i]?.map g := by
  by_cases hi : i = tasks.length
  · rw [if_pos hi, hi, List.getElem?_concat_length]
    rfl
  · rw [if_neg hi]
    by_cases hlt : i < tasks.length
    · rw [List.getElem?_append_left hlt]
    · rw [List.getElem?_eq_none (by rw [List.length_append, List.length_singleton]; omega),
        List.getElem?_eq_none (by omega)]

/-- The invariant does not depend on a state that changes, unless the kernel task dies. -/
theorem Wf.setState {state : TaskState} (h : Wf s) (ht : t = 0 → state ≠ .dead) :
    Wf (s.setState t state) := by
  refine ⟨(length_setState s t state).symm ▸ h.current, (id?_setState s t state 0).trans h.first, ?_⟩
  rw [alive_iff, state?_setState]
  have halive := alive_iff.mp h.alive
  split
  · next h0 =>
    intro hdead
    obtain ⟨_, -, hdead⟩ := Option.map_eq_some_iff.mp hdead
    exact ht h0.symm hdead
  · exact halive

theorem Wf.createTask (h : Wf s) (name : List Byte) (entryPoint : Word) (isUser : Bool)
    (stack kstack : Word) : Wf (createTask s name entryPoint isUser stack kstack) := by
  obtain ⟨task, htasks, hready, -⟩ := @createTask_tasks s name entryPoint stack kstack isUser
  have hlt := h.current
  refine ⟨?_, ?_, ?_⟩
  · rw [htasks, List.length_append]
    exact Nat.lt_of_lt_of_le h.current (Nat.le_add_right _ _)
  · rw [Sched.id?, htasks, getElem?_createTask, if_neg (by omega)]
    exact h.first
  · rw [alive_iff, Sched.state?, htasks, getElem?_createTask, if_neg (by omega)]
    exact alive_iff.mp h.alive

theorem Wf.taskExit (h : Wf s) : Wf (taskExit s) := by
  unfold Proc.taskExit
  split
  · exact h
  · next hid =>
    refine h.setState fun h0 => absurd ?_ hid
    rw [h0]
    exact h.first

/-- An event is carried out, and keeps the invariant. -/
theorem Wf.step (h : Wf s) (e : Event) : ∃ s', step s e = some s' ∧ Wf s' := by
  cases e with
  | interrupt esp =>
    obtain ⟨s', ret, hcall, hswitch⟩ := scheduleInternal_spec h esp
    exact ⟨s', by rw [Proc.step, hcall]; rfl, hswitch.wf h⟩
  | createTask name entryPoint isUser stack kstack => exact ⟨_, rfl, h.createTask ..⟩
  | taskExit => exact ⟨_, rfl, h.taskExit⟩
  | goToSleep =>
    refine ⟨_, rfl, ?_⟩
    unfold goToSleep
    split
    · exact h.setState fun _ => nofun
    · exact h
  | wake t => exact ⟨_, rfl, h.setState fun _ => nofun⟩

theorem Wf.run (h : Wf s) (es : List Event) : ∃ s', run s es = some s' ∧ Wf s' := by
  induction es generalizing s with
  | nil => exact ⟨s, rfl, h⟩
  | cons e es ih =>
    obtain ⟨s₁, hstep, h₁⟩ := h.step e
    obtain ⟨s', hrun, h'⟩ := ih h₁
    exact ⟨s', by rw [Proc.run, List.foldlM_cons, hstep]; exact hrun, h'⟩

theorem wf_init (task : Tcb) (stackTop esp0 : Word) (mem : Word → Word) :
    Wf (initMultitasking task stackTop esp0 mem) := ⟨Nat.one_pos, rfl, rfl⟩

end Steps

/-! ## The stack pointers -/

/-- The events of a run, each with the state before it. -/
def history : Sched → List Event → List (Sched × Event)
  | _, [] => []
  | s, e :: es => (s, e) :: match step s e with
    | some s' => history s' es
    | none => []

/-- The stack pointer that an event saves for a task: of its initial frame, or that of an interrupt
that came while the task was running. -/
def saves (t : ℕ) : Sched × Event → Option Word
  | (s, .createTask _ _ isUser stack _) =>
    if t = s.tasks.length then some (initialEsp stack isUser) else none
  | (s, .interrupt esp) => if t = s.current then some esp else none
  | _ => none

/-- The one saved last. -/
def lastSaved (h : List (Sched × Event)) (t : ℕ) : Option Word := h.reverse.findSome? (saves t)

/-- The tasks other than the current one have the stack pointer that was saved last. -/
def EspSaved (h : List (Sched × Event)) (s : Sched) : Prop :=
  ∀ t < s.tasks.length, t ≠ s.current → lastSaved h t = s.esp? t

section Saved

variable {s s' : Sched} {h : List (Sched × Event)} {e : Event} {es : List Event} {esp ret : Word} {t : ℕ}

theorem history_append (hrun : run s es = some s') (e : Event) :
    history s (es ++ [e]) = history s es ++ [(s', e)] := by
  induction es generalizing s with
  | nil =>
    obtain rfl : s = s' := Option.some.inj hrun
    rw [List.nil_append, history, history, List.nil_append]
    cases step s e <;> rfl
  | cons e' es ih =>
    rw [run, List.foldlM_cons] at hrun
    obtain ⟨s₁, hstep, hrest⟩ := Option.bind_eq_some_iff.mp hrun
    rw [List.cons_append, history, history, hstep]
    dsimp only
    rw [ih hrest, List.cons_append]

theorem lastSaved_append (h : List (Sched × Event)) (x : Sched × Event) (t : ℕ) :
    lastSaved (h ++ [x]) t = (saves t x).or (lastSaved h t) := by
  rw [lastSaved, lastSaved, List.reverse_append, List.reverse_singleton, List.singleton_append,
    List.findSome?_cons]
  cases saves t x <;> rfl

/-- The selected task gets back what was saved for it. -/
theorem Switched.lastSaved (hswitch : Switched s s' esp ret) (hsaved : EspSaved h s) :
    lastSaved (h ++ [(s, .interrupt esp)]) s'.current = some ret ∧
      EspSaved (h ++ [(s, .interrupt esp)]) s' := by
  have hsame (t : ℕ) (hlt : t < s.tasks.length) :
      Proc.lastSaved (h ++ [(s, .interrupt esp)]) t = s'.esp? t := by
    rw [lastSaved_append, saves, hswitch.esp]
    by_cases hcur : t = s.current
    · rw [if_pos hcur, if_pos hcur]
      rfl
    · rw [if_neg hcur, if_neg hcur, Option.none_or]
      exact hsaved t hlt hcur
  exact ⟨(hsame _ hswitch.current_lt).trans hswitch.ret,
    fun t hlt _ => hsame t (hswitch.length ▸ hlt)⟩

/-- A call that saves no stack pointer changes at most the state of a task. -/
theorem EspSaved.setState (hsaved : EspSaved h s) (he : ∀ t, saves t (s, e) = none) (i : ℕ)
    (state : TaskState) : EspSaved (h ++ [(s, e)]) (s.setState i state) := by
  intro t hlt hcur
  rw [lastSaved_append, he, Option.none_or, esp?_setState]
  exact hsaved t (length_setState s i state ▸ hlt) hcur

theorem EspSaved.same (hsaved : EspSaved h s) (he : ∀ t, saves t (s, e) = none) :
    EspSaved (h ++ [(s, e)]) s := by
  intro t hlt hcur
  rw [lastSaved_append, he, Option.none_or]
  exact hsaved t hlt hcur

theorem EspSaved.step (hsaved : EspSaved h s) (hs : Wf s) (hstep : step s e = some s') :
    EspSaved (h ++ [(s, e)]) s' := by
  cases e with
  | interrupt esp =>
    obtain ⟨s₁, ret, hcall, hswitch⟩ := scheduleInternal_spec hs esp
    rw [Proc.step, hcall] at hstep
    obtain rfl := Option.some.inj hstep
    -- the task left has its stack pointer saved
    exact (hswitch.lastSaved hsaved).2
  | createTask name entryPoint isUser stack kstack =>
    obtain rfl := Option.some.inj hstep
    obtain ⟨task, htasks, -, hesp⟩ := @createTask_tasks s name entryPoint stack kstack isUser
    intro t hlt hcur
    rw [htasks, List.length_append, List.length_singleton] at hlt
    rw [lastSaved_append, saves, Sched.esp?, htasks, getElem?_createTask]
    -- a new task starts with the stack pointer of its first frame
    by_cases hnew : t = s.tasks.length
    · rw [if_pos hnew, if_pos hnew, hesp]
      rfl
    · rw [if_neg hnew, if_neg hnew, Option.none_or]
      exact hsaved t (by omega) hcur
  | taskExit =>
    obtain rfl := Option.some.inj hstep
    unfold taskExit
    split
    · exact hsaved.same fun _ => rfl
    · exact hsaved.setState (fun _ => rfl) _ _
  | goToSleep =>
    obtain rfl := Option.some.inj hstep
    unfold goToSleep
    split
    · exact hsaved.setState (fun _ => rfl) _ _
    · exact hsaved.same fun _ => rfl
  | wake i =>
    obtain rfl := Option.some.inj hstep
    exact hsaved.setState (fun _ => rfl) _ _

theorem EspSaved.run {s₀ : Sched} (hsaved : EspSaved [] s₀) (hs₀ : Wf s₀) (hrun : run s₀ es = some s) :
    EspSaved (history s₀ es) s := by
  induction es using List.reverseRecOn generalizing s with
  | nil =>
    obtain rfl : s₀ = s := Option.some.inj hrun
    exact hsaved
  | append_singleton es e ih =>
    rw [Proc.run, List.foldlM_append] at hrun
    obtain ⟨s₁, hrun₁, hlast⟩ := Option.bind_eq_some_iff.mp hrun
    have hstep : Proc.step s₁ e = some s := by simpa using hlast
    obtain ⟨s₁', hrun₁', hwf⟩ := hs₀.run es
    obtain rfl := Option.some.inj (hrun₁.symm.trans hrun₁')
    rw [history_append hrun₁]
    exact (ih hrun₁).step hwf hstep

theorem espSaved_init (task : Tcb) (stackTop esp0 : Word) (mem : Word → Word) :
    EspSaved [] (initMultitasking task stackTop esp0 mem) :=
  fun _ hlt hcur => absurd (Nat.lt_one_iff.mp hlt) hcur

end Saved

/-! ## Taking turns -/

/-- The tasks that are not dead, in list order. -/
def aliveTasks (s : Sched) : List ℕ := (List.range s.tasks.length).filter s.alive

/-- The tasks that consecutive calls of `schedule_internal` select. -/
def selections : Sched → List Word → Option (List ℕ)
  | _, [] => some []
  | s, esp :: esps => do
    let (s, _) ← scheduleInternal s esp
    let ts ← selections s esps
    return s.current :: ts

section Turns

variable {s : Sched} {esps : List Word}

/-- Consecutive selections go through the tasks that are not dead, in cyclic order. -/
theorem selections_eq (h : Wf s)
    (hlen : esps.length ≤ ((after s.tasks.length s.current).filter s.alive).length) :
    selections s esps = some (((after s.tasks.length s.current).filter s.alive).take esps.length) := by
  induction esps generalizing s with
  | nil => rfl
  | cons esp esps ih =>
    obtain ⟨s', ret, hcall, hswitch⟩ := scheduleInternal_spec h esp
    cases hturns : (after s.tasks.length s.current).filter s.alive with
    | nil =>
      rw [hturns] at hlen
      exact absurd hlen (Nat.not_succ_le_zero _)
    | cons t rest =>
      obtain ⟨hfirst, hrest⟩ := filter_after hturns
      obtain rfl := Option.some.inj (hfirst.symm.trans hswitch.next)
      -- the selected task goes to the end
      have hturns' : (after s'.tasks.length s'.current).filter s'.alive = rest ++ [s'.current] := by
        rw [hswitch.length, hswitch.alive_eq, hrest]
      have hle : esps.length ≤ rest.length := by
        rw [hturns] at hlen
        exact Nat.le_of_succ_le_succ hlen
      have hih := ih (hswitch.wf h) (by rw [hturns', List.length_append]; omega)
      rw [hturns', List.take_append_of_le_length hle] at hih
      rw [selections, hcall]
      simp only [Option.bind_eq_bind, Option.bind_some, hih, List.length_cons, List.take_succ_cons]
      rfl

/-- In list order, up to where they begin. -/
theorem isRotated_aliveTasks (s : Sched) :
    (after s.tasks.length s.current).filter s.alive ~r aliveTasks s := by
  rw [after, aliveTasks, List.rotate_eq_drop_append_take_mod, List.filter_append]
  conv_rhs => rw [← List.take_append_drop ((s.current + 1) % (List.range s.tasks.length).length)
    (List.range s.tasks.length), List.filter_append]
  exact List.isRotated_append

end Turns

/-- **Round robin.** After any run each search of `schedule_internal` ends; it selects a task that is
not dead and returns the stack pointer saved last for it; and as many consecutive selections as there
are tasks that are not dead select each of these once, in list order. -/
theorem round_robin (task : Tcb) (stackTop esp0 : Word) (mem : Word → Word) (es : List Event) :
    ∃ s, run (initMultitasking task stackTop esp0 mem) es = some s ∧
      (∀ esp, ∃ s' ret, scheduleInternal s esp = some (s', ret) ∧ s'.current ∈ aliveTasks s ∧
        lastSaved (history (initMultitasking task stackTop esp0 mem) es ++ [(s, .interrupt esp)])
          s'.current = some ret) ∧
      ∀ esps : List Word, esps.length = (aliveTasks s).length →
        ∃ ts, selections s esps = some ts ∧ ts ~r aliveTasks s := by
  obtain ⟨s, hrun, hs⟩ := (wf_init task stackTop esp0 mem).run es
  have hsaved := (espSaved_init task stackTop esp0 mem).run (wf_init task stackTop esp0 mem) hrun
  refine ⟨s, hrun, fun esp => ?_, fun esps hlen => ?_⟩
  · obtain ⟨s', ret, hcall, hswitch⟩ := scheduleInternal_spec hs esp
    have hmem := List.mem_range.mpr hswitch.current_lt
    exact ⟨s', ret, hcall, List.mem_filter.mpr ⟨hmem, hswitch.current_alive⟩,
      (hswitch.lastSaved hsaved).1⟩
  · have hrot := isRotated_aliveTasks s
    have hlen' := hlen.trans hrot.perm.length_eq.symm
    refine ⟨_, selections_eq hs hlen'.le, ?_⟩
    rwa [List.take_of_length_le hlen'.symm.le]

/-! ## Sleeping tasks -/

/-- A search that goes on is the end of a run. -/
def runStep (s : Option Sched) (e : Event) : Option Sched := s.bind fun s => step s e

/-- `schedule_internal` neither selects a sleeping task nor changes its state. -/
def SleepersStay (s : Option Sched) (e : Event) : Prop :=
  ∀ s₀ esp s' ret, s = some s₀ → e = .interrupt esp → scheduleInternal s₀ esp = some (s', ret) →
    s₀.state? s'.current ≠ some .sleep ∧ ∀ t, s₀.state? t = some .sleep → s'.state? t = some .sleep

/-- A task that goes to sleep is not selected later on, unless it is woken in between. -/
def RunAfterWake (s : Sched) (es : List Event) : Prop :=
  ∀ before between esp rest, es = before ++ .goToSleep :: (between ++ .interrupt esp :: rest) →
    ∀ s₁ s₂ s₃ ret, run s before = some s₁ → run s₁ (.goToSleep :: between) = some s₂ →
      scheduleInternal s₂ esp = some (s₃, ret) → s₁.alive s₁.current = true →
        s₃.current = s₁.current → .wake s₁.current ∈ between

/-- No sleeping task is the first one after the current that is not dead. -/
def NextAwake (s : Option Sched) (e : Event) : Prop :=
  ∀ s₀ esp, s = some s₀ → e = .interrupt esp → ∀ pre t post,
    after s₀.tasks.length s₀.current = pre ++ t :: post → (∀ i ∈ pre, s₀.state? i = some .dead) →
      s₀.state? t ≠ some .sleep

section Sleep

variable {s s' : Sched} {e : Event} {es : List Event} {esp ret : Word} {t : ℕ}

/-- The task that is selected, and those that are passed over. -/
theorem Switched.split (h : Switched s s' esp ret) : ∃ pre post,
    after s.tasks.length s.current = pre ++ s'.current :: post ∧ ∀ i ∈ pre, s.state? i = some .dead := by
  obtain ⟨-, pre, post, hsplit, hpre⟩ := List.find?_eq_some_iff_append.mp h.next
  refine ⟨pre, post, hsplit, fun i hi => ?_⟩
  by_contra hne
  have hdead := hpre i hi
  rw [alive_iff.mpr hne] at hdead
  cases hdead

/-- A sleeping task is not selected exactly if it is not next. -/
theorem sleepersStay_iff (hs : Wf s) : SleepersStay (some s) e ↔ NextAwake (some s) e := by
  constructor
  · rintro hstay s₀ esp hs₀ rfl pre t post hsplit hpre hsleep
    obtain rfl := Option.some.inj hs₀
    obtain ⟨s', ret, hcall, hswitch⟩ := scheduleInternal_spec hs esp
    have hnext := (hstay s esp s' ret rfl rfl hcall).1
    -- the search passes over the dead tasks and stops at `t`
    have hfind : (after s.tasks.length s.current).find? s.alive = some t := by
      rw [hsplit, List.find?_append, List.find?_eq_none.mpr fun i hi => ?_, Option.none_or,
        List.find?_cons_of_pos (alive_iff.mpr (by rw [hsleep]; nofun))]
      rw [alive_iff, not_not]
      exact hpre i hi
    obtain rfl := Option.some.inj (hfind.symm.trans hswitch.next)
    exact hnext hsleep
  · rintro hawake s₀ esp s' ret hs₀ rfl hcall
    obtain rfl := Option.some.inj hs₀
    obtain ⟨s₁, ret₁, hcall₁, hswitch⟩ := scheduleInternal_spec hs esp
    obtain ⟨rfl, rfl⟩ := Prod.mk.inj (Option.some.inj (hcall.symm.trans hcall₁))
    obtain ⟨pre, post, hsplit, hpre⟩ := hswitch.split
    have hnext := hawake s esp rfl rfl pre _ post hsplit hpre
    refine ⟨hnext, fun t ht => ?_⟩
    rw [hswitch.state, if_neg]
    · exact ht
    · rintro rfl
      exact hnext ht

/-- A task that sleeps or has exited. -/
def Rests (s : Sched) (t : ℕ) : Prop := s.state? t = some .sleep ∨ s.state? t = some .dead

theorem Rests.setState {state : TaskState} (h : Rests s t)
    (hstate : state = .sleep ∨ state = .dead) (i : ℕ) : Rests (s.setState i state) t := by
  unfold Rests
  rw [state?_setState]
  by_cases hi : t = i
  · obtain ⟨old, hold⟩ : ∃ old, s.state? t = some old := h.elim (fun h => ⟨_, h⟩) fun h => ⟨_, h⟩
    rw [if_pos hi, hold, Option.map_some]
    exact hstate.imp (congrArg some) (congrArg some)
  · rwa [if_neg hi]

/-- Only a waker ends its rest. -/
theorem Rests.step (h : Rests s t) (hs : Wf s) (hawake : NextAwake (some s) e) (hwake : e ≠ .wake t)
    (hstep : step s e = some s') : Rests s' t := by
  cases e with
  | interrupt esp =>
    obtain ⟨s₁, ret, hcall, hswitch⟩ := scheduleInternal_spec hs esp
    rw [Proc.step, hcall] at hstep
    obtain rfl := Option.some.inj hstep
    have hstay := (sleepersStay_iff hs).mpr hawake s esp _ ret rfl rfl hcall
    -- the task switched to is awake, so it is not the one at rest
    have hne : t ≠ s₁.current := by
      rintro rfl
      rcases h with hsleep | hdead
      · exact hstay.1 hsleep
      · exact alive_iff.mp hswitch.current_alive hdead
    unfold Rests
    rwa [hswitch.state, if_neg hne]
  | createTask name entryPoint isUser stack kstack =>
    obtain rfl := Option.some.inj hstep
    obtain ⟨task, htasks, -⟩ := @createTask_tasks s name entryPoint stack kstack isUser
    -- the new task takes a slot behind those there were
    have hne : t ≠ s.tasks.length := by
      intro heq
      have hnone := state?_eq_none_iff.mpr heq.ge
      rcases h with h | h <;>
      · rw [hnone] at h
        cases h
    unfold Rests Sched.state?
    rw [htasks, getElem?_createTask, if_neg hne]
    exact h
  | taskExit =>
    obtain rfl := Option.some.inj hstep
    unfold taskExit
    split
    · exact h
    · exact h.setState (.inr rfl) _
  | goToSleep =>
    obtain rfl := Option.some.inj hstep
    unfold goToSleep
    split
    · exact h.setState (.inl rfl) _
    · exact h
  | wake i =>
    obtain rfl := Option.some.inj hstep
    unfold Rests
    -- another task is woken
    rw [state?_setState, if_neg fun heq => hwake (congrArg Event.wake heq.symm)]
    exact h

theorem Rests.run (h : Rests s t) (hs : Wf s) (hawake : Steps runStep NextAwake (some s) es)
    (hwake : .wake t ∉ es) (hrun : run s es = some s') : Rests s' t := by
  induction es generalizing s with
  | nil =>
    obtain rfl : s = s' := Option.some.inj hrun
    exact h
  | cons e es ih =>
    rw [Proc.run, List.foldlM_cons] at hrun
    obtain ⟨s₁, hstep, hrest⟩ := Option.bind_eq_some_iff.mp hrun
    obtain ⟨s₁', hstep', hs₁⟩ := hs.step e
    obtain rfl := Option.some.inj (hstep.symm.trans hstep')
    rw [List.mem_cons, not_or] at hwake
    have hnext : Steps runStep NextAwake (some s₁) es := by
      have htail := hawake.2
      rwa [runStep, Option.bind_some, hstep] at htail
    exact ih (h.step hs hawake.1 (Ne.symm hwake.1) hstep) hs₁ hnext hwake.2 hrest

theorem foldl_runStep (s : Sched) (es : List Event) : es.foldl runStep (some s) = run s es := by
  induction es using List.reverseRecOn with
  | nil => rfl
  | append_singleton es e ih =>
    rw [List.foldl_append, ih, run, run, List.foldlM_append]
    simp [runStep]

/-- When no sleeping task is ever next, each runs again only after it has been woken. -/
theorem runAfterWake_of_steps (hs : Wf s) (hawake : Steps runStep NextAwake (some s) es) :
    RunAfterWake s es := by
  rintro before between esp rest rfl s₁ s₂ s₃ ret hbefore hbetween hcall halive hcur
  by_contra hwake
  rw [steps_append, foldl_runStep, hbefore] at hawake
  obtain ⟨s₁', hbefore', hs₁⟩ := hs.run before
  obtain rfl := Option.some.inj (hbefore.symm.trans hbefore')
  obtain ⟨-, -, hrest⟩ := hawake
  -- the task sleeps
  have hsleep : step s₁ .goToSleep = some (goToSleep s₁) := rfl
  obtain ⟨s₁'', hsleep', hs₁'⟩ := hs₁.step .goToSleep
  obtain rfl := Option.some.inj (hsleep.symm.trans hsleep')
  have hrests : Rests (goToSleep s₁) s₁.current := by
    rw [goToSleep, if_pos halive]
    left
    rw [state?_setState, if_pos rfl, Sched.state?, List.getElem?_eq_getElem hs₁.current]
    rfl
  rw [show runStep (some s₁) .goToSleep = some (goToSleep s₁) from rfl, steps_append,
    foldl_runStep] at hrest
  obtain ⟨hmiddle, hlast, -⟩ := hrest
  rw [run, List.foldlM_cons, hsleep] at hbetween
  change run (goToSleep s₁) between = some s₂ at hbetween
  obtain ⟨s₂', hbetween', hs₂⟩ := hs₁'.run between
  obtain rfl := Option.some.inj (hbetween.symm.trans hbetween')
  -- it still rests, so it is not selected
  have hrests₂ := hrests.run hs₁' hmiddle hwake hbetween
  rw [hbetween] at hlast
  have hstay := (sleepersStay_iff hs₂).mpr hlast s₂ esp s₃ ret rfl rfl hcall
  obtain ⟨s₃', ret', hcall', hswitch⟩ := scheduleInternal_spec hs₂ esp
  obtain ⟨rfl, rfl⟩ := Prod.mk.inj (Option.some.inj (hcall.symm.trans hcall'))
  rw [← hcur] at hrests₂
  rcases hrests₂ with hasleep | hdead
  · exact hstay.1 hasleep
  · exact alive_iff.mp hswitch.current_alive hdead

end Sleep

/-- **Sleeping tasks** do not run, and run again only after they have been woken, in exactly the runs in
which no sleeping task ever is the next one that is not dead. -/
theorem sleepers_stay (task : Tcb) (stackTop esp0 : Word) (mem : Word → Word) (es : List Event) :
    Steps runStep SleepersStay (some (initMultitasking task stackTop esp0 mem)) es ∧
        RunAfterWake (initMultitasking task stackTop esp0 mem) es ↔
      Steps runStep NextAwake (some (initMultitasking task stackTop esp0 mem)) es := by
  have hinit := wf_init task stackTop esp0 mem
  generalize initMultitasking task stackTop esp0 mem = s at hinit
  have hsteps : Steps runStep SleepersStay (some s) es ↔ Steps runStep NextAwake (some s) es := by
    induction es generalizing s with
    | nil => exact Iff.rfl
    | cons e es ih =>
      obtain ⟨s', hstep, hs'⟩ := hinit.step e
      rw [Steps, Steps, sleepersStay_iff hinit, show runStep (some s) e = some s' from hstep, ih s' hs']
  exact ⟨fun h => hsteps.mp h.1, fun h => ⟨hsteps.mpr h, runAfterWake_of_steps hinit h⟩⟩

/-- The kernel task before `init_multitasking`, on a heap that is zero. -/
def zeroTask : Tcb := ⟨0#32, [], 0#32, 0#32, .ready, newTask, 0#32, 0#32⟩

/-- A user task goes to sleep, as in `socket_connect`, and the kernel task runs. -/
def sleeperRun : List Event :=
  [.createTask [0x61#8] 0x08048000#32 true 0xC0200000#32 0xC0202000#32, .interrupt 0xC0110000#32,
    .goToSleep, .interrupt 0xC0200F00#32]

/-- The next tick selects the user task. -/
theorem sleeper_runs :
    ¬(Steps runStep SleepersStay (some (initMultitasking zeroTask 0xC0110000#32 0#32 fun _ => 0#32))
        (sleeperRun ++ [.interrupt 0xC0110000#32]) ∧
      RunAfterWake (initMultitasking zeroTask 0xC0110000#32 0#32 fun _ => 0#32)
        (sleeperRun ++ [.interrupt 0xC0110000#32])) := by
  rintro ⟨hstay, -⟩
  rw [steps_append, foldl_runStep] at hstay
  have hselected : ((run (initMultitasking zeroTask 0xC0110000#32 0#32 fun _ => 0#32) sleeperRun).bind
      fun s => (scheduleInternal s 0xC0110000#32).map fun r => s.state? r.1.current) =
        some (some .sleep) := by decide +kernel
  obtain ⟨s, hrun, hcall⟩ := Option.bind_eq_some_iff.mp hselected
  obtain ⟨⟨s', ret⟩, hcall, hsleep⟩ := Option.map_eq_some_iff.mp hcall
  exact (hstay.2.1 s _ s' ret hrun rfl hcall).1 hsleep

end PekerOS.Proc
