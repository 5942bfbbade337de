import PekerOS.Proc.Aliasing

/-!
# Socket slots that nobody can close

A slot is claimed by `socket_create` and released by `socket_close`, which a task reaches through a
descriptor. A slot that is in use and to which no descriptor of a running task refers stays in use for
good. `sys_socket` claims the slot before it looks for a descriptor, and `task_exit` closes none.

## Main definitions

* `Referenced`: every slot in use has a descriptor of a task that has not exited
* `Releases`: what `sys_socket` and `task_exit` have to do
* `LeaksNoSlot`: no socket is made for a full table, and no task exits with open sockets

## Main results

* `step_referenced_iff`: the calls that keep the slots referenced and release them
* `slots_referenced`: the runs of such calls
* `exit_leaks`: a task that exits with an open socket, and one whose table is full
-/

namespace PekerOS.Fd

open Vfs (DirTree VfsState Handle)
open Net (NetState Keeps freeSocket socketCreate_inUse socketClose_inUse sockStream)

variable {ι : Type} {t₀ : DirTree ι}

/-- A descriptor of a running task refers to the slot. -/
def Refers (s : Files ι) (pid fd k : ℕ) : Prop :=
  s.runs pid = true ∧ ∃ addr, s.entry pid fd = some (.socket addr k)

/-- Every slot in use is that of a descriptor of a running task. -/
def Referenced (s : Files ι) : Prop :=
  ∀ k, (s.net.sockets.get k).inUse = true → ∃ pid fd, Refers s pid fd k

/-- `sys_socket` with a full table returns -1 and leaves the slots as they were, and a task that has
exited has released its sockets. -/
def Releases (d : ℕ) (s : Files ι) (c : Call t₀) : Prop :=
  c.happens s → match c with
    | .socket pid domain type protocol => (s.fds pid).freeFd = none →
        (sysSocket s pid domain type protocol).2 = some (-1#32) ∧
          (step d t₀ s c).net.sockets = s.net.sockets
    | .exit pid => (step d t₀ s c).net.tasks pid = .dead → ∀ fd addr k,
        s.entry pid fd = some (.socket addr k) → ((step d t₀ s c).net.sockets.get k).inUse = false
    | _ => True

/-- A socket is made for a task that has a free descriptor, or there is no slot; and a task that exits has
no open socket. -/
def LeaksNoSlot (s : Files ι) (c : Call t₀) : Prop :=
  c.happens s → match c with
    | .socket pid _ _ _ => (s.fds pid).freeFd = none → freeSocket s.net = none
    | .exit pid => pid ≠ 0 → ∀ fd addr k, s.entry pid fd = some (.socket addr k) →
        (s.net.sockets.get k).inUse = false
    | _ => True

section Step

variable {s s' : Files ι} {d pid fd k : ℕ} {c : Call t₀}

/-- The references to the slots in use that are not new stay. -/
theorem Referenced.of (h : Referenced s)
    (hkept : ∀ k, (s'.net.sockets.get k).inUse = true →
      ((s.net.sockets.get k).inUse = true ∧ ∀ pid fd, Refers s pid fd k → Refers s' pid fd k) ∨
        ∃ pid fd, Refers s' pid fd k) : Referenced s' := by
  intro k huse
  rcases hkept k huse with ⟨hold, hrefers⟩ | hnew
  · obtain ⟨pid, fd, href⟩ := h k hold
    exact ⟨pid, fd, hrefers pid fd href⟩
  · exact hnew

theorem runs_lt (h : s.runs pid = true) : pid < s.count := by
  rw [Files.runs, Bool.and_eq_true, decide_eq_true_eq] at h
  exact h.1

/-- A task runs as long as its state is the same. -/
theorem runs_congr (h : s.runs pid = true) (hlt : pid < s'.count)
    (htask : s'.net.tasks pid = s.net.tasks pid) : s'.runs pid = true := by
  rw [Files.runs, Bool.and_eq_true, decide_eq_true_eq] at h ⊢
  exact ⟨hlt, by rw [htask]; exact h.2⟩

/-- Running tasks keep running if they do not exit. -/
theorem runs_of_keeps (hcount : s'.count = s.count) (hnet : Keeps s.net s'.net)
    (h : s.runs pid = true) : s'.runs pid = true := by
  rw [Files.runs, Bool.and_eq_true, decide_eq_true_eq, decide_eq_true_eq] at h ⊢
  exact ⟨hcount ▸ h.1, hnet.alive pid h.2⟩

/-- A free descriptor is filled, or none. -/
theorem Referenced.keep (h : Referenced s) (hcount : s'.count = s.count) (hnet : Keeps s.net s'.net)
    (hentry : ∀ pid fd e, s.entry pid fd = some e → s'.entry pid fd = some e) : Referenced s' := by
  refine h.of fun k huse => .inl ⟨(hnet.inUse k).symm.trans huse, ?_⟩
  rintro pid fd ⟨hruns, addr, haddr⟩
  exact ⟨runs_of_keeps hcount hnet hruns, addr, hentry pid fd _ haddr⟩

theorem Referenced.same (h : Referenced s) (hs : Same s s') : Referenced s' :=
  h.keep hs.count hs.net fun pid fd _ he => (hs.entry pid fd).trans he

/-- A table in which a free entry is filled has the others. -/
theorem Sets.entry_of_some {a : Option (Entry ι)} (hsets : Sets s s' pid fd a)
    (hfree : s.entry pid fd = none) {pid' fd' : ℕ} {e : Entry ι} (he : s.entry pid' fd' = some e) :
    s'.entry pid' fd' = some e := by
  refine (hsets.2 pid' fd' ?_).trans he
  rintro ⟨rfl, rfl⟩
  rw [hfree] at he
  cases he

theorem referenced_store {addr : ℕ} (h : Referenced s) :
    Referenced (storeSocket s pid addr k).1 := by
  rcases storeSocket_spec s pid addr k with ⟨-, heq⟩ | ⟨i, off, hfree, heq⟩
  · rw [heq]
    exact h
  · obtain ⟨hi, hnone⟩ := freeFd_some hfree
    rw [heq]
    exact h.keep rfl (.refl _) fun _ _ _ => (sets_setFds hi).entry_of_some hnone

theorem referenced_open (himpl : t₀.root.impl = none) {now created : DirTree ι} (hnow : Later t₀ now)
    (hcreated : Later t₀ created) {path : CString} {flags : Word} (h : Referenced s) :
    Referenced (sysOpen d t₀ s pid now created path flags).1 := by
  obtain ⟨st, -, net, hkeeps, hopen⟩ := sysOpen_spec hnow hcreated himpl path flags
  rcases hopen with heq | ⟨node, -, -, -, heq⟩
  · rw [heq]
    exact h.keep rfl hkeeps fun _ _ _ he => he
  · rw [heq]
    rcases openNode_spec t₀ { s with vfs := st, net := net } pid node with
      ⟨-, hclose⟩ | ⟨i, off, hfree, hstore⟩
    · rw [hclose]
      exact h.keep rfl hkeeps fun _ _ _ he => he
    · obtain ⟨hi, hnone⟩ := freeFd_some hfree
      rw [hstore]
      exact h.keep rfl hkeeps fun _ _ _ => (sets_setFds hi).entry_of_some hnone

/-- The slot that is claimed is stored in a free descriptor. -/
theorem referenced_socket {domain type protocol : Word} (h : Referenced s) (hruns : s.runs pid = true)
    (hfree : (s.fds pid).freeFd = none → freeSocket s.net = none) :
    Referenced (sysSocket s pid domain type protocol).1 := by
  rw [sysSocket]
  cases hcreate : Net.socketCreate s.net domain type protocol with
  | none => exact h
  | some r =>
    obtain ⟨net, k⟩ := r
    obtain ⟨hslot, htasks, -, hother⟩ := socketCreate_inUse hcreate
    set s₁ : Files ι :=
      { s with
        vfs := s.vfs.kmalloc.1.kmalloc.1
        net := net
        buffers := s.buffers.set k (some s.vfs.next) } with hs₁
    change Referenced (storeSocket s₁ pid (s.vfs.next + 1) k).1
    rcases storeSocket_spec s₁ pid (s.vfs.next + 1) k with ⟨hfull, -⟩ | ⟨i, off, hfd, heq⟩
    · -- the table is full, and by the hypothesis no socket was to be had
      rw [hfree hfull] at hslot
      cases hslot
    · obtain ⟨hi, hnone⟩ := freeFd_some hfd
      have hsets : Sets s (storeSocket s₁ pid (s.vfs.next + 1) k).1 pid i
          (some (.socket (s.vfs.next + 1) k)) := by
        rw [heq]
        exact sets_setFds hi
      have hruns' {pid' : ℕ} (hp : s.runs pid' = true) :
          (storeSocket s₁ pid (s.vfs.next + 1) k).1.runs pid' = true := by
        have hlt : pid' < s.count := runs_lt hp
        rw [heq]
        exact runs_congr hp hlt (congrFun htasks pid')
      -- the new socket is referenced by the new descriptor, the others as before
      refine h.of fun j huse => ?_
      by_cases hj : j = k
      · subst hj
        exact .inr ⟨pid, i, hruns' hruns, _, hsets.1⟩
      · left
        have hnet : (storeSocket s₁ pid (s.vfs.next + 1) k).1.net = net := by
          rw [heq]
          rfl
        rw [hnet, hother j hj] at huse
        refine ⟨huse, ?_⟩
        rintro pid' fd' ⟨hp, addr, haddr⟩
        exact ⟨hruns' hp, addr, hsets.entry_of_some hnone haddr⟩

/-- Closing releases the slot of the descriptor. -/
theorem referenced_close {w : Word} (h : Referenced s) : Referenced (sysClose t₀ s pid w).1 := by
  cases he : s.entry? pid w with
  | none =>
    rw [sysClose, he]
    exact h
  | some e =>
    have hsets : Sets s (sysClose t₀ s pid w).1 pid w.toNat none := sysClose_sets he
    have hentry := entry_of_checked he
    have hcount : (sysClose t₀ s pid w).1.count = s.count := by
      rw [sysClose, he]
      exact (vfsClose_fds s e).2.2
    have hnet : (sysClose t₀ s pid w).1.net = (vfsClose t₀ s e).net := by rw [sysClose, he]; rfl
    have htasks : (vfsClose t₀ s e).net.tasks = s.net.tasks := by
      cases e with
      | file _ => rfl
      | socket _ k => exact (socketClose_inUse s.net k).1
    have hruns {pid' : ℕ} (hp : s.runs pid' = true) : (sysClose t₀ s pid w).1.runs pid' = true :=
      runs_congr hp (hcount ▸ runs_lt hp) (by rw [hnet, htasks])
    refine h.of fun j huse => .inl ?_
    rw [hnet] at huse
    -- the slot is not that of the descriptor
    have hj : (s.net.sockets.get j).inUse = true ∧ ∀ addr, e ≠ .socket addr j := by
      cases e with
      | file _ => exact ⟨huse, by simp⟩
      | socket addr k =>
        obtain ⟨-, hreleased, hother⟩ := socketClose_inUse s.net k
        have hjk : j ≠ k := by
          rintro rfl
          exact absurd (huse.symm.trans hreleased) Bool.false_ne_true.symm
        refine ⟨(congrArg Net.Socket.inUse (hother j hjk)).symm.trans huse, fun addr' heq => ?_⟩
        exact hjk (Entry.socket.inj heq).2.symm
    refine ⟨hj.1, ?_⟩
    rintro pid' fd' ⟨hp, addr, haddr⟩
    refine ⟨hruns hp, addr, (hsets.2 pid' fd' ?_).trans haddr⟩
    rintro ⟨rfl, rfl⟩
    exact hj.2 addr (Option.some.inj (hentry.symm.trans haddr))

theorem runs_of_happens (hhappens : c.happens s) (hpid : c.pid? = some pid) : s.runs pid = true := by
  rw [Call.happens, Bool.and_eq_true, hpid] at hhappens
  exact hhappens.2

/-- The descriptors of a task that exits without an open socket are not needed. -/
theorem referenced_exit (h : Referenced s)
    (hnone : pid ≠ 0 → ∀ fd addr k, s.entry pid fd = some (.socket addr k) →
      (s.net.sockets.get k).inUse = false) : Referenced (taskExit s pid) := by
  rw [taskExit]
  split
  · exact h
  · next hpid =>
    refine h.of fun k huse => .inl ⟨huse, ?_⟩
    rintro pid' fd ⟨hruns, addr, haddr⟩
    have hne : pid' ≠ pid := by
      rintro rfl
      exact absurd (huse.symm.trans (hnone hpid fd addr k haddr)) Bool.false_ne_true.symm
    have hlt : pid' < s.count := runs_lt hruns
    exact ⟨runs_congr hruns hlt (Function.update_of_ne hne _ _), addr, haddr⟩

theorem referenced_createTask (h : Referenced s) : Referenced (createTask s) := by
  refine h.of fun k huse => .inl ⟨huse, ?_⟩
  rintro pid fd ⟨hruns, addr, haddr⟩
  have hlt : pid < s.count := runs_lt hruns
  have hruns' : (createTask s).runs pid = true :=
    runs_congr hruns (hlt.trans (Nat.lt_succ_self _)) (Function.update_of_ne hlt.ne _ _)
  exact ⟨hruns', addr, (setFds_entry_ne hlt.ne).trans haddr⟩

theorem referenced_step (himpl : t₀.root.impl = none) (h : Referenced s) (hc : LeaksNoSlot s c) :
    Referenced (step d t₀ s c) := by
  by_cases hhappens : c.happens s
  · rw [step_of_happens hhappens]
    have hleaks := hc hhappens
    cases c with
    | createTask => exact referenced_createTask h
    | openPath pid now created hnow hcreated path flags => exact referenced_open himpl hnow hcreated h
    | socket pid domain type protocol =>
      exact referenced_socket h (runs_of_happens hhappens rfl) hleaks
    | accept pid w =>
      rw [exec]
      -- an `accept` that does not return leaves the table
      have hsame (hnot : ∀ addr k, s.socket? pid w = some (addr, k) → accepts s.net k = false) :
          Referenced (sysAccept s pid w).1 := h.same (sysAccept_same hnot)
      cases hsocket : s.socket? pid w with
      | none => exact hsame fun addr k hs => absurd (hsocket.symm.trans hs) (by simp)
      | some r =>
        obtain ⟨addr, k⟩ := r
        cases haccepts : accepts s.net k with
        | false =>
          refine hsame fun addr' k' hs => ?_
          obtain ⟨-, rfl⟩ := Prod.mk.inj (Option.some.inj (hsocket.symm.trans hs))
          exact haccepts
        | true =>
          rw [sysAccept_store hsocket haccepts]
          exact referenced_store h
    | close pid w => exact referenced_close h
    | exit pid => exact referenced_exit h hleaks
    | _ => exact h.same (exec_same d trivial)
  · rw [step_of_not_happens hhappens]
    exact h

/-- **One step.** From a state in which the slots are referenced. -/
theorem step_referenced_iff (himpl : t₀.root.impl = none) (h : Referenced s) :
    Referenced (step d t₀ s c) ∧ Releases d s c ↔ LeaksNoSlot s c := by
  constructor
  · rintro ⟨-, hreleases⟩ hhappens
    have hdone := hreleases hhappens
    cases c with
    | socket pid domain type protocol =>
      intro hfull
      by_contra hfree
      obtain ⟨k, hk⟩ := Option.ne_none_iff_exists'.mp hfree
      obtain ⟨-, hsame⟩ := hdone hfull
      have hcreate : ∃ net, Net.socketCreate s.net domain type protocol = some (net, k) := by
        rw [Net.socketCreate, hk]
        exact ⟨_, rfl⟩
      obtain ⟨net, hcreate⟩ := hcreate
      obtain ⟨-, -, huse, -⟩ := socketCreate_inUse hcreate
      -- the slot has been claimed
      have hclaimed : (step d t₀ s (.socket pid domain type protocol)).net.sockets = net.sockets := by
        rw [step_of_happens hhappens, exec, sysSocket, hcreate]
        dsimp only
        rcases storeSocket_spec { s with
          vfs := s.vfs.kmalloc.1.kmalloc.1
          net := net
          buffers := s.buffers.set k (some s.vfs.next) } pid (s.vfs.next + 1) k with
          ⟨-, heq⟩ | ⟨i, off, -, heq⟩
        · exact congrArg (fun r => r.1.net.sockets) heq
        · exact congrArg (fun r => r.net.sockets) heq
      rw [← hclaimed, hsame, (Net.freeSocket_some hk).2] at huse
      cases huse
    | exit pid =>
      intro hpid fd addr k haddr
      have hexit : step d t₀ s (.exit pid) = taskExit s pid := step_of_happens hhappens
      rw [hexit, taskExit, if_neg hpid] at hdone
      exact hdone (Function.update_self _ _ _) fd addr k haddr
    | _ => trivial
  · intro hc
    refine ⟨referenced_step himpl h hc, fun hhappens => ?_⟩
    have hleaks := hc hhappens
    cases c with
    | socket pid domain type protocol =>
      intro hfull
      have hnone : Net.socketCreate s.net domain type protocol = none := by
        rw [Net.socketCreate, hleaks hfull]
        rfl
      rw [step_of_happens hhappens, exec, sysSocket, hnone]
      exact ⟨rfl, rfl⟩
    | exit pid =>
      intro hdead fd addr k haddr
      have hexit : step d t₀ s (.exit pid) = taskExit s pid := step_of_happens hhappens
      by_cases hpid : pid = 0
      · -- the kernel's task does not exit
        have hruns := runs_of_happens hhappens rfl
        rw [hexit, taskExit, if_pos hpid] at hdead
        rw [Files.runs, hdead] at hruns
        simp at hruns
      · rw [hexit, taskExit, if_neg hpid]
        exact hleaks hpid fd addr k haddr
    | _ => trivial

end Step

theorem Boot.referenced {s : Files ι} (h : Boot t₀ s) : Referenced s := fun k huse =>
  absurd (huse.symm.trans (h.unused k)) Bool.false_ne_true.symm

/-- **Socket slots.** From boot, every slot in use is that of a descriptor of a running task, and
`sys_socket` and `task_exit` release what has to be released, exactly as long as no socket is made for a
full table while there are slots, and no task exits with an open socket. -/
theorem slots_referenced (d : ℕ) {s : Files ι} (h : Boot t₀ s) (cs : List (Call t₀)) :
    Along (step d t₀) Referenced s cs ∧ Steps (step d t₀) (Releases d) s cs ↔
      Steps (step d t₀) LeaksNoSlot s cs :=
  along_and_steps_iff (step_referenced_iff h.impl) h.referenced

/-! ## Two leaks -/

/-- A task opens a socket, closes it, and exits. -/
theorem slots_referenced_closed :
    Along (step 8 (Vfs.smallTree [])) Referenced bootFiles
      [.createTask, .socket 1 2#32 sockStream 0#32, .close 1 0#32, .exit 1] ∧
    Steps (step 8 (Vfs.smallTree [])) (Releases 8) bootFiles
      [.createTask, .socket 1 2#32 sockStream 0#32, .close 1 0#32, .exit 1] := by
  refine (slots_referenced 8 boot_bootFiles _).mpr
    ⟨fun _ => trivial, fun _ hfull => ?_, fun _ => trivial, fun _ _ fd addr k haddr => ?_, trivial⟩
  · have hfree : (([.createTask].foldl (step 8 (Vfs.smallTree [])) bootFiles).fds 1).freeFd = some 0 := by
      decide +kernel
    exact absurd (hfree.symm.trans hfull) nofun
  · have hunused : ∀ k < 32, ((([.createTask, .socket 1 2#32 sockStream 0#32, .close 1 0#32].foldl
        (step 8 (Vfs.smallTree [])) bootFiles).net.sockets).get k).inUse = false := by decide +kernel
    by_cases hk : k < 32
    · exact hunused k hk
    · rw [Table.get_of_le _ (Nat.le_of_not_lt hk)]
      rfl

/-- A task exits with an open socket. -/
def exitOpen : List (Call (Vfs.smallTree [])) := [.createTask, .socket 1 2#32 sockStream 0#32, .exit 1]

/-- A task opens seventeen sockets. -/
def seventeen : List (Call (Vfs.smallTree [])) :=
  .createTask :: List.replicate 17 (.socket 1 2#32 sockStream 0#32)

/-- The slot of an entry. -/
def Entry.slot? : Entry ι → Option ℕ
  | .file _ => none
  | .socket _ k => some k

/-- A socket stays in use after its task has exited, and one that found no descriptor has none. -/
theorem exit_leaks : Boot (Vfs.smallTree []) bootFiles ∧
    ¬Along (step 8 (Vfs.smallTree [])) Referenced bootFiles exitOpen ∧
    ¬Along (step 8 (Vfs.smallTree [])) Referenced bootFiles seventeen := by
  refine ⟨boot_bootFiles, fun h => ?_, fun h => ?_⟩
  · obtain ⟨pid, fd, hruns, addr, haddr⟩ := h.final 0 (by decide +kernel)
    have hfree : ∀ fd < 16, ((exitOpen.foldl (step 8 (Vfs.smallTree [])) bootFiles).entry 0 fd).isNone := by
      decide +kernel
    have hdead : (exitOpen.foldl (step 8 (Vfs.smallTree [])) bootFiles).runs 1 = false := by decide +kernel
    have hlt : pid < 2 := runs_lt hruns
    have hpid : pid = 0 := by
      by_contra hne
      obtain rfl : pid = 1 := by omega
      exact absurd (hruns.symm.trans hdead) Bool.false_ne_true.symm
    subst hpid
    have hnone := hfree fd (lt_of_entry haddr)
    rw [haddr] at hnone
    cases hnone
  · obtain ⟨pid, fd, hruns, addr, haddr⟩ := h.final 16 (by decide +kernel)
    have hother : ∀ pid < 2, ∀ fd < 16,
        ((seventeen.foldl (step 8 (Vfs.smallTree [])) bootFiles).entry pid fd).bind Entry.slot? ≠
          some 16 := by
      decide +kernel
    refine hother pid (runs_lt hruns) fd (lt_of_entry haddr) ?_
    rw [haddr]
    rfl

end PekerOS.Fd
