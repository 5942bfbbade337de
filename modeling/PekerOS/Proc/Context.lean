import PekerOS.Lib.Run
import PekerOS.Proc.Stubs

/-!
# Switching tasks

The processor runs the code of the current task, in ring 3 or in ring 0, and takes interrupts; in ring 0
they nest. Each interrupt leaves the registers on the stack of its task. When the handler returns, the stub
restores those of the current task, but `irq_handler` has called `schedule_internal` if the interrupt was
0x20, and then the stub goes on on the stack of another task.

What a task does between its interrupts is any change of the registers and any stores, as long as they
keep away from the frames on the stacks, and the stack pointer of ring 0 stays in the task's kernel stack
below them: the stacks do not overflow. The blocks that `create_task` gets from `kmalloc` are not in use,
and `task_exit` frees none.

## Main definitions

* `Machine`: the processor, the tasks, and the interrupts they have not returned from
* `Machine.step`: what can happen
* `Allowed`: what the code of the tasks does
* `Resumes`: what a return does
* `Inv`: the frames are on the stacks

## Main results

* `returns_resume`: a return gives the task that runs on the registers it was interrupted with
-/

namespace PekerOS.Proc

/-- A block that holds a stack. -/
structure Block where
  base : Word
  size : ℕ

/-- An interrupt that has not been returned from: the `struct registers` that is the argument of the handler,
and the stub, if there was one. No code reads the registers that were interrupted. -/
structure Call where
  r : Word
  gate : Option Gate
  regs : Cpu

/-- The tasks, the processor, and for each task its interrupts, the last one first, and the blocks of its
stacks, the kernel stack first. -/
structure Machine where
  sched : Sched
  cpu : Cpu
  calls : ℕ → List Call
  blocks : ℕ → List Block

namespace Machine

def core (m : Machine) : Core := ⟨m.cpu, m.sched.mem⟩

@[simp] theorem core_cpu (m : Machine) : m.core.cpu = m.cpu := rfl

@[simp] theorem core_mem (m : Machine) : m.core.mem = m.sched.mem := rfl

def setCore (m : Machine) (c : Core) : Machine := { m with cpu := c.cpu, sched := { m.sched with mem := c.mem } }

def setCalls (m : Machine) (calls : List Call) : Machine :=
  { m with calls := Function.update m.calls m.sched.current calls }

/-- An interrupt, up to the call of the handler, whose argument is on top of the stack. -/
def interrupt (m : Machine) (g : Gate) : Machine :=
  let c := execAll (deliver m.sched.esp0 m.core) g.enter
  (m.setCore c).setCalls (⟨c.mem c.cpu.esp, some g, m.cpu⟩ :: m.calls m.sched.current)

/-- `regs->eax = v` -/
def setResult (m : Machine) (v : Word) : Machine :=
  match m.calls m.sched.current with
  | [] => m
  | call :: rest =>
    (m.setCore ⟨m.cpu, Function.update m.sched.mem (call.r + 32#32) v⟩).setCalls
      ({ call with regs := { call.regs with eax := v } } :: rest)

/-- The rest of a stub, on the stack of the current task. -/
def leave (m : Machine) (g : Gate) : Machine :=
  (m.setCore (execAll m.core g.leave)).setCalls (m.calls m.sched.current).tail

end Machine

/-- The end of `irq_handler`, and what it returns. -/
def irqHandler (s : Sched) (r : Word) : Option (Sched × Word) :=
  if s.mem (r + 36#32) = 32#32 then scheduleInternal s r else some (s, r)

namespace Machine

/-- A handler returns. The stack pointer is as at the call; `eax` is the value of `irq_handler`. -/
def ret (m : Machine) : Option Machine :=
  match m.calls m.sched.current with
  | ⟨r, some (.irq n), _⟩ :: _ => do
    let (sched, eax) ← irqHandler m.sched r
    return { m with sched := sched, cpu := { m.cpu with eax := eax, esp := r - 4#32 } }.leave (.irq n)
  | ⟨r, some .int80, _⟩ :: _ => some ({ m with cpu := { m.cpu with esp := r - 4#32 } }.leave .int80)
  | _ => none

/-- `create_task`: the call that the new task seems to have made has no stub. -/
def create (m : Machine) (name : List Byte) (entryPoint : Word) (isUser : Bool) (stack kstack : Word) : Machine :=
  let t := m.sched.tasks.length
  { m with
    sched := createTask m.sched name entryPoint isUser stack kstack
    calls := Function.update m.calls t
      [⟨initialEsp stack isUser, none, initialRegs entryPoint (stack + 4096#32) isUser⟩]
    blocks := Function.update m.blocks t (if isUser then [⟨kstack, 4096⟩, ⟨stack, 4096⟩] else [⟨stack, 4096⟩]) }

/-- What can happen. -/
inductive Event
  /-- The code of the current task, or of a handler it is in, changes the registers and stores words. -/
  | code (cpu : Cpu) (stores : List (Word × Word))
  | interrupt (g : Gate)
  | setResult (v : Word)
  | ret
  | createTask (name : List Byte) (entryPoint : Word) (isUser : Bool) (stack kstack : Word)
  | taskExit
  | goToSleep
  | wake (t : ℕ)

/-- `none` if no handler returns, or the search of `schedule_internal` goes on. -/
def step (m : Machine) : Event → Option Machine
  | .code cpu stores =>
    some (m.setCore ⟨cpu, stores.foldl (fun mem p => Function.update mem p.1 p.2) m.sched.mem⟩)
  | .interrupt g => some (m.interrupt g)
  | .setResult v => some (m.setResult v)
  | .ret => m.ret
  | .createTask name entryPoint isUser stack kstack => some (m.create name entryPoint isUser stack kstack)
  | .taskExit => some { m with sched := Proc.taskExit m.sched }
  | .goToSleep => some { m with sched := Proc.goToSleep m.sched }
  | .wake t => some { m with sched := m.sched.setState t .ready }

def run (m : Machine) (es : List Event) : Option Machine := es.foldlM step m

/-- `kernel_main` after `write_tss`, on the stack of 16 KB from `boot.s`. -/
def boot (task : Tcb) (stackBottom : Word) (cpu : Cpu) (mem : Word → Word) : Machine where
  sched := initMultitasking task (stackBottom + 16384#32) (stackBottom + 16384#32) mem
  cpu := cpu
  calls := fun _ => []
  blocks := fun t => if t = 0 then [⟨stackBottom, 16384⟩] else []

end Machine

/-! ## What the code does -/

namespace Block

def top (b : Block) : ℕ := b.base.toNat + b.size

/-- The bytes of the block. -/
def bytes (b : Block) : Set Word := WordStack.span b.base b.size

/-- A stack pointer of ring 0: it is in the kernel stack, below the frames that are there. -/
def Below (b : Block) (esp : ℕ) : List Call → Prop
  | [] => b.base.toNat ≤ esp ∧ esp ≤ b.top
  | call :: _ => b.base.toNat ≤ esp ∧ esp + 4 ≤ call.r.toNat

end Block

/-- The bytes of the frame. -/
def Call.bytes (call : Call) : Set Word := WordStack.span call.r (frameSize call.regs)

/-- No stack has bytes in the block, which ends below 4 GB. -/
def Machine.Unused (m : Machine) (b : Block) : Prop :=
  b.top < 2 ^ 32 ∧ ∀ t, ∀ b' ∈ m.blocks t, Disjoint b.bytes b'.bytes

/-- The kernel stack of the current task. -/
def Machine.kstack (m : Machine) : Option Block := (m.blocks m.sched.current).head?

/-- What the code of the tasks and of the kernel does. -/
def Allowed (m : Machine) : Machine.Event → Prop
  | .code cpu stores =>
    -- the rings are entered and left by interrupts only, and ring 3 cannot load the kernel's segments
    cpu.cs = m.cpu.cs ∧ cpu.ss = m.cpu.ss ∧ (m.cpu.user = true → kernelSegment cpu.ds = false) ∧
      -- the kernel stack does not overflow
      (m.cpu.user = false → ∀ b ∈ m.kstack, b.Below cpu.esp.toNat (m.calls m.sched.current)) ∧
      ∀ p ∈ stores, ∀ t, ∀ call ∈ m.calls t, Disjoint (WordStack.span p.1 4) call.bytes
  -- in ring 0 there is room for the frame and the argument
  | .interrupt _ => m.cpu.user = false → ∀ b ∈ m.kstack, b.base.toNat + 60 ≤ m.cpu.esp.toNat
  | .ret => m.calls m.sched.current ≠ []
  | .createTask _ _ isUser stack kstack => m.Unused ⟨stack, 4096⟩ ∧
    (isUser = true → m.Unused ⟨kstack, 4096⟩)
  | _ => True

/-! ## What a return does -/

/-- `kstack_top`, where there is a task. -/
def Sched.kstackTop? (s : Sched) (t : ℕ) : Option Word := s.tasks[t]?.map (·.kstackTop)

/-- A return of the handler of the current task. -/
structure Resumes (m m' : Machine) : Prop where
  /-- The task that runs is the current one, unless the interrupt was 0x20: then it is the next one that
  is not dead. -/
  current : ∀ call ∈ (m.calls m.sched.current).head?,
    if call.gate = some (.irq 0) then
      (after m.sched.tasks.length m.sched.current).find? m.sched.alive = some m'.sched.current
    else m'.sched.current = m.sched.current
  /-- It goes on where its last interrupt came, and the others have theirs. -/
  resumed : ∃ call rest, m.calls m'.sched.current = call :: rest ∧ m'.cpu = call.regs.resumed ∧
    m'.calls = Function.update m.calls m'.sched.current rest
  /-- The interrupts of ring 3 will be on its kernel stack. -/
  esp0 : m'.sched.kstackTop? m'.sched.current = some m'.sched.esp0

/-! ## The frames on the stacks -/

/-- The frames of a task are in the memory and in the block, the last one lowest. -/
def Frames (mem : Word → Word) (b : Block) : List Call → Prop
  | [] => True
  | call :: rest =>
    (∃ skip, WordStack.Holds mem call.r (frame call.regs ((call.gate.map Gate.number).getD 0#32) skip)) ∧
      b.base.toNat ≤ call.r.toNat ∧ call.r.toNat + frameSize call.regs ≤ b.top ∧
      if call.regs.user then kernelSegment call.regs.ds = false ∧ rest = []
      else call.regs.ss = 0x10#16 ∧ call.regs.esp = call.r + 56#32 ∧ b.Below call.regs.esp.toNat rest ∧
        Frames mem b rest

/-- The registers of the last interrupt of a task are in memory. The frame of a new task of ring 3 is on its
stack of ring 3. -/
structure Saved (m : Machine) (t : ℕ) (call : Call) (rest : List Call) : Prop where
  calls : m.calls t = call :: rest
  gates : ∀ call ∈ rest, call.gate ≠ none
  frames : ∃ b ∈ m.blocks t, Frames m.sched.mem b (call :: rest) ∧
    (call.regs.user = false → (m.blocks t).head? = some b)

/-- The current task: in ring 3 it has no interrupt. -/
structure Running (m : Machine) : Prop where
  user : m.cpu.user = true → m.calls m.sched.current = [] ∧ kernelSegment m.cpu.ds = false
  kernel : m.cpu.user = false → m.cpu.ss = 0x10#16 ∧ ∀ b ∈ m.kstack,
    b.Below m.cpu.esp.toNat (m.calls m.sched.current) ∧ Frames m.sched.mem b (m.calls m.sched.current)
  gates : ∀ call ∈ m.calls m.sched.current, call.gate ≠ none

/-- The blocks of the stacks of the tasks. -/
structure Blocks (m : Machine) : Prop where
  kstack : ∀ t < m.sched.tasks.length, ∃ b bs, m.blocks t = b :: bs ∧ 4096 ≤ b.size ∧
    m.sched.kstackTop? t = some (b.base + BitVec.ofNat 32 b.size)
  none : ∀ t, m.sched.tasks.length ≤ t → m.blocks t = [] ∧ m.calls t = []
  top : ∀ t, ∀ b ∈ m.blocks t, b.top < 2 ^ 32
  disjoint : ∀ t t', t ≠ t' → ∀ b ∈ m.blocks t, ∀ b' ∈ m.blocks t', Disjoint b.bytes b'.bytes

/-- The tasks that do not run: `esp` is at the last frame. -/
structure Parked (m : Machine) : Prop where
  wf : Wf m.sched
  esp0 : m.sched.kstackTop? m.sched.current = some m.sched.esp0
  blocks : Blocks m
  suspended : ∀ t < m.sched.tasks.length, t ≠ m.sched.current → ∃ call rest, Saved m t call rest ∧
    m.sched.esp? t = some call.r

/-- The invariant. -/
structure Inv (m : Machine) : Prop extends Parked m where
  running : Running m

section Frames

variable {mem mem' : Word → Word} {b : Block} {call : Call} {calls rest : List Call} {esp sp : Word} {ws : List Word}

/-- The frames are not stored to. -/
def Spared (mem mem' : Word → Word) (calls : List Call) : Prop :=
  ∀ call ∈ calls, ∀ ws, 4 * ws.length = frameSize call.regs → WordStack.Holds mem call.r ws →
    WordStack.Holds mem' call.r ws

theorem spared_stores (stores : List (Word × Word))
    (h : ∀ p ∈ stores, ∀ call ∈ calls, Disjoint (WordStack.span p.1 4) call.bytes) :
    Spared mem (stores.foldl (fun mem p => Function.update mem p.1 p.2) mem) calls := by
  intro call hcall ws hlen hholds
  induction stores generalizing mem with
  | nil => exact hholds
  | cons p stores ih =>
    refine ih (fun q hq => h q (List.mem_cons_of_mem p hq)) (hholds.update ?_)
    have hdisj := h p List.mem_cons_self call hcall
    rwa [Call.bytes, ← hlen] at hdisj

theorem spared_pushes
    (h : ∀ call ∈ calls, Disjoint (WordStack.span (sp - BitVec.ofNat 32 (4 * ws.length)) (4 * ws.length)) call.bytes) :
    Spared mem (WordStack.pushes mem sp ws).1 calls := by
  intro call hcall vs hlen hholds
  have hdisj := h call hcall
  rw [Call.bytes, ← hlen] at hdisj
  exact hholds.pushes hdisj

theorem Spared.tail (h : Spared mem mem' (call :: rest)) : Spared mem mem' rest :=
  fun c hc => h c (List.mem_cons_of_mem call hc)

theorem Frames.spared (h : Frames mem b calls) (hmem : Spared mem mem' calls) : Frames mem' b calls := by
  induction calls with
  | nil => trivial
  | cons call rest ih =>
    obtain ⟨⟨skip, hholds⟩, hbase, htop, hring⟩ := h
    refine ⟨⟨skip, hmem call List.mem_cons_self _ (length_frame _ _ _) hholds⟩, hbase, htop, ?_⟩
    by_cases huser : call.regs.user = true
    · rw [if_pos huser] at hring ⊢
      exact hring
    · rw [if_neg huser] at hring ⊢
      exact ⟨hring.1, hring.2.1, hring.2.2.1, ih hring.2.2.2 hmem.tail⟩

theorem Frames.tail (h : Frames mem b (call :: rest)) : Frames mem b rest := by
  obtain ⟨-, -, -, hring⟩ := h
  split at hring
  · rw [hring.2]
    trivial
  · exact hring.2.2.2

/-- A frame is in the block. -/
theorem Frames.mem_block (h : Frames mem b calls) (hcall : call ∈ calls) :
    b.base.toNat ≤ call.r.toNat ∧ call.r.toNat + frameSize call.regs ≤ b.top := by
  induction calls with
  | nil => exact absurd hcall List.not_mem_nil
  | cons c rest ih =>
    rcases List.mem_cons.mp hcall with rfl | hrest
    · exact ⟨h.2.1, h.2.2.1⟩
    · exact ih h.tail hrest

theorem Frames.bytes_subset (h : Frames mem b calls) (hcall : call ∈ calls) : call.bytes ⊆ b.bytes := by
  obtain ⟨hbase, htop⟩ := h.mem_block hcall
  exact WordStack.span_subset_span hbase htop

/-- The frames are above the stack pointer. -/
theorem Frames.above (h : Frames mem b calls) (htop : b.top < 2 ^ 32) (hesp : b.Below esp.toNat calls)
    (hcall : call ∈ calls) : esp.toNat + 4 ≤ call.r.toNat := by
  induction calls generalizing esp with
  | nil => exact absurd hcall List.not_mem_nil
  | cons c rest ih =>
    have hfirst := hesp.2
    rcases List.mem_cons.mp hcall with rfl | hrest
    · exact hfirst
    · obtain ⟨-, -, hend, hring⟩ := h
      have hsize := le_frameSize c.regs
      split at hring
      · rw [hring.2] at hrest
        exact absurd hrest List.not_mem_nil
      · obtain ⟨-, hup, hbelow, hframes⟩ := hring
        have hlast := ih hframes hbelow hrest
        rw [hup, WordStack.toNat_add_ofNat (k := 56) (by omega)] at hlast
        omega

/-- The other frames are above the last one. -/
theorem Frames.above_head {c : Call} (h : Frames mem b (call :: rest)) (htop : b.top < 2 ^ 32) (hc : c ∈ rest) :
    call.r.toNat + frameSize call.regs ≤ c.r.toNat := by
  obtain ⟨-, -, hend, hring⟩ := h
  by_cases huser : call.regs.user = true
  · rw [if_pos huser] at hring
    rw [hring.2] at hc
    exact absurd hc List.not_mem_nil
  · rw [if_neg huser] at hring
    rw [frameSize, if_neg huser] at hend ⊢
    obtain ⟨-, hup, hbelow, hframes⟩ := hring
    have hlast := hframes.above htop hbelow hc
    rw [hup, WordStack.toNat_add_ofNat (k := 56) (by omega)] at hlast
    omega

/-- `regs->eax` is the ninth word of the frame. -/
theorem frame_set_eax (regs : Cpu) (number skip v : Word) :
    (frame regs number skip).set 8 v = frame { regs with eax := v } number skip := by
  rw [frame, frame, show Cpu.user { regs with eax := v } = regs.user from rfl]
  cases regs.user <;> rfl

end Frames

/-! ## The code of the current task, and interrupts -/

section Interrupts

variable {m m' : Machine} {b : Block} {t : ℕ} {call : Call} {calls rest : List Call} {c : Core} {g : Gate}

theorem Saved.kept (h : Saved m t call rest) (hcalls : m'.calls t = m.calls t) (hblocks : m'.blocks t = m.blocks t)
    (hmem : Spared m.sched.mem m'.sched.mem (m.calls t)) : Saved m' t call rest := by
  obtain ⟨b, hb, hframes, hring⟩ := h.frames
  rw [h.calls] at hmem
  exact ⟨hcalls.trans h.calls, h.gates, b, hblocks ▸ hb, hframes.spared hmem, hblocks ▸ hring⟩

theorem Blocks.kept (h : Blocks m) (hlen : m'.sched.tasks.length = m.sched.tasks.length)
    (htop : ∀ t, m'.sched.kstackTop? t = m.sched.kstackTop? t) (hblocks : m'.blocks = m.blocks)
    (hcalls : ∀ t, m.sched.tasks.length ≤ t → m'.calls t = m.calls t) : Blocks m' := by
  refine ⟨fun t ht => ?_, fun t ht => ?_, fun t b hb => ?_, fun t t' hne b hb b' hb' => ?_⟩
  · rw [hblocks, htop]
    exact h.kstack t (hlen ▸ ht)
  · rw [hlen] at ht
    rw [hblocks, hcalls t ht]
    exact h.none t ht
  · exact h.top t b (hblocks ▸ hb)
  · rw [hblocks] at hb hb'
    exact h.disjoint t t' hne b hb b' hb'

/-- The kernel stack of the current task, which the TSS names. -/
theorem Parked.kstack (h : Parked m) : ∃ b ∈ m.blocks m.sched.current, m.kstack = some b ∧ 4096 ≤ b.size ∧
    b.top < 2 ^ 32 ∧ m.sched.esp0.toNat = b.top := by
  obtain ⟨b, bs, hblocks, hsize, htop⟩ := h.blocks.kstack _ h.wf.current
  have hmem : b ∈ m.blocks m.sched.current := hblocks ▸ List.mem_cons_self
  have hlt := h.blocks.top _ b hmem
  refine ⟨b, hmem, congrArg List.head? hblocks, hsize, hlt, ?_⟩
  rw [Option.some.inj (h.esp0.symm.trans htop)]
  exact WordStack.toNat_add_ofNat hlt

/-- The frames of the other tasks are not in the stacks of the current one. -/
theorem Parked.away (h : Parked m) (hb : b ∈ m.blocks m.sched.current) (ht : t ≠ m.sched.current)
    (hcall : call ∈ m.calls t) : Disjoint b.bytes call.bytes := by
  have hlt : t < m.sched.tasks.length := by
    by_contra hge
    rw [(h.blocks.none t (Nat.not_lt.mp hge)).2] at hcall
    exact absurd hcall List.not_mem_nil
  obtain ⟨last, rest, hsaved, -⟩ := h.suspended t hlt ht
  obtain ⟨b', hb', hframes, -⟩ := hsaved.frames
  rw [hsaved.calls] at hcall
  exact (h.blocks.disjoint _ t (Ne.symm ht) b hb b' hb').mono_right (hframes.bytes_subset hcall)

/-- The current task and the memory change, and the frames of the others do not. -/
theorem Parked.change (h : Parked m) (hmem : ∀ t ≠ m.sched.current, Spared m.sched.mem c.mem (m.calls t))
    (huser : c.cpu.user = true → calls = [] ∧ kernelSegment c.cpu.ds = false)
    (hkernel : c.cpu.user = false → c.cpu.ss = 0x10#16 ∧
      ∀ b ∈ m.kstack, b.Below c.cpu.esp.toNat calls ∧ Frames c.mem b calls)
    (hgates : ∀ call ∈ calls, call.gate ≠ none) : Inv ((m.setCore c).setCalls calls) := by
  have hcalls : ∀ t ≠ m.sched.current, ((m.setCore c).setCalls calls).calls t = m.calls t :=
    fun t ht => Function.update_of_ne ht _ _
  have hcurrent : ((m.setCore c).setCalls calls).calls m.sched.current = calls := Function.update_self _ _ _
  refine ⟨⟨⟨h.wf.current, h.wf.first, h.wf.alive⟩, h.esp0, h.blocks.kept rfl (fun _ => rfl) rfl ?_, ?_⟩,
    fun hring => ?_, fun hring => ?_, ?_⟩
  · intro t ht
    refine hcalls t ?_
    rintro rfl
    exact absurd h.wf.current (Nat.not_lt.mpr ht)
  · intro t hlt ht
    obtain ⟨call, rest, hsaved, hesp⟩ := h.suspended t hlt ht
    exact ⟨call, rest, hsaved.kept (hcalls t ht) rfl (hmem t ht), hesp⟩
  · obtain ⟨hnil, hds⟩ := huser hring
    exact ⟨hcurrent.trans hnil, hds⟩
  · obtain ⟨hss, hframes⟩ := hkernel hring
    refine ⟨hss, fun b hb => ?_⟩
    have hb' := hframes b hb
    rwa [← hcurrent] at hb'
  · rwa [← hcurrent] at hgates

theorem Inv.code {cpu : Cpu} {stores : List (Word × Word)} (h : Inv m) (ha : Allowed m (.code cpu stores)) :
    Inv (m.setCore ⟨cpu, stores.foldl (fun mem p => Function.update mem p.1 p.2) m.sched.mem⟩) := by
  obtain ⟨hcs, hss, hds, hesp, hstores⟩ := ha
  have hmem : ∀ t, Spared m.sched.mem (stores.foldl (fun mem p => Function.update mem p.1 p.2) m.sched.mem)
      (m.calls t) := fun t => spared_stores stores fun p hp => hstores p hp t
  have huser : cpu.user = m.cpu.user := by rw [Cpu.user, hcs, Cpu.user]
  have hcalls : Function.update m.calls m.sched.current (m.calls m.sched.current) = m.calls :=
    Function.update_eq_self _ _
  have hnew := h.change (c := ⟨cpu, stores.foldl (fun mem p => Function.update mem p.1 p.2) m.sched.mem⟩)
    (fun t _ => hmem t) (fun hring => ?_) (fun hring => ?_) h.running.gates
  · rwa [Machine.setCalls, show (m.setCore _).calls = m.calls from rfl,
      show (m.setCore _).sched.current = m.sched.current from rfl, hcalls] at hnew
  · exact ⟨(h.running.user (huser ▸ hring)).1, hds (huser ▸ hring)⟩
  · obtain ⟨hss', hframes⟩ := h.running.kernel (huser ▸ hring)
    exact ⟨hss.trans hss', fun b hb => ⟨hesp (huser ▸ hring) b hb, (hframes b hb).2.spared (hmem _)⟩⟩

/-- The stack on which an interrupt is handled has room for the frame and the argument, below the frames
of the task. -/
theorem Inv.room (h : Inv m) (ha : Allowed m (.interrupt g)) : ∃ b ∈ m.blocks m.sched.current,
    m.kstack = some b ∧ b.top < 2 ^ 32 ∧
    b.base.toNat + (frameSize m.cpu + 4) ≤ (handlerStack m.sched.esp0 m.cpu).toNat ∧
    (handlerStack m.sched.esp0 m.cpu).toNat ≤ b.top ∧
    ∀ call ∈ m.calls m.sched.current, (handlerStack m.sched.esp0 m.cpu).toNat + 4 ≤ call.r.toNat ∧
      call.r.toNat + frameSize call.regs ≤ b.top := by
  obtain ⟨b, hb, hkstack, hsize, htop, hesp0⟩ := h.kstack
  refine ⟨b, hb, hkstack, htop, ?_⟩
  have hlt : b.top = b.base.toNat + b.size := rfl
  cases huser : m.cpu.user with
  | true =>
    rw [frameSize, handlerStack, if_pos huser, if_pos huser, (h.running.user huser).1]
    exact ⟨by omega, hesp0.le, fun call hcall => absurd hcall List.not_mem_nil⟩
  | false =>
    have hring := Bool.eq_false_iff.mp huser
    obtain ⟨hbelow, hframes⟩ := (h.running.kernel huser).2 b hkstack
    rw [frameSize, handlerStack, if_neg hring, if_neg hring]
    refine ⟨ha huser b hkstack, ?_, fun call hcall =>
      ⟨hframes.above htop hbelow hcall, (hframes.mem_block hcall).2⟩⟩
    cases hcalls : m.calls m.sched.current with
    | nil =>
      rw [hcalls] at hbelow
      exact hbelow.2
    | cons call rest =>
      rw [hcalls] at hbelow hframes
      have hend := hframes.2.2.1
      have hup := hbelow.2
      omega

theorem Inv.interrupt (h : Inv m) (ha : Allowed m (.interrupt g)) : Inv (m.interrupt g) := by
  obtain ⟨b, hb, hkstack, htop, hroom, hle, habove⟩ := h.room ha
  obtain ⟨-, -, hesp, hcs, hss⟩ := enter_spec m.sched.esp0 m.core g
  obtain ⟨ws, skip, hmem, hlen, harg, hholds⟩ := enter_frame m.sched.esp0 m.core g
  rw [Machine.interrupt]
  generalize execAll (deliver m.sched.esp0 m.core) g.enter = c at hmem hesp hcs hss harg hholds
  rw [← harg] at hesp hholds
  simp only [Machine.core_cpu, Machine.core_mem] at hmem hlen hss harg hholds
  -- where the frame is
  have hsize := le_frameSize m.cpu
  have htop' : b.top = b.base.toNat + b.size := rfl
  have hr : (c.mem c.cpu.esp).toNat = (handlerStack m.sched.esp0 m.cpu).toNat - frameSize m.cpu := by
    rw [harg]
    exact WordStack.toNat_sub_ofNat (by omega)
  have hesp' : c.cpu.esp.toNat = (c.mem c.cpu.esp).toNat - 4 := by
    rw [congrArg BitVec.toNat hesp]
    exact WordStack.toNat_sub_ofNat (k := 4) (by omega)
  have hlow : (handlerStack m.sched.esp0 m.cpu - BitVec.ofNat 32 (4 * ws.length)).toNat =
      (handlerStack m.sched.esp0 m.cpu).toNat - (frameSize m.cpu + 4) := by
    rw [hlen]
    exact WordStack.toNat_sub_ofNat (by omega)
  -- the pushes leave the frames there are
  have hothers : ∀ t ≠ m.sched.current, Spared m.sched.mem c.mem (m.calls t) := by
    intro t ht
    rw [hmem]
    exact spared_pushes fun call hcall => (h.away hb ht hcall).mono_left
      (WordStack.span_subset_span (by omega) (by omega))
  have hown : Spared m.sched.mem c.mem (m.calls m.sched.current) := by
    rw [hmem]
    refine spared_pushes fun call hcall => ?_
    obtain ⟨hup, hend⟩ := habove call hcall
    exact WordStack.disjoint_span (by omega) (by omega)
  have hring : c.cpu.user = false := by
    rw [Cpu.user, hcs]
    rfl
  refine h.change hothers (fun huser => ?_) (fun _ => ⟨?_, fun b' hb' => ?_⟩) fun call hcall => ?_
  · exact absurd huser (Bool.eq_false_iff.mp hring)
  · refine hss.trans ?_
    by_cases huser : m.cpu.user = true
    · exact if_pos huser
    · exact (if_neg huser).trans (h.running.kernel (Bool.eq_false_iff.mpr huser)).1
  · obtain rfl : b = b' := Option.some.inj (hkstack.symm.trans hb')
    refine ⟨⟨by omega, ?_⟩, ⟨skip, hholds⟩, ?_, ?_, ?_⟩
    · dsimp only
      omega
    · dsimp only
      omega
    · dsimp only
      omega
    · by_cases huser : m.cpu.user = true
      · obtain ⟨hnil, hds⟩ := h.running.user huser
        rw [if_pos huser]
        exact ⟨hds, hnil⟩
      · obtain ⟨hss', hkernel⟩ := h.running.kernel (Bool.eq_false_iff.mpr huser)
        obtain ⟨hbelow, hframes⟩ := hkernel b hkstack
        rw [if_neg huser]
        refine ⟨hss', ?_, hbelow, hframes.spared hown⟩
        rw [harg, handlerStack, frameSize, if_neg huser, if_neg huser]
        exact (BitVec.sub_add_cancel _ _).symm
  · rcases List.mem_cons.mp hcall with rfl | hrest
    · exact Option.some_ne_none g
    · exact h.running.gates call hrest

/-- In a handler the processor is in ring 0. -/
theorem Inv.ring0 (h : Inv m) (hcalls : m.calls m.sched.current = call :: rest) : m.cpu.user = false := by
  refine Bool.eq_false_iff.mpr fun huser => ?_
  have hnil := (h.running.user huser).1
  rw [hcalls] at hnil
  exact List.cons_ne_nil _ _ hnil

theorem Inv.setResult (h : Inv m) (v : Word) : Inv (m.setResult v) := by
  rw [Machine.setResult]
  cases hcalls : m.calls m.sched.current with
  | nil => exact h
  | cons call rest =>
    obtain ⟨b, hb, hkstack, -, htop, -⟩ := h.kstack
    obtain ⟨hss, hkernel⟩ := h.running.kernel (h.ring0 hcalls)
    obtain ⟨hbelow, hframes⟩ := hkernel b hkstack
    have hgates := h.running.gates
    rw [hcalls] at hbelow hframes hgates
    have hsize := le_frameSize call.regs
    obtain ⟨⟨skip, hholds⟩, hbase, hend, hring⟩ := id hframes
    have heax : (call.r + 32#32).toNat = call.r.toNat + 32 := WordStack.toNat_add_ofNat (by omega)
    have hbytes : WordStack.span (call.r + 32#32) 4 ⊆ call.bytes :=
      WordStack.span_subset_span (by omega) (by omega)
    have hstore : ∀ calls, (∀ c ∈ calls, Disjoint call.bytes c.bytes) →
        Spared m.sched.mem (Function.update m.sched.mem (call.r + 32#32) v) calls := by
      intro calls hdisj
      refine spared_stores [(call.r + 32#32, v)] fun p hp c hc => ?_
      rw [List.mem_singleton.mp hp]
      exact (hdisj c hc).mono_left hbytes
    refine h.change (fun t ht => hstore _ fun c hc => ?_) (fun huser => ?_) (fun _ => ⟨hss, fun b' hb' => ?_⟩)
      fun c hc => ?_
    · exact (h.away hb ht hc).mono_left (hframes.bytes_subset List.mem_cons_self)
    · exact absurd huser (Bool.eq_false_iff.mp (h.ring0 hcalls))
    · obtain rfl : b = b' := Option.some.inj (hkstack.symm.trans hb')
      refine ⟨hbelow, ⟨skip, ?_⟩, hbase, hend, ?_⟩
      · have hset := hholds.set (k := 8) (v := v) ?_ ?_
        · rwa [frame_set_eax] at hset
        · have hlen := length_frame call.regs ((call.gate.map Gate.number).getD 0#32) skip
          omega
        · rw [length_frame]
          exact (frameSize_le _).trans (by omega)
      · -- the other frames of the task are above this one
        have hrest := hstore rest fun c hc =>
          WordStack.disjoint_span (hframes.above_head htop hc) (by
            have hlast := (hframes.tail.mem_block hc).2
            omega)
        by_cases huser : call.regs.user = true
        · rw [if_pos huser] at hring
          exact (if_pos huser).mpr hring
        · rw [if_neg huser] at hring
          refine (if_neg huser).mpr ⟨hring.1, hring.2.1, hring.2.2.1, hring.2.2.2.spared hrest⟩
    · rcases List.mem_cons.mp hc with rfl | hmem
      · exact hgates call List.mem_cons_self
      · exact hgates c (List.mem_cons_of_mem call hmem)

end Interrupts

/-! ## Returns -/

section Returns

variable {m : Machine} {s s' : Sched} {call : Call} {rest : List Call} {cpu : Cpu} {g : Gate} {esp esp' : Word}
  {t : ℕ}

theorem kstackTop?_saveEsp (s : Sched) (esp : Word) (i : ℕ) : (s.saveEsp esp).kstackTop? i = s.kstackTop? i := by
  rw [Sched.kstackTop?, Sched.saveEsp, map_getElem?_modify]
  exact ite_self _

@[simp] theorem kstackTop?_setState (s : Sched) (t : ℕ) (state : Net.TaskState) (i : ℕ) :
    (s.setState t state).kstackTop? i = s.kstackTop? i := by
  rw [Sched.kstackTop?, Sched.setState, map_getElem?_modify]
  exact ite_self _

/-- What else `schedule_internal` does: the memory stays, and the TSS names the kernel stack of the task that
is selected. -/
theorem scheduleInternal_frame (h : scheduleInternal s esp = some (s', esp')) : s'.mem = s.mem ∧
    (∀ i, s'.kstackTop? i = s.kstackTop? i) ∧ s'.kstackTop? s'.current = some s'.esp0 := by
  simp only [scheduleInternal, Option.bind_eq_bind, Option.bind_eq_some_iff, Option.pure_def, Option.some.injEq,
    Prod.mk.injEq] at h
  obtain ⟨next, -, task, htask, rfl, -⟩ := h
  have htop : ∀ i, ((s.saveEsp esp).setState next .running).kstackTop? i = s.kstackTop? i :=
    fun i => (kstackTop?_setState _ _ _ i).trans (kstackTop?_saveEsp s esp i)
  refine ⟨rfl, htop, (htop next).trans ?_⟩
  rw [← kstackTop?_saveEsp s esp, Sched.kstackTop?, htask]
  rfl

theorem Parked.setCpu (h : Parked m) (cpu : Cpu) : Parked { m with cpu := cpu } := by
  refine ⟨h.wf, h.esp0, h.blocks.kept rfl (fun _ => rfl) rfl fun _ _ => rfl, fun t hlt ht => ?_⟩
  obtain ⟨call, rest, hsaved, hesp⟩ := h.suspended t hlt ht
  exact ⟨call, rest, hsaved.kept rfl rfl fun _ _ _ _ hw => hw, hesp⟩

/-- The current task while a handler returns. -/
theorem Inv.saved (h : Inv m) (hcalls : m.calls m.sched.current = call :: rest) :
    Saved m m.sched.current call rest := by
  obtain ⟨b, hb, hkstack, -⟩ := h.kstack
  have hframes := ((h.running.kernel (h.ring0 hcalls)).2 b hkstack).2
  rw [hcalls] at hframes
  refine ⟨hcalls, fun c hc => h.running.gates c (hcalls ▸ List.mem_cons_of_mem call hc), b, hb, hframes,
    fun _ => hkstack⟩

/-- The task is switched: the stack pointer that `schedule_internal` returns is at the last frame of the task
that it selects. -/
theorem Inv.switch (h : Inv m) (hcalls : m.calls m.sched.current = call :: rest)
    (hsched : scheduleInternal m.sched call.r = some (s', esp')) (cpu : Cpu) :
    Parked { m with sched := s', cpu := cpu } ∧
      ∃ call' rest', Saved { m with sched := s', cpu := cpu } s'.current call' rest' ∧ esp' = call'.r := by
  obtain ⟨s₁, ret₁, hsched₁, hswitch⟩ := scheduleInternal_spec h.wf call.r
  obtain ⟨rfl, rfl⟩ := Prod.mk.inj (Option.some.inj (hsched.symm.trans hsched₁))
  obtain ⟨hmem, htop, hesp0⟩ := scheduleInternal_frame hsched
  -- all tasks are at their last frames
  have hall : ∀ t < m.sched.tasks.length, ∃ call' rest', Saved { m with sched := s', cpu := cpu } t call' rest' ∧
      s'.esp? t = some call'.r := by
    have hkept : ∀ t call' rest', Saved m t call' rest' → Saved { m with sched := s', cpu := cpu } t call' rest' :=
      fun t call' rest' hsaved => hsaved.kept rfl rfl fun c _ ws _ hholds => hmem ▸ hholds
    intro t hlt
    by_cases ht : t = m.sched.current
    · refine ⟨call, rest, hkept t call rest (ht ▸ h.saved hcalls), ?_⟩
      rw [hswitch.esp, if_pos ht]
    · obtain ⟨call', rest', hsaved, hesp⟩ := h.suspended t hlt ht
      refine ⟨call', rest', hkept t call' rest' hsaved, ?_⟩
      rw [hswitch.esp, if_neg ht, hesp]
  refine ⟨⟨hswitch.wf h.wf, hesp0, h.blocks.kept hswitch.length htop rfl fun _ _ => rfl, fun t hlt _ =>
    hall t (hswitch.length ▸ hlt)⟩, ?_⟩
  obtain ⟨call', rest', hsaved, hesp⟩ := hall _ hswitch.current_lt
  exact ⟨call', rest', hsaved, Option.some.inj (hswitch.ret.symm.trans hesp)⟩

/-- **The rest of a stub** gives the current task the registers of its last frame. -/
theorem Parked.leave (h : Parked m) (hsaved : Saved m m.sched.current call rest) (hring : m.cpu.user = false)
    (hss : m.cpu.ss = 0x10#16) (hexec : execAll m.core g.leave =
      execAll ⟨{ m.cpu with esp := call.r }, m.sched.mem⟩ restore) :
    Inv (m.leave g) ∧ (m.leave g).cpu = call.regs.resumed ∧
      (m.leave g).calls = Function.update m.calls m.sched.current rest := by
  obtain ⟨b, hb, hframes, hhead⟩ := hsaved.frames
  obtain ⟨⟨skip, hholds⟩, -, -, hregs⟩ := id hframes
  have hrestore : execAll m.core g.leave = ⟨call.regs.resumed, m.sched.mem⟩ := by
    rw [hexec, restore_spec hring hholds]
    · intro huser
      rw [if_pos huser] at hregs
      exact hregs.1
    · intro huser
      rw [if_neg (Bool.eq_false_iff.mp huser)] at hregs
      exact ⟨hregs.2.1, hregs.1.trans hss.symm⟩
  have htail : (m.calls m.sched.current).tail = rest := congrArg List.tail hsaved.calls
  rw [Machine.leave, hrestore, htail]
  refine ⟨h.change (fun t _ c _ ws _ hw => hw) (fun huser => ?_) (fun huser => ?_) hsaved.gates, rfl, rfl⟩
  · change call.regs.user = true at huser
    rw [if_pos huser] at hregs
    exact hregs.symm
  · change call.regs.user = false at huser
    have hkernel := hhead huser
    rw [if_neg (Bool.eq_false_iff.mp huser)] at hregs
    refine ⟨hregs.1, fun b' hb' => ?_⟩
    obtain rfl : b = b' := Option.some.inj (hkernel.symm.trans hb')
    exact ⟨hregs.2.2.1, hregs.2.2.2⟩

/-- `int_no` in a frame. -/
theorem Saved.number (hsaved : Saved m t call rest) (hgate : call.gate = some g) :
    m.sched.mem (call.r + 36#32) = g.number := by
  obtain ⟨b, -, ⟨⟨skip, hholds⟩, -⟩, -⟩ := hsaved.frames
  rw [hgate, Option.map_some, Option.getD_some, frame] at hholds
  refine hholds.get (k := 9) ?_
  rw [List.length_append]
  exact Nat.lt_add_right _ (Nat.lt_of_sub_eq_succ rfl)

theorem number_eq_iff (n : Fin 16) : (Gate.irq n).number = 32#32 ↔ n = 0 := by
  revert n
  decide

/-- **A return** of the handler of the current task. -/
theorem Inv.ret (h : Inv m) (ha : Allowed m .ret) : ∃ m', m.ret = some m' ∧ Inv m' ∧ Resumes m m' := by
  obtain ⟨call, rest, hcalls⟩ := List.exists_cons_of_ne_nil ha
  have hsaved := h.saved hcalls
  have hring := h.ring0 hcalls
  have hss := (h.running.kernel hring).1
  have hhead : (m.calls m.sched.current).head? = some call := congrArg List.head? hcalls
  obtain ⟨g, hgate⟩ : ∃ g, call.gate = some g :=
    Option.ne_none_iff_exists'.mp (h.running.gates call (hcalls ▸ List.mem_cons_self))
  obtain ⟨r, gate, regs⟩ := call
  obtain rfl : gate = some g := hgate
  -- the task that goes on is the current one
  have hsame : ∀ cpu : Cpu, cpu.user = false → cpu.ss = 0x10#16 → g ≠ .irq 0 →
      execAll ⟨cpu, m.sched.mem⟩ g.leave = execAll ⟨{ cpu with esp := r }, m.sched.mem⟩ restore →
      Inv ({ m with cpu := cpu }.leave g) ∧ Resumes m ({ m with cpu := cpu }.leave g) := by
    intro cpu hcpu hcpu' hg hexec
    have hkept : Saved { m with cpu := cpu } m.sched.current ⟨r, some g, regs⟩ rest :=
      hsaved.kept rfl rfl fun _ _ _ _ hw => hw
    obtain ⟨hinv, hresumed, hrest⟩ := (h.setCpu cpu).leave (g := g) hkept hcpu hcpu' hexec
    refine ⟨hinv, fun c hc => ?_, ⟨_, rest, hcalls, hresumed, hrest⟩, hinv.esp0⟩
    rw [hhead] at hc
    obtain rfl := Option.some.inj hc
    rw [if_neg fun heq => hg (Option.some.inj heq)]
    rfl
  cases g with
  | int80 =>
    obtain ⟨hinv, hresumes⟩ := hsame { m.cpu with esp := r - 4#32 } hring hss (fun heq => Gate.noConfusion heq)
      (leave_int80 _ _ r rfl)
    refine ⟨_, ?_, hinv, hresumes⟩
    rw [Machine.ret, hcalls]
  | irq n =>
    have hnumber := hsaved.number rfl
    by_cases hn : n = 0
    · -- another task may go on
      obtain ⟨s', esp', hsched, hswitch⟩ := scheduleInternal_spec h.wf r
      obtain ⟨hparked, call', rest', hsaved', hesp⟩ := h.switch hcalls hsched
        { m.cpu with eax := esp', esp := r - 4#32 }
      have hgo : irqHandler m.sched r = some (s', esp') := by
        rw [irqHandler, if_pos]
        · exact hsched
        · rw [hnumber, number_eq_iff]
          exact hn
      obtain ⟨hinv, hresumed, hrest⟩ := hparked.leave (g := .irq n) hsaved' hring hss
        (hesp ▸ leave_irq _ _ n)
      refine ⟨_, ?_, hinv, fun c hc => ?_, ⟨call', rest', hsaved'.calls, hresumed, hrest⟩, hinv.esp0⟩
      · rw [Machine.ret, hcalls]
        dsimp only
        rw [hgo]
        rfl
      · rw [hhead] at hc
        obtain rfl := Option.some.inj hc
        rw [if_pos (congrArg (fun n => some (Gate.irq n)) hn)]
        exact hswitch.next
    · have hgo : irqHandler m.sched r = some (m.sched, r) := by
        rw [irqHandler, if_neg]
        rw [hnumber, number_eq_iff]
        exact hn
      obtain ⟨hinv, hresumes⟩ := hsame { m.cpu with eax := r, esp := r - 4#32 } hring hss
        (fun heq => hn (Gate.irq.inj heq)) (leave_irq _ _ n)
      refine ⟨_, ?_, hinv, hresumes⟩
      rw [Machine.ret, hcalls]
      dsimp only
      rw [hgo]
      rfl

end Returns

/-! ## New tasks -/

section Create

variable {m : Machine} {b : Block} {name : List Byte} {entryPoint stack kstack : Word} {isUser : Bool} {t : ℕ}
  {call : Call}

theorem foldl_push_eq (ws : List Word) (p : (Word → Word) × Word) : ws.foldl push p = WordStack.pushes p.1 p.2 ws := by
  induction ws generalizing p with
  | nil => rfl
  | cons w ws ih => exact ih _

theorem createTask_kstackTop? (s : Sched) (t : ℕ) :
    (createTask s name entryPoint isUser stack kstack).kstackTop? t =
      if t = s.tasks.length then some ((if isUser then kstack else stack) + 4096#32) else s.kstackTop? t := by
  rw [Sched.kstackTop?, createTask]
  dsimp only
  rw [getElem?_createTask]
  cases isUser <;> rfl

/-- What `create_task` stores: the frame, on top of its stack. -/
theorem createTask_mem (name : List Byte) (kstack : Word) (s : Sched) : (createTask s name entryPoint isUser stack kstack).mem =
    (WordStack.pushes s.mem (stack + 4096#32) (initialFrame entryPoint (stack + 4096#32) isUser)).1 :=
  congrArg Prod.fst (foldl_push_eq _ _)

theorem createTask_esp? (s : Sched) (t : ℕ) : (createTask s name entryPoint isUser stack kstack).esp? t =
    if t = s.tasks.length then some (initialEsp stack isUser) else s.esp? t := by
  obtain ⟨task, htasks, -, hesp⟩ := @createTask_tasks s name entryPoint stack kstack isUser
  rw [Sched.esp?, htasks, getElem?_createTask, hesp]
  rfl

/-- The frames are in the blocks. -/
theorem Inv.bytes_subset (h : Inv m) (hcall : call ∈ m.calls t) : ∃ b ∈ m.blocks t, call.bytes ⊆ b.bytes := by
  by_cases ht : t = m.sched.current
  · subst ht
    obtain ⟨b, hb, hkstack, -⟩ := h.kstack
    obtain ⟨last, rest, hcalls⟩ := List.exists_cons_of_ne_nil (List.ne_nil_of_mem hcall)
    exact ⟨b, hb, ((h.running.kernel (h.ring0 hcalls)).2 b hkstack).2.bytes_subset hcall⟩
  · by_cases hlt : t < m.sched.tasks.length
    · obtain ⟨last, rest, hsaved, -⟩ := h.suspended t hlt ht
      obtain ⟨b, hb, hframes, -⟩ := hsaved.frames
      exact ⟨b, hb, hframes.bytes_subset (hsaved.calls ▸ hcall)⟩
    · rw [(h.blocks.none t (Nat.not_lt.mp hlt)).2] at hcall
      exact absurd hcall List.not_mem_nil

/-- The new frame. -/
theorem createTask_saved (htop : Block.top ⟨stack, 4096⟩ < 2 ^ 32) (s : Sched) :
    Frames (createTask s name entryPoint isUser stack kstack).mem ⟨stack, 4096⟩
      [⟨initialEsp stack isUser, none, initialRegs entryPoint (stack + 4096#32) isUser⟩] := by
  have hlen : 4 * (initialFrame entryPoint (stack + 4096#32) isUser).length =
      frameSize (initialRegs entryPoint (stack + 4096#32) isUser) := by
    rw [initialFrame_eq, List.length_reverse, length_frame]
  have hsize : frameSize (initialRegs entryPoint (stack + 4096#32) isUser) = if isUser then 64 else 56 := by
    rw [frameSize, user_initialRegs]
  have hesp : initialEsp stack isUser = stack + 4096#32 -
      BitVec.ofNat 32 (frameSize (initialRegs entryPoint (stack + 4096#32) isUser)) := by
    rw [hsize, initialEsp]
    cases isUser <;> rfl
  change stack.toNat + 4096 < 2 ^ 32 at htop
  have hup : (stack + 4096#32).toNat = stack.toNat + 4096 := WordStack.toNat_add_ofNat (k := 4096) htop
  have hle := frameSize_le (initialRegs entryPoint (stack + 4096#32) isUser)
  have hr : (initialEsp stack isUser).toNat =
      stack.toNat + 4096 - frameSize (initialRegs entryPoint (stack + 4096#32) isUser) := by
    rw [hesp, ← hup]
    exact WordStack.toNat_sub_ofNat (by omega)
  refine ⟨⟨0#32, ?_⟩, ?_, ?_, ?_⟩
  · have hholds := WordStack.holds_pushes s.mem (stack + 4096#32)
      (hlen.trans_le (hle.trans (by omega)))
    rwa [WordStack.pushes_sp, hlen, ← hesp, ← createTask_mem name kstack, initialFrame_eq,
      List.reverse_reverse] at hholds
  · dsimp only
    omega
  · change _ ≤ stack.toNat + 4096
    dsimp only
    omega
  · rw [user_initialRegs]
    cases isUser with
    | true => exact ⟨show kernelSegment 0x23#16 = false by decide, rfl⟩
    | false =>
      refine ⟨rfl, (BitVec.sub_add_cancel (stack + 4096#32) 56#32).symm, ⟨?_, ?_⟩, trivial⟩
      · change stack.toNat ≤ (stack + 4096#32).toNat
        omega
      · exact hup.le

/-- `create_task` stores in its new block. -/
theorem createTask_spared (name : List Byte) (entryPoint kstack : Word) (isUser : Bool) (h : Inv m)
    (hunused : m.Unused ⟨stack, 4096⟩) (t : ℕ) :
    Spared m.sched.mem (createTask m.sched name entryPoint isUser stack kstack).mem (m.calls t) := by
  rw [createTask_mem]
  refine spared_pushes fun call hcall => ?_
  obtain ⟨b', hb', hsub⟩ := h.bytes_subset hcall
  refine ((hunused.2 t b' hb').mono_left ?_).mono_right hsub
  have htop : stack.toNat + 4096 < 2 ^ 32 := hunused.1
  have hup : (stack + 4096#32).toNat = stack.toNat + 4096 := WordStack.toNat_add_ofNat (k := 4096) htop
  have hlen : 4 * (initialFrame entryPoint (stack + 4096#32) isUser).length ≤ 64 := by
    rw [length_initialFrame]
    split <;> omega
  have hlow := WordStack.toNat_sub_ofNat (a := stack + 4096#32)
    (k := 4 * (initialFrame entryPoint (stack + 4096#32) isUser).length) (by omega)
  exact WordStack.span_subset_span (by dsimp only; omega) (by dsimp only; omega)

theorem Inv.create (h : Inv m) (ha : Allowed m (.createTask name entryPoint isUser stack kstack)) :
    Inv (m.create name entryPoint isUser stack kstack) := by
  obtain ⟨hstack, hkstack⟩ := ha
  have hlt := h.wf.current
  have hlength : (m.create name entryPoint isUser stack kstack).sched.tasks.length = m.sched.tasks.length + 1 := by
    obtain ⟨task, htasks, -⟩ := @createTask_tasks m.sched name entryPoint stack kstack isUser
    rw [Machine.create, htasks, List.length_append, List.length_singleton]
  have hcalls : ∀ t ≠ m.sched.tasks.length, (m.create name entryPoint isUser stack kstack).calls t = m.calls t :=
    fun t ht => Function.update_of_ne ht _ _
  have hblocks : ∀ t ≠ m.sched.tasks.length, (m.create name entryPoint isUser stack kstack).blocks t = m.blocks t :=
    fun t ht => Function.update_of_ne ht _ _
  have hnew : (m.create name entryPoint isUser stack kstack).blocks m.sched.tasks.length =
      if isUser then [⟨kstack, 4096⟩, ⟨stack, 4096⟩] else [⟨stack, 4096⟩] := Function.update_self _ _ _
  -- the new blocks are unused
  have hunused : ∀ b ∈ (m.create name entryPoint isUser stack kstack).blocks m.sched.tasks.length,
      m.Unused b := by
    rw [hnew]
    cases isUser with
    | true =>
      rw [if_pos rfl]
      rintro b hb
      rcases List.mem_cons.mp hb with rfl | hb
      · exact hkstack rfl
      · exact List.mem_singleton.mp hb ▸ hstack
    | false =>
      rw [if_neg Bool.false_ne_true]
      exact fun b hb => List.mem_singleton.mp hb ▸ hstack
  have hspared := createTask_spared name entryPoint kstack isUser h hstack
  have hcur := hcalls _ hlt.ne
  refine ⟨⟨h.wf.createTask .., ?_, ⟨fun t ht => ?_, fun t ht => ?_, fun t b hb => ?_, fun t t' hne b hb b' hb' => ?_⟩,
    fun t ht hne => ?_⟩, fun hring => ?_, fun hring => ?_, ?_⟩
  · exact (createTask_kstackTop? _ _).trans ((if_neg hlt.ne).trans h.esp0)
  · -- the kernel stack of the new task, and those of the others
    by_cases heq : t = m.sched.tasks.length
    · subst heq
      have htop := (@createTask_kstackTop? name entryPoint stack kstack isUser m.sched
        m.sched.tasks.length).trans (if_pos rfl)
      rw [hnew]
      cases isUser with
      | true => exact ⟨_, _, rfl, le_rfl, htop⟩
      | false => exact ⟨_, _, rfl, le_rfl, htop⟩
    · obtain ⟨b, bs, hb, hsize, htop⟩ := h.blocks.kstack t (by omega)
      exact ⟨b, bs, (hblocks t heq).trans hb, hsize,
        (createTask_kstackTop? _ _).trans ((if_neg heq).trans htop)⟩
  · rw [hcalls t (by omega), hblocks t (by omega)]
    exact h.blocks.none t (by omega)
  · by_cases heq : t = m.sched.tasks.length
    · subst heq
      exact (hunused b hb).1
    · exact h.blocks.top t b (hblocks t heq ▸ hb)
  · by_cases heq : t = m.sched.tasks.length
    · subst heq
      exact (hunused b hb).2 t' b' (hblocks t' hne.symm ▸ hb')
    · rw [hblocks t heq] at hb
      by_cases heq' : t' = m.sched.tasks.length
      · subst heq'
        exact ((hunused b' hb').2 t b hb).symm
      · exact h.blocks.disjoint t t' hne b hb b' (hblocks t' heq' ▸ hb')
  · by_cases heq : t = m.sched.tasks.length
    · subst heq
      refine ⟨_, [], ⟨Function.update_self _ _ _, fun c hc => absurd hc List.not_mem_nil, ⟨stack, 4096⟩, ?_,
        createTask_saved hstack.1 m.sched, fun hring => ?_⟩, (createTask_esp? _ _).trans (if_pos rfl)⟩
      · rw [hnew]
        split
        · exact List.mem_cons_of_mem _ List.mem_cons_self
        · exact List.mem_cons_self
      · rw [user_initialRegs] at hring
        rw [hnew, if_neg (Bool.eq_false_iff.mp hring)]
        rfl
    · obtain ⟨call, rest, hsaved, hesp⟩ := h.suspended t (by omega) hne
      exact ⟨call, rest, hsaved.kept (hcalls t heq) (hblocks t heq) (hspared t),
        (createTask_esp? _ _).trans ((if_neg heq).trans hesp)⟩
  · exact ⟨hcur.trans (h.running.user hring).1, (h.running.user hring).2⟩
  · obtain ⟨hss, hkernel⟩ := h.running.kernel hring
    refine ⟨hss, fun b hb => ?_⟩
    have hb' : b ∈ m.kstack := by
      rw [Machine.kstack, ← hblocks _ hlt.ne]
      exact hb
    obtain ⟨hbelow, hframes⟩ := hkernel b hb'
    have hkept := hframes.spared (hspared m.sched.current)
    rw [← hcur] at hbelow hkept
    exact ⟨hbelow, hkept⟩
  · have hgates := h.running.gates
    rwa [← hcur] at hgates

end Create

/-! ## Runs -/

section Runs

variable {m m' : Machine} {s : Sched} {e : Machine.Event} {es : List Machine.Event} {task : Tcb} {stackBottom : Word}
  {cpu : Cpu} {mem : Word → Word}

/-- The state of a task is no part of its frames. -/
theorem Inv.setState (h : Inv m) {t : ℕ} {state : Net.TaskState} (hwf : Wf (m.sched.setState t state)) :
    Inv { m with sched := m.sched.setState t state } := by
  refine ⟨⟨hwf, (kstackTop?_setState _ _ _ _).trans h.esp0,
    h.blocks.kept (length_setState _ _ _) (fun i => kstackTop?_setState _ _ _ i) rfl fun _ _ => rfl,
    fun i hlt hne => ?_⟩, h.running.user, h.running.kernel, h.running.gates⟩
  obtain ⟨call, rest, hsaved, hesp⟩ := h.suspended i ((length_setState m.sched t state) ▸ hlt) hne
  exact ⟨call, rest, hsaved.kept rfl rfl fun _ _ _ _ hw => hw, (esp?_setState _ _ _ _).trans hesp⟩

/-- What is allowed can be done, and keeps the invariant. -/
theorem Inv.step (h : Inv m) (ha : Allowed m e) : ∃ m', m.step e = some m' ∧ Inv m' := by
  cases e with
  | code cpu stores => exact ⟨_, rfl, h.code ha⟩
  | interrupt g => exact ⟨_, rfl, h.interrupt ha⟩
  | setResult v => exact ⟨_, rfl, h.setResult v⟩
  | ret =>
    obtain ⟨m', hret, hinv, -⟩ := h.ret ha
    exact ⟨m', hret, hinv⟩
  | createTask name entryPoint isUser stack kstack => exact ⟨_, rfl, h.create ha⟩
  | taskExit =>
    refine ⟨_, rfl, ?_⟩
    have hwf := h.wf.taskExit
    unfold taskExit at hwf ⊢
    split at hwf
    · next hid =>
      rw [if_pos hid]
      exact h
    · next hid =>
      rw [if_neg hid]
      exact h.setState hwf
  | goToSleep =>
    refine ⟨_, rfl, ?_⟩
    unfold goToSleep
    by_cases halive : m.sched.alive m.sched.current = true
    · rw [if_pos halive]
      exact h.setState (h.wf.setState fun _ => Net.TaskState.noConfusion)
    · rw [if_neg halive]
      exact h
  | wake t => exact ⟨_, rfl, h.setState (h.wf.setState fun _ => Net.TaskState.noConfusion)⟩

/-- The kernel task runs on the stack of 16 KB. -/
theorem inv_boot (hcs : cpu.cs = 0x08#16) (hss : cpu.ss = 0x10#16) (htop : stackBottom.toNat + 16384 < 2 ^ 32)
    (hlow : stackBottom.toNat ≤ cpu.esp.toNat) (hhigh : cpu.esp.toNat ≤ stackBottom.toNat + 16384) :
    Inv (Machine.boot task stackBottom cpu mem) := by
  have hring : cpu.user = false := by
    rw [Cpu.user, hcs]
    rfl
  have hblocks : ∀ t b, b ∈ (Machine.boot task stackBottom cpu mem).blocks t → t = 0 ∧ b = ⟨stackBottom, 16384⟩ := by
    intro t b hb
    change b ∈ (if t = 0 then _ else _) at hb
    split at hb
    · next ht => exact ⟨ht, List.mem_singleton.mp hb⟩
    · exact absurd hb List.not_mem_nil
  refine ⟨⟨wf_init _ _ _ _, rfl, ⟨fun t ht => ?_, fun t ht => ?_, fun t b hb => ?_, fun t t' hne b hb b' hb' => ?_⟩,
    fun t ht hne => ?_⟩, fun huser => ?_, fun _ => ⟨hss, fun b hb => ?_⟩, fun c hc => absurd hc List.not_mem_nil⟩
  · obtain rfl : t = 0 := Nat.lt_one_iff.mp ht
    exact ⟨⟨stackBottom, 16384⟩, [], rfl, show 4096 ≤ 16384 by decide, rfl⟩
  · have hne : t ≠ 0 := Nat.one_le_iff_ne_zero.mp ht
    exact ⟨if_neg hne, rfl⟩
  · obtain ⟨-, rfl⟩ := hblocks t b hb
    exact htop
  · exact absurd ((hblocks t b hb).1.trans (hblocks t' b' hb').1.symm) hne
  · exact absurd (Nat.lt_one_iff.mp ht) hne
  · exact absurd huser (Bool.eq_false_iff.mp hring)
  · obtain rfl : (⟨stackBottom, 16384⟩ : Block) = b := Option.some.inj hb
    exact ⟨⟨hlow, hhigh⟩, trivial⟩

end Runs

/-- **Switching tasks is transparent.** In any run of the tasks and their interrupts, whatever order they come
in, each return of a handler goes on: it gives the task that runs next, the current one or after a timer
interrupt the next that is not dead, the registers that its last interrupt found, or for a new task those it
begins in, with the result of a system call in `eax` and `ds` in the other data segments; the interrupts of the
other tasks are still to return. -/
theorem returns_resume (task : Tcb) (stackBottom : Word) (cpu : Cpu) (mem : Word → Word)
    (hcs : cpu.cs = 0x08#16) (hss : cpu.ss = 0x10#16) (htop : stackBottom.toNat + 16384 < 2 ^ 32)
    (hlow : stackBottom.toNat ≤ cpu.esp.toNat) (hhigh : cpu.esp.toNat ≤ stackBottom.toNat + 16384)
    (es : List Machine.Event) (ha : Permits Machine.step Allowed (Machine.boot task stackBottom cpu mem) es) :
    ∃ m, (Machine.boot task stackBottom cpu mem).run es = some m ∧
      (m.calls m.sched.current ≠ [] → ∃ m', m.step .ret = some m' ∧ Resumes m m') := by
  obtain ⟨m, hrun, hinv⟩ := ha.run (fun h ha => h.step ha) (inv_boot hcs hss htop hlow hhigh)
  refine ⟨m, hrun, fun hcalls => ?_⟩
  obtain ⟨m', hret, -, hresumes⟩ := hinv.ret hcalls
  exact ⟨m', hret, hresumes⟩

/-- The kernel after boot, on the stack of the shell. -/
def shellMachine : Machine :=
  .boot zeroTask 0xC0200000#32 (initialRegs 0xC0101000#32 0xC0203F00#32 false) fun _ => 0#32

/-- `run` starts a program, and the timer interrupts the shell. -/
def firstTick : List Machine.Event :=
  [.createTask [0x61#8] 0x08048000#32 true 0xC0300000#32 0xC0302000#32, .interrupt (.irq 0)]

/-- Blocks of the heap are away from the stack of the shell. -/
theorem shellMachine_unused {base : Word} (htop : base.toNat + 4096 < 2 ^ 32)
    (hbase : (0xC0200000#32).toNat + 16384 ≤ base.toNat) : shellMachine.Unused ⟨base, 4096⟩ := by
  refine ⟨htop, fun t b hb => ?_⟩
  change b ∈ (if t = 0 then _ else _) at hb
  split at hb
  · rw [List.mem_singleton.mp hb]
    exact (WordStack.disjoint_span hbase htop.le).symm
  · exact absurd hb List.not_mem_nil

theorem firstTick_permitted : Permits Machine.step Allowed shellMachine firstTick := by
  refine ⟨⟨?_, fun _ => ?_⟩, fun m hm => ⟨?_, fun _ _ => trivial⟩⟩
  · exact shellMachine_unused (by decide) (by decide)
  · exact shellMachine_unused (by decide) (by decide)
  · obtain rfl := Option.some.inj hm
    intro _ b hb
    obtain rfl : (⟨0xC0200000#32, 16384⟩ : Block) = b := Option.some.inj hb
    show (0xC0200000#32).toNat + 60 ≤ (0xC0203F00#32).toNat
    decide

/-- The shell's registers are saved, and the program begins. -/
theorem returns_resume_firstTick :
    ∃ m m', shellMachine.run firstTick = some m ∧ m.step .ret = some m' ∧ Resumes m m' ∧
      m'.sched.current = 1 ∧ m'.cpu = (initialRegs 0x08048000#32 0xC0301000#32 true).resumed := by
  obtain ⟨m, hrun, hreturn⟩ := returns_resume zeroTask 0xC0200000#32
    (initialRegs 0xC0101000#32 0xC0203F00#32 false) (fun _ => 0#32) rfl rfl (by decide) (by decide) (by decide)
    firstTick firstTick_permitted
  obtain ⟨call, hcalls, hgate⟩ : ∃ call, m.calls m.sched.current = [call] ∧ call.gate = some (.irq 0) := by
    obtain rfl := Option.some.inj hrun
    exact ⟨_, rfl, rfl⟩
  obtain ⟨hprogram, hnext⟩ : m.calls 1 = [⟨initialEsp 0xC0300000#32 true, none,
      initialRegs 0x08048000#32 0xC0301000#32 true⟩] ∧
      (after m.sched.tasks.length m.sched.current).find? m.sched.alive = some 1 := by
    obtain rfl := Option.some.inj hrun
    exact ⟨rfl, by decide⟩
  obtain ⟨m', hret, hresumes⟩ := hreturn (by simp [hcalls])
  have hcurrent : m'.sched.current = 1 := by
    have hfound := hresumes.current call (by rw [hcalls]; rfl)
    rw [if_pos hgate, hnext] at hfound
    exact (Option.some.inj hfound).symm
  obtain ⟨call', rest, hlast, hcpu, -⟩ := hresumes.resumed
  rw [hcurrent, hprogram, List.cons.injEq] at hlast
  rw [← hlast.1] at hcpu
  exact ⟨m, m', hrun, hret, hresumes, hcurrent, hcpu⟩

end PekerOS.Proc
