import PekerOS.Lib.WordStack
import PekerOS.Proc.Scheduling

/-!
# The interrupt stubs

The processor takes an interrupt through a gate of the IDT: from ring 3 it goes on on the stack that the
TSS names, from ring 0 on the one it is on. The stubs of `boot.s` save the other registers, as a
`struct registers`, and restore them from the one that `esp` is at when the handler has returned.

`eip` is not followed through the stubs, and the arithmetic flags, which `iret` replaces, stay as they are
there; the call of the handler, with its return address, is part of the handler. The stubs of the
exceptions, which end in a panic, are left out.

## Main definitions

* `Cpu`, `Core`: the registers, and with the memory
* `Instr`, `exec`: the instructions of the stubs
* `Gate`: `irq0` to `irq15`, and `int80_handler`
* `deliver`: an interrupt
* `frame`: what is on the stack while an interrupt is handled

## Main results

* `enter_spec`: the stub leaves the frame of the registers that were interrupted
* `restore_spec`: a frame gives back its registers
* `initialFrame_eq`: a new task's frame is that of a task interrupted at its entry point
-/

namespace PekerOS.Proc

/-! ## The processor -/

/-- The registers. -/
structure Cpu where
  eax : Word
  ecx : Word
  edx : Word
  ebx : Word
  esp : Word
  ebp : Word
  esi : Word
  edi : Word
  eip : Word
  eflags : Word
  cs : BitVec 16
  ss : BitVec 16
  ds : BitVec 16
  es : BitVec 16
  fs : BitVec 16
  gs : BitVec 16

/-- The registers and the memory. -/
structure Core where
  cpu : Cpu
  mem : Word → Word

/-- The code segment is one of ring 3. -/
def Cpu.user (c : Cpu) : Bool := c.cs &&& 3#16 = 3#16

/-- The second and third entry of the GDT, whose privilege level is 0. -/
def kernelSegment (sel : BitVec 16) : Bool := sel >>> 3 = 1#16 ∨ sel >>> 3 = 2#16

inductive Seg
  | ds | es | fs | gs

/-- The instructions of the stubs. -/
inductive Instr
  | push (w : Word)
  | pusha
  /-- `xor eax, eax` -/
  | clearEax
  /-- `mov ax, ds` -/
  | movAxDs
  | movAx (sel : BitVec 16)
  /-- `mov ds, ax`, and so on -/
  | movSeg (seg : Seg)
  | pushEax
  | pushEsp
  | popEax
  /-- `mov esp, eax` -/
  | movEspEax
  | addEsp (w : Word)
  | popa
  | iret

namespace Core

def push (c : Core) (w : Word) : Core :=
  { cpu := { c.cpu with esp := c.cpu.esp - 4#32 }
    mem := Function.update c.mem (c.cpu.esp - 4#32) w }

def pushAll (c : Core) (ws : List Word) : Core := ws.foldl push c

/-- `mov ax, sel` -/
def setAx (c : Core) (sel : BitVec 16) : Core :=
  { c with cpu := { c.cpu with eax := c.cpu.eax.extractLsb' 16 16 ++ sel } }

/-- `mov seg, ax` -/
def setSeg (c : Core) (seg : Seg) : Core :=
  let sel := c.cpu.eax.extractLsb' 0 16
  { c with cpu := match seg with
    | .ds => { c.cpu with ds := sel }
    | .es => { c.cpu with es := sel }
    | .fs => { c.cpu with fs := sel }
    | .gs => { c.cpu with gs := sel } }

/-- `popa`, which skips the stack pointer. -/
def popa (c : Core) : Core :=
  let edi := c.cpu.esp
  let esi := edi + 4#32
  let ebp := esi + 4#32
  let esp := ebp + 4#32
  let ebx := esp + 4#32
  let edx := ebx + 4#32
  let ecx := edx + 4#32
  let eax := ecx + 4#32
  { c with cpu := { c.cpu with
    edi := c.mem edi
    esi := c.mem esi
    ebp := c.mem ebp
    ebx := c.mem ebx
    edx := c.mem edx
    ecx := c.mem ecx
    eax := c.mem eax
    esp := eax + 4#32 } }

/-- A data segment register after a return to ring 3: a segment of the kernel is taken away. -/
def checked (sel : BitVec 16) : BitVec 16 := if kernelSegment sel then 0#16 else sel

/-- `iret`, which loads the stack pointer too if it leaves ring 0. -/
def iret (c : Core) : Core :=
  let eip := c.cpu.esp
  let cs := eip + 4#32
  let eflags := cs + 4#32
  let esp := eflags + 4#32
  let ss := esp + 4#32
  let cpu := { c.cpu with
    eip := c.mem eip
    cs := (c.mem cs).extractLsb' 0 16
    eflags := c.mem eflags }
  if cpu.user && !c.cpu.user then
    { c with cpu := { cpu with
      esp := c.mem esp
      ss := (c.mem ss).extractLsb' 0 16
      ds := checked cpu.ds
      es := checked cpu.es
      fs := checked cpu.fs
      gs := checked cpu.gs } }
  else { c with cpu := { cpu with esp := esp } }

end Core

/-- An instruction. -/
def exec (c : Core) : Instr → Core
  | .push w => c.push w
  | .pusha => c.pushAll [c.cpu.eax, c.cpu.ecx, c.cpu.edx, c.cpu.ebx, c.cpu.esp, c.cpu.ebp, c.cpu.esi, c.cpu.edi]
  | .clearEax => { c with cpu := { c.cpu with eax := 0#32 } }
  | .movAxDs => c.setAx c.cpu.ds
  | .movAx sel => c.setAx sel
  | .movSeg seg => c.setSeg seg
  | .pushEax => c.push c.cpu.eax
  | .pushEsp => c.push c.cpu.esp
  | .popEax => { c with cpu := { c.cpu with eax := c.mem c.cpu.esp, esp := c.cpu.esp + 4#32 } }
  | .movEspEax => { c with cpu := { c.cpu with esp := c.cpu.eax } }
  | .addEsp w => { c with cpu := { c.cpu with esp := c.cpu.esp + w } }
  | .popa => c.popa
  | .iret => c.iret

def execAll (c : Core) (is : List Instr) : Core := is.foldl exec c

/-! ## The stubs -/

/-- `irq0` to `irq15`, and `int80_handler`. -/
inductive Gate
  | irq (n : Fin 16)
  | int80
  deriving DecidableEq

/-- `int_no` -/
def Gate.number : Gate → Word
  | .irq n => 32#32 + BitVec.ofNat 32 n
  | .int80 => 128#32

/-- The part of a stub before the call of the handler. -/
def Gate.enter (g : Gate) : List Instr :=
  [.push 0#32, .push g.number, .pusha, .clearEax, .movAxDs, .pushEax, .movAx 0x10#16, .movSeg .ds, .movSeg .es,
    .movSeg .fs, .movSeg .gs, .pushEsp]

/-- The end of a stub. -/
def restore : List Instr :=
  [.popEax, .movSeg .ds, .movSeg .es, .movSeg .fs, .movSeg .gs, .popa, .addEsp 8#32, .iret]

/-- The part of a stub after the call of the handler. -/
def Gate.leave : Gate → List Instr
  | .irq _ => .movEspEax :: restore
  | .int80 => .addEsp 4#32 :: restore

/-- The processor takes an interrupt, through a gate to the code segment 0x08 that clears the flags `TF`,
`IF`, `NT`, `RF` and `VM`; `ss0` is 0x10. -/
def deliver (esp0 : Word) (c : Core) : Core :=
  let start := if c.cpu.user then
      Core.pushAll { c with cpu := { c.cpu with esp := esp0, ss := 0x10#16 } }
        [0#16 ++ c.cpu.ss, c.cpu.esp]
    else c
  let c' := start.pushAll [c.cpu.eflags, 0#16 ++ c.cpu.cs, c.cpu.eip]
  { c' with cpu := { c'.cpu with cs := 0x08#16, eflags := c.cpu.eflags &&& 0xFFFCBCFF#32 } }

/-! ## The frame -/

/-- `struct registers`, and what the processor has pushed before it; `skip` is the stack pointer of
`pusha`. -/
def frame (regs : Cpu) (number skip : Word) : List Word :=
  [0#16 ++ regs.ds, regs.edi, regs.esi, regs.ebp, skip, regs.ebx, regs.edx, regs.ecx, regs.eax, number, 0#32,
    regs.eip, 0#16 ++ regs.cs, regs.eflags] ++ if regs.user then [regs.esp, 0#16 ++ regs.ss] else []

/-- The bytes of a frame. -/
def frameSize (regs : Cpu) : ℕ := if regs.user then 64 else 56

/-- The registers after the return: the data segments have all been loaded from `ds`. -/
def Cpu.resumed (c : Cpu) : Cpu := { c with es := c.ds, fs := c.ds, gs := c.ds }

/-- The stack on which an interrupt is handled. -/
def handlerStack (esp0 : Word) (c : Cpu) : Word := if c.user then esp0 else c.esp

/-- The registers in which a new task begins. -/
def initialRegs (entryPoint stackTop : Word) (isUser : Bool) : Cpu where
  eax := 0#32
  ecx := 0#32
  edx := 0#32
  ebx := 0#32
  esp := stackTop
  ebp := 0#32
  esi := 0#32
  edi := 0#32
  eip := entryPoint
  eflags := 0x202#32
  cs := if isUser then 0x1B#16 else 0x08#16
  ss := if isUser then 0x23#16 else 0x10#16
  ds := if isUser then 0x23#16 else 0x10#16
  es := if isUser then 0x23#16 else 0x10#16
  fs := if isUser then 0x23#16 else 0x10#16
  gs := if isUser then 0x23#16 else 0x10#16

section Frame

variable {c : Core} {regs : Cpu} {esp0 r number skip entryPoint stackTop : Word} {isUser : Bool} {g : Gate}

@[simp] theorem length_frame (regs : Cpu) (number skip : Word) :
    4 * (frame regs number skip).length = frameSize regs := by
  rw [frame, frameSize]
  cases regs.user <;> rfl

theorem frameSize_le (regs : Cpu) : frameSize regs ≤ 64 := by
  rw [frameSize]
  split <;> omega

theorem le_frameSize (regs : Cpu) : 56 ≤ frameSize regs := by
  rw [frameSize]
  split <;> omega

@[simp] theorem user_initialRegs : (initialRegs entryPoint stackTop isUser).user = isUser := by
  cases isUser <;> simp [initialRegs, Cpu.user]

/-- `create_task` builds the frame of a task that was interrupted at its entry point. -/
theorem initialFrame_eq : initialFrame entryPoint stackTop isUser =
    (frame (initialRegs entryPoint stackTop isUser) 0#32 0#32).reverse := by
  cases isUser <;> simp [initialFrame, frame, initialRegs, Cpu.user]

/-! ## Entering -/

theorem pushAll_eq (c : Core) (ws : List Word) : c.pushAll ws =
    { cpu := { c.cpu with esp := (WordStack.pushes c.mem c.cpu.esp ws).2 }
      mem := (WordStack.pushes c.mem c.cpu.esp ws).1 } := by
  induction ws generalizing c with
  | nil => rfl
  | cons w ws ih => exact ih (c.push w)

/-- The part of a stub before the call, from what the processor has pushed on. -/
theorem execAll_enter (c : Core) (g : Gate) : execAll c g.enter =
    { cpu := { c.cpu with
        eax := 0x10#32
        ds := 0x10#16
        es := 0x10#16
        fs := 0x10#16
        gs := 0x10#16
        esp := c.cpu.esp - 48#32 }
      mem := (WordStack.pushes c.mem c.cpu.esp [0#32, g.number, c.cpu.eax, c.cpu.ecx, c.cpu.edx, c.cpu.ebx,
        c.cpu.esp - 8#32, c.cpu.ebp, c.cpu.esi, c.cpu.edi, 0#16 ++ c.cpu.ds, c.cpu.esp - 44#32]).1 } := by
  have hzero : BitVec.extractLsb' 16 16 0#32 = 0#16 := by decide
  have hsel : 0#16 ++ 0x10#16 = 0x10#32 := by decide
  simp only [Gate.enter, execAll, List.foldl_cons, List.foldl_nil, exec, Core.pushAll, Core.push, Core.setAx,
    Core.setSeg, WordStack.pushes, hzero, hsel, BitVec.extractLsb'_append_eq_left, BitVec.sub_sub]
  rfl

/-- What the processor pushes. -/
def delivered (c : Cpu) : List Word :=
  (if c.user then [0#16 ++ c.ss, c.esp] else []) ++ [c.eflags, 0#16 ++ c.cs, c.eip]

theorem deliver_eq (esp0 : Word) (c : Core) : deliver esp0 c =
    { cpu := { c.cpu with
        esp := (WordStack.pushes c.mem (handlerStack esp0 c.cpu) (delivered c.cpu)).2
        eflags := c.cpu.eflags &&& 0xFFFCBCFF#32
        cs := 0x08#16
        ss := if c.cpu.user then 0x10#16 else c.cpu.ss }
      mem := (WordStack.pushes c.mem (handlerStack esp0 c.cpu) (delivered c.cpu)).1 } := by
  simp only [deliver, pushAll_eq, handlerStack, delivered]
  cases c.cpu.user <;> rfl

theorem reverse_frame (regs : Cpu) (number skip : Word) : (frame regs number skip).reverse =
    delivered regs ++ [0#32, number, regs.eax, regs.ecx, regs.edx, regs.ebx, skip, regs.ebp, regs.esi, regs.edi,
      0#16 ++ regs.ds] := by
  rw [frame, delivered]
  cases regs.user <;> rfl

/-- When the handler is called, the frame of the interrupted registers is on the stack, with its address
as the argument; the processor is in ring 0. -/
theorem enter_spec (esp0 : Word) (c : Core) (g : Gate) : ∃ skip,
    (execAll (deliver esp0 c) g.enter).mem = (WordStack.pushes c.mem (handlerStack esp0 c.cpu)
      ((frame c.cpu g.number skip).reverse ++
        [handlerStack esp0 c.cpu - BitVec.ofNat 32 (frameSize c.cpu)])).1 ∧
    (execAll (deliver esp0 c) g.enter).cpu.esp =
      handlerStack esp0 c.cpu - BitVec.ofNat 32 (frameSize c.cpu) - 4#32 ∧
    (execAll (deliver esp0 c) g.enter).cpu.cs = 0x08#16 ∧
    (execAll (deliver esp0 c) g.enter).cpu.ss = if c.cpu.user then 0x10#16 else c.cpu.ss := by
  -- the stub pushes 44 bytes below what the processor has pushed
  have hr : handlerStack esp0 c.cpu - BitVec.ofNat 32 (frameSize c.cpu) =
      (WordStack.pushes c.mem (handlerStack esp0 c.cpu) (delivered c.cpu)).2 - 44#32 := by
    rw [WordStack.pushes_sp, BitVec.sub_sub]
    rw [frameSize, delivered]
    cases c.cpu.user <;> rfl
  refine ⟨(WordStack.pushes c.mem (handlerStack esp0 c.cpu) (delivered c.cpu)).2 - 8#32, ?_, ?_, ?_, ?_⟩ <;>
    rw [execAll_enter, deliver_eq]
  · rw [reverse_frame, List.append_assoc, WordStack.pushes_append, hr]
    simp only [List.cons_append, List.nil_append]
  · rw [hr, BitVec.sub_sub]
    rfl

/-- The frame is in memory, the argument of the handler is its address, and nothing else has been pushed. -/
theorem enter_frame (esp0 : Word) (c : Core) (g : Gate) : ∃ ws skip,
    (execAll (deliver esp0 c) g.enter).mem = (WordStack.pushes c.mem (handlerStack esp0 c.cpu) ws).1 ∧
    4 * ws.length = frameSize c.cpu + 4 ∧
    (execAll (deliver esp0 c) g.enter).mem (execAll (deliver esp0 c) g.enter).cpu.esp =
      handlerStack esp0 c.cpu - BitVec.ofNat 32 (frameSize c.cpu) ∧
    WordStack.Holds (execAll (deliver esp0 c) g.enter).mem
      (handlerStack esp0 c.cpu - BitVec.ofNat 32 (frameSize c.cpu)) (frame c.cpu g.number skip) := by
  obtain ⟨skip, hmem, hesp, -, -⟩ := enter_spec esp0 c g
  have hlen : 4 * ((frame c.cpu g.number skip).reverse ++
      [handlerStack esp0 c.cpu - BitVec.ofNat 32 (frameSize c.cpu)]).length = frameSize c.cpu + 4 := by
    rw [List.length_append, List.length_reverse, List.length_singleton, Nat.mul_add, length_frame]
  have hsize := frameSize_le c.cpu
  have hstack := WordStack.holds_pushes c.mem (handlerStack esp0 c.cpu) (hlen.trans_le (by omega))
  rw [WordStack.pushes_sp, hlen, List.reverse_append, List.reverse_reverse, List.reverse_singleton,
    List.singleton_append, BitVec.ofNat_add, ← BitVec.sub_sub, ← hmem] at hstack
  obtain ⟨harg, hframe⟩ := hstack
  refine ⟨_, skip, hmem, hlen, ?_, ?_⟩
  · rw [hesp]
    exact harg
  · rwa [BitVec.sub_add_cancel] at hframe

/-! ## Leaving -/

theorem leave_irq (cpu : Cpu) (mem : Word → Word) (n : Fin 16) : execAll ⟨cpu, mem⟩ (Gate.irq n).leave =
    execAll ⟨{ cpu with esp := cpu.eax }, mem⟩ restore := by
  rw [Gate.leave, execAll, List.foldl_cons, execAll, exec]

theorem leave_int80 (cpu : Cpu) (mem : Word → Word) (r : Word) (h : cpu.esp = r - 4#32) :
    execAll ⟨cpu, mem⟩ Gate.int80.leave = execAll ⟨{ cpu with esp := r }, mem⟩ restore := by
  rw [Gate.leave, execAll, List.foldl_cons, execAll, exec]
  dsimp only
  rw [h, BitVec.sub_add_cancel]

/-- The registers up to the error code are popped. -/
theorem execAll_pops (hframe : WordStack.Holds c.mem c.cpu.esp [0#16 ++ regs.ds, regs.edi, regs.esi, regs.ebp, skip,
      regs.ebx, regs.edx, regs.ecx, regs.eax, number, 0#32]) :
    execAll c [.popEax, .movSeg .ds, .movSeg .es, .movSeg .fs, .movSeg .gs, .popa, .addEsp 8#32] =
      { c with cpu := { regs.resumed with
        esp := c.cpu.esp + 44#32
        eip := c.cpu.eip
        eflags := c.cpu.eflags
        cs := c.cpu.cs
        ss := c.cpu.ss } } := by
  simp only [WordStack.Holds, BitVec.add_assoc, BitVec.reduceAdd] at hframe
  obtain ⟨hds, hedi, hesi, hebp, -, hebx, hedx, hecx, heax, -⟩ := hframe
  simp only [execAll, List.foldl_cons, List.foldl_nil, exec, Core.setSeg, Core.popa, BitVec.add_assoc,
    BitVec.reduceAdd, hds, hedi, hesi, hebp, hebx, hedx, hecx, heax, BitVec.extractLsb'_append_eq_right]
  rfl

/-- What `iret` loads. -/
theorem iret_spec {mem : Word → Word} {esp eip eflags : Word} {cs ss : BitVec 16} (hcs : cs &&& 3#16 ≠ 3#16)
    (hframe : WordStack.Holds mem esp ([regs.eip, 0#16 ++ regs.cs, regs.eflags] ++
      if regs.user then [regs.esp, 0#16 ++ regs.ss] else []))
    (huser : regs.user = true → kernelSegment regs.ds = false)
    (hkernel : regs.user = false → regs.esp = esp + 12#32 ∧ regs.ss = ss) :
    Core.iret
      { cpu := { regs.resumed with
          esp := esp
          eip := eip
          eflags := eflags
          cs := cs
          ss := ss }
        mem := mem } =
      { cpu := regs.resumed, mem := mem } := by
  simp only [List.cons_append, List.nil_append, WordStack.Holds, BitVec.add_assoc, BitVec.reduceAdd] at hframe
  obtain ⟨heip, hcs', heflags, houter⟩ := hframe
  simp only [Core.iret, heip, hcs', heflags, BitVec.add_assoc, BitVec.reduceAdd, BitVec.extractLsb'_append_eq_right,
    Cpu.user, hcs, decide_false, Bool.not_false, Bool.and_true]
  cases hring : regs.user with
  | false =>
    obtain ⟨hesp, hss⟩ := hkernel hring
    rw [Cpu.user] at hring
    rw [if_neg (Bool.eq_false_iff.mp hring), ← hesp, ← hss]
    rfl
  | true =>
    rw [hring, if_pos rfl] at houter
    simp only [WordStack.Holds, BitVec.add_assoc, BitVec.reduceAdd] at houter
    obtain ⟨hesp, hss, -⟩ := houter
    have hds : Core.checked regs.ds = regs.ds := if_neg (by rw [huser hring]; decide)
    rw [Cpu.user] at hring
    rw [if_pos hring, hesp, hss, BitVec.extractLsb'_append_eq_right]
    simp only [Cpu.resumed, hds]

/-- **The end of a stub gives back the registers of the frame** that the stack pointer is at. In ring 0
there is no stack pointer in it: the one it had is above the frame. -/
theorem restore_spec (hcpu : c.cpu.user = false) (hframe : WordStack.Holds c.mem c.cpu.esp (frame regs number skip))
    (huser : regs.user = true → kernelSegment regs.ds = false)
    (hkernel : regs.user = false → regs.esp = c.cpu.esp + 56#32 ∧ regs.ss = c.cpu.ss) :
    execAll c restore = { c with cpu := regs.resumed } := by
  obtain ⟨hpops, hiret⟩ : WordStack.Holds c.mem c.cpu.esp [0#16 ++ regs.ds, regs.edi, regs.esi, regs.ebp, skip,
        regs.ebx, regs.edx, regs.ecx, regs.eax, number, 0#32] ∧
      WordStack.Holds c.mem (c.cpu.esp + 44#32) ([regs.eip, 0#16 ++ regs.cs, regs.eflags] ++
        if regs.user then [regs.esp, 0#16 ++ regs.ss] else []) :=
    WordStack.holds_append.mp hframe
  have hcs : c.cpu.cs &&& 3#16 ≠ 3#16 := by simpa [Cpu.user] using hcpu
  refine (congrArg Core.iret (execAll_pops hpops)).trans (iret_spec hcs hiret huser fun hring => ?_)
  rw [BitVec.add_assoc]
  exact hkernel hring

end Frame

end PekerOS.Proc
