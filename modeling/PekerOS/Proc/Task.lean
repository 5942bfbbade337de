import PekerOS.Lib.RoundRobin
import PekerOS.Net.Tcp
import PekerOS.Proc.Syscall

/-!
# Tasks and their scheduling

The list of tasks, of which none is ever unlinked, and `schedule_internal`, which the timer interrupt
and `schedule` call. A task is known by its position in the list. What the socket calls do to a task is
to put it to sleep, as the current task, and to wake it.

`page_dir`, which nothing sets or reads, and the prompt that `task_exit` prints are left out.

## Main definitions

* `Tcb`: a `task_t`
* `Sched`: the variables of `task.c`
* `createTask`, `scheduleInternal`, `taskExit`: the functions
* `Event`, `run`: interrupts, and calls of the current task
-/

namespace PekerOS.Proc

open Net (TaskState)

/-- `task_t`; `next` is the position in the list. -/
structure Tcb where
  id : Word
  name : List Byte
  esp : Word
  kstackTop : Word
  state : TaskState
  files : Task
  heapStart : Word
  heapEnd : Word

/-- The variables of `task.c`: `task_list`, `current_task`, which is never null once
`init_multitasking` has been called, and `next_pid`; the stack pointer in the TSS; and the words of
the stacks, by address. -/
structure Sched where
  tasks : List Tcb
  current : ℕ
  nextPid : Word
  esp0 : Word
  mem : Word → Word

/-- `init_multitasking`, the first call; `kmalloc` leaves the fields of the task as they are. -/
def initMultitasking (task : Tcb) (stackTop esp0 : Word) (mem : Word → Word) : Sched where
  tasks := [{ task with
    name := [0x6B#8, 0x65#8, 0x72#8, 0x6E#8, 0x65#8, 0x6C#8]
    state := .running
    id := 1#32
    kstackTop := stackTop }]
  current := 0
  nextPid := 2#32
  esp0 := esp0
  mem := mem

/-- `*(--esp) = w` -/
def push (m : (Word → Word) × Word) (w : Word) : (Word → Word) × Word :=
  (Function.update m.1 (m.2 - 4#32) w, m.2 - 4#32)

/-- The words that `create_task` pushes, as if the task had been interrupted. -/
def initialFrame (entryPoint stackTop : Word) (isUser : Bool) : List Word :=
  -- `ss` and `esp`
  (if isUser then [0x23#32, stackTop] else []) ++
    -- `eflags`, `cs`, `eip`
    [0x202#32, if isUser then 0x1B#32 else 0x08#32, entryPoint,
    -- the error code and the interrupt number
    0#32, 0#32,
    -- the registers of `pusha`, and `ds`
    0#32, 0#32, 0#32, 0#32, 0#32, 0#32, 0#32, 0#32, if isUser then 0x23#32 else 0x10#32]

/-- `esp` after these words have been pushed on the 4 KB from `stack` on. -/
def initialEsp (stack : Word) (isUser : Bool) : Word :=
  stack + 4096#32 - if isUser then 64#32 else 56#32

/-- `create_task`; `stack` and `kstack` are the blocks from `kmalloc`, the second one for a user task
only. -/
def createTask (s : Sched) (name : List Byte) (entryPoint : Word) (isUser : Bool)
    (stack kstack : Word) : Sched :=
  let stackTop := stack + 4096#32
  let (mem, esp) := (initialFrame entryPoint stackTop isUser).foldl push (s.mem, stackTop)
  { s with
    tasks := s.tasks ++ [{
      id := s.nextPid
      name := name.take 31
      esp := esp
      kstackTop := if isUser then kstack + 4096#32 else stackTop
      state := .ready
      files := newTask
      heapStart := 0x10000000#32
      heapEnd := 0x10000000#32 }]
    nextPid := s.nextPid + 1#32
    mem := mem }

namespace Sched

/-- A field of the task at a position, where there is one. -/
def state? (s : Sched) (t : ℕ) : Option TaskState := s.tasks[t]?.map (·.state)

def esp? (s : Sched) (t : ℕ) : Option Word := s.tasks[t]?.map (·.esp)

/-- `state != TASK_DEAD` -/
def alive (s : Sched) (t : ℕ) : Bool := s.state? t ≠ some .dead

def setState (s : Sched) (t : ℕ) (state : TaskState) : Sched :=
  { s with tasks := s.tasks.modify t fun task => { task with state := state } }

/-- The current task's stack pointer is saved. -/
def saveEsp (s : Sched) (esp : Word) : Sched :=
  { s with tasks := s.tasks.modify s.current fun task => { task with esp := esp } }

end Sched

/-- The search of `schedule_internal` in a list of `n` tasks, with a number of rounds; a null pointer
is a position past the end. `none` if it goes on. -/
def search (alive : ℕ → Bool) (n : ℕ) : ℕ → ℕ → Option ℕ
  | 0, _ => none
  | rounds + 1, next =>
    let next := if next < n then next else 0
    if alive next then some next else search alive n rounds (next + 1)

/-- `schedule_internal`, and the stack pointer it returns. The search gets a round for each task. -/
def scheduleInternal (s : Sched) (currentEsp : Word) : Option (Sched × Word) := do
  let s := s.saveEsp currentEsp
  let next ← search s.alive s.tasks.length s.tasks.length (s.current + 1)
  let task ← s.tasks[next]?
  return ({ s.setState next .running with current := next, esp0 := task.kstackTop }, task.esp)

/-- `task_exit`, up to its last loop. -/
def taskExit (s : Sched) : Sched :=
  if (s.tasks[s.current]?.map (·.id)) = some 1#32 then s else s.setState s.current .dead

/-- The current task goes to sleep, as in `socket_connect`, `socket_accept` and `socket_recvfrom`; one
that has exited makes no more calls. -/
def goToSleep (s : Sched) : Sched := if s.alive s.current then s.setState s.current .sleep else s

/-- The interrupt 0x20, from the timer or from `schedule`; and calls. -/
inductive Event
  | interrupt (esp : Word)
  | createTask (name : List Byte) (entryPoint : Word) (isUser : Bool) (stack kstack : Word)
  | taskExit
  | goToSleep
  | wake (t : ℕ)

/-- `none` if the search of `schedule_internal` goes on after a round for each task. -/
def step (s : Sched) : Event → Option Sched
  | .interrupt esp => (scheduleInternal s esp).map Prod.fst
  | .createTask name entryPoint isUser stack kstack =>
    some (createTask s name entryPoint isUser stack kstack)
  | .taskExit => some (taskExit s)
  | .goToSleep => some (goToSleep s)
  | .wake t => some (s.setState t .ready)

def run (s : Sched) (es : List Event) : Option Sched := es.foldlM step s

end PekerOS.Proc
