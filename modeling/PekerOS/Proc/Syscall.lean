import PekerOS.Lib.Run
import PekerOS.Fs.Pafs.Ops

/-!
# System calls on descriptors

The descriptor table of a task, the dispatch of `vfs_read` and `vfs_write` through the function
pointers of a node, and the system calls that use them. A call of a function that belongs to another
file system or to a socket does not touch PAFS; what it returns and stores is an argument of the
call.

## Main definitions

* `Task`: the descriptor table of a task and its offsets
* `vfsRead`, `vfsWrite`: dispatch
* `sysOpenNode`, `sysSocketNode`, `sysRead`, `sysWriteFd`, `sysClose`: the system calls
* `System`, `Event`, `sysStep`, `sysRun`: runs of all tasks over one file system
-/

namespace PekerOS

open Pafs (Kernel pafsVfsRead pafsVfsWrite)

/-- The descriptors of a `task_t`; a null node pointer is `none`. -/
structure Task where
  fdTable : Table 16 (Option VfsNode)
  fdOffset : Table 16 Word

/-- The descriptors of a task made by `create_task`. -/
def newTask : Task := ⟨Table.ofFn fun _ => none, Table.ofFn fun _ => 0#32⟩

/-- The value a system call leaves in `eax`, and the bytes it stores to the user's buffer or, for
descriptors 1 and 2, puts on the console. -/
structure Reply where
  eax : Word
  bytes : List Byte
deriving DecidableEq

/-- `vfs_read`; `other` is the outcome of a read function outside PAFS. -/
def vfsRead (k : Kernel) (node : VfsNode) (offset size : Word) (other : Reply) : Kernel × Reply :=
  match node.read with
  | none => (k, ⟨0#32, []⟩)
  | some .pafsVfsRead =>
    let (k, bytes) := pafsVfsRead k node.inode.toNat offset size
    (k, ⟨BitVec.ofNat 32 bytes.length, bytes⟩)
  -- outside PAFS
  | some .ext2Read | some .socketRead | some .ataReadDevice1 => (k, other)

/-- `vfs_write`; `other` is what a write function outside PAFS returns. -/
def vfsWrite (k : Kernel) (node : VfsNode) (offset size : Word) (buffer : ℕ → Byte)
    (other : Word) : Kernel × Word :=
  match node.write with
  | none => (k, 0#32)
  | some .pafsVfsWrite =>
    let (k, written) := pafsVfsWrite k node.inode.toNat offset size buffer
    (k, BitVec.ofNat 32 written)
  | some .socketWrite => (k, other)

namespace Task

/-- `current->fd_table[fd]` for a checked descriptor: `none` for one that the calls refuse. -/
def node? (t : Task) (fd : Word) : Option VfsNode :=
  if fd.toInt < 0 ∨ 16 ≤ fd.toInt then none else t.fdTable.get fd.toNat

/-- `if (n > 0 && current->fd_table[fd]->flags != VFS_SOCKET) current->fd_offset[fd] += n` -/
def advance (t : Task) (fd : Word) (node : VfsNode) (n : Word) : Task :=
  if 0 < n.toInt ∧ node.flags ≠ vfsSocket then
    { t with fdOffset := t.fdOffset.set fd.toNat (t.fdOffset.get fd.toNat + n) }
  else t

/-- The first free descriptor. -/
def freeFd (t : Task) : Option ℕ := (List.range 16).find? fun i => t.fdTable.get i = none

end Task

/-- `sys_open` once the path has given a node. -/
def sysOpenNode (t : Task) (node : VfsNode) : Task × Word :=
  match t.freeFd with
  | some i => (⟨t.fdTable.set i (some node), t.fdOffset.set i 0#32⟩, BitVec.ofNat 32 i)
  | none => (t, -1#32)

/-- `sys_socket` and `sys_accept` once they have a node: the offset is not reset. -/
def sysSocketNode (t : Task) (node : VfsNode) : Task × Word :=
  match t.freeFd with
  | some i => ({ t with fdTable := t.fdTable.set i (some node) }, BitVec.ofNat 32 i)
  | none => (t, -1#32)

/-- `sys_read` -/
def sysRead (k : Kernel) (t : Task) (fd size : Word) (other : Reply) : Kernel × Task × Reply :=
  match t.node? fd with
  | none => (k, t, ⟨-1#32, []⟩)
  | some node =>
    let (k, r) := vfsRead k node (t.fdOffset.get fd.toNat) size other
    (k, t.advance fd node r.eax, r)

/-- `sys_write_fd` -/
def sysWriteFd (k : Kernel) (t : Task) (fd size : Word) (buf : ℕ → Byte) (other : Word) :
    Kernel × Task × Reply :=
  -- descriptors 1 and 2 are the console, whatever the table says
  if fd = 1#32 ∨ fd = 2#32 then (k, t, ⟨size, (List.range size.toInt.toNat).map buf⟩)
  else
    match t.node? fd with
    | none => (k, t, ⟨-1#32, []⟩)
    | some node =>
      let (k, written) := vfsWrite k node (t.fdOffset.get fd.toNat) size buf other
      (k, t.advance fd node written, ⟨written, []⟩)

/-- `sys_close` -/
def sysClose (t : Task) (fd : Word) : Task × Word :=
  match t.node? fd with
  | none => (t, -1#32)
  | some _ => (⟨t.fdTable.set fd.toNat none, t.fdOffset.set fd.toNat 0#32⟩, 0#32)

/-! ## Runs -/

/-- One file system and the descriptors of every task. -/
structure System where
  kernel : Kernel
  task : ℕ → Task

/-- The pointers of a node as the kernel makes them: `pafs_vfs_finddir` sets both, on a node that is
no socket, and nothing else points to the functions of PAFS. -/
structure VfsNode.WellMade (node : VfsNode) : Prop where
  both : node.write = some .pafsVfsWrite ↔ node.read = some .pafsVfsRead
  flags : node.write = some .pafsVfsWrite → node.flags ≠ vfsSocket

/-- A node as `socket_create` makes it. -/
structure VfsNode.IsSocket (node : VfsNode) : Prop where
  read : node.read = some .socketRead
  write : node.write = some .socketWrite
  flags : node.flags = vfsSocket

/-- The PAFS calls that go by a name or take no argument. -/
def Pafs.Op.ByName : Pafs.Op → Prop
  | .vfsWrite .. => False
  | _ => True

/-- A call of PAFS by name, a new task, or a system call of task `pid`. `pafs_vfs_write` has one
caller, `sys_write_fd`. -/
inductive Event
  | pafs (op : Pafs.Op) (byName : op.ByName)
  | createTask (pid : ℕ)
  | openNode (pid : ℕ) (node : VfsNode) (made : node.WellMade)
  | socketNode (pid : ℕ) (node : VfsNode) (made : node.IsSocket)
  | read (pid : ℕ) (fd size : Word) (other : Reply)
  | writeFd (pid : ℕ) (fd size : Word) (buf : ℕ → Byte) (other : Word)
  | close (pid : ℕ) (fd : Word)

namespace System

def setTask (s : System) (pid : ℕ) (t : Task) : System :=
  { s with task := Function.update s.task pid t }

end System

/-- One event, with what the call leaves behind for its caller. -/
def sysStep (s : System) : Event → System × Reply
  | .pafs op _ => ({ s with kernel := Pafs.step s.kernel op }, ⟨0#32, []⟩)
  | .createTask pid => (s.setTask pid newTask, ⟨0#32, []⟩)
  | .openNode pid node _ =>
    let (t, eax) := sysOpenNode (s.task pid) node
    (s.setTask pid t, ⟨eax, []⟩)
  | .socketNode pid node _ =>
    let (t, eax) := sysSocketNode (s.task pid) node
    (s.setTask pid t, ⟨eax, []⟩)
  | .read pid fd size other =>
    let (k, t, r) := sysRead s.kernel (s.task pid) fd size other
    ({ s with kernel := k }.setTask pid t, r)
  | .writeFd pid fd size buf other =>
    let (k, t, r) := sysWriteFd s.kernel (s.task pid) fd size buf other
    ({ s with kernel := k }.setTask pid t, r)
  | .close pid fd =>
    let (t, eax) := sysClose (s.task pid) fd
    (s.setTask pid t, ⟨eax, []⟩)

def sysRun (s : System) (es : List Event) : System := es.foldl (fun s e => (sysStep s e).1) s

/-- The systems reached after `pafs_format` with no task yet. -/
def SysReachable (s : System) : Prop :=
  ∃ k es, s = sysRun ⟨Pafs.pafsFormat k, fun _ => newTask⟩ es

end PekerOS
