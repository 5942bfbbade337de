import PekerOS.Fs.Vfs.Leaks
import PekerOS.Net.Slots
import PekerOS.Lib.Run

/-!
# Descriptors and the nodes they hold

The system calls that put a node into the descriptor table of a task and take it out again, over the
heap that the nodes are on and the sockets. A descriptor holds the address of a node: one that a path
has led to, or one that `socket_create` has made for a slot. Nothing says how many descriptors hold a
node, and a freed node keeps its content.

What the calls return that neither make nor close a descriptor is left out, and so is what they read
and write.

## Main definitions

* `Entry`, `Fds`, `Files`: descriptors, the table of a task, and the tables of all tasks
* `sysOpen`, `sysSocket`, `sysAccept`, `sysClose`, …: the system calls
* `taskExit`: what `task_exit` does, or does not do, to them
* `Call`, `step`: calls of any task, and arrivals from the network, in any order
-/

namespace PekerOS.Fd

open Vfs (DirTree VfsState Handle)
open Net (NetState NetOp Keeps Port Ptr Packet Datagram TaskState sockStream socketCreate socketClose
  socketAccept socketRecvfrom fault)

variable {ι : Type}

/-- What a descriptor holds: the node of a file, or the node of a socket and the slot it points to. A descriptor
whose node another one has freed keeps both; that the memory may be allocated again, and be overwritten, is left
out. -/
inductive Entry (ι : Type)
  | file (h : Handle ι)
  | socket (addr slot : ℕ)

/-- The address of the node. -/
def Entry.addr : Entry ι → ℕ
  | .file h => h.addr
  | .socket addr _ => addr

/-- The descriptors of a `task_t`. -/
structure Fds (ι : Type) where
  fdTable : Table 16 (Option (Entry ι))
  fdOffset : Table 16 Word

/-- The descriptors of a task made by `create_task`. -/
def newFds : Fds ι := ⟨Table.ofFn fun _ => none, Table.ofFn fun _ => 0#32⟩

/-- The first free descriptor. -/
def Fds.freeFd (f : Fds ι) : Option ℕ := (List.range 16).find? fun i => (f.fdTable.get i).isNone

/-- The heap of nodes, the sockets with their buffers on the same heap, and the descriptors of the tasks.
Tasks are numbered in the order of their creation, the kernel's own is 0, and none is ever unlinked. -/
structure Files (ι : Type) where
  vfs : VfsState
  net : NetState
  /-- `buffer` of each slot. -/
  buffers : Table 32 (Option ℕ)
  fds : ℕ → Fds ι
  count : ℕ

namespace Files

variable (s : Files ι) (pid : ℕ)

def setFds (f : Fds ι) : Files ι := { s with fds := Function.update s.fds pid f }

/-- `fd_table[fd]` of a task. -/
def entry (fd : ℕ) : Option (Entry ι) := (s.fds pid).fdTable.get fd

/-- `current->fd_table[fd]` for a checked descriptor: `none` for one that the calls refuse. -/
def entry? (fd : Word) : Option (Entry ι) :=
  if fd.toInt < 0 ∨ 16 ≤ fd.toInt then none else s.entry pid fd.toNat

/-- The node and the slot of a descriptor that passes `flags != VFS_SOCKET` as well. -/
def socket? (fd : Word) : Option (ℕ × ℕ) :=
  match s.entry? pid fd with
  | some (.socket addr k) => some (addr, k)
  | _ => none

/-- A task that exists and has not exited. -/
def runs : Bool := pid < s.count && s.net.tasks pid ≠ .dead

end Files

/-! ## System calls -/

/-- `vfs_close`, for the nodes of the file systems and for `socket_close`. -/
def vfsClose (t₀ : DirTree ι) (s : Files ι) : Entry ι → Files ι
  | .file h => { s with vfs := t₀.vfsClose s.vfs h }
  | .socket addr k =>
    let vfs := match s.buffers.get k with
      | some b => s.vfs.kfree b
      | none => s.vfs
    { s with net := socketClose s.net k, vfs := vfs.kfree addr }

/-- `sys_open` once the path has given a node. -/
def openNode (t₀ : DirTree ι) (s : Files ι) (pid : ℕ) (h : Handle ι) : Files ι × Option Word :=
  let f := s.fds pid
  match f.freeFd with
  | some i =>
    (s.setFds pid ⟨f.fdTable.set i (some (.file h)), f.fdOffset.set i 0#32⟩, some (BitVec.ofNat 32 i))
  -- no free descriptor: the node is closed again
  | none => (vfsClose t₀ s (.file h), some (-1#32))

/-- `sys_open`, in the tree as it is then, and as it is once `pafs_write` has made the file. A call that
nests deeper than the kernel stack faults. -/
def sysOpen (d : ℕ) (t₀ : DirTree ι) (s : Files ι) (pid : ℕ) (now created : DirTree ι)
    (path : CString) (flags : Word) : Files ι × Option Word :=
  match now.vfsGetNodeByPath d s.vfs (some now.root) path with
  | (st, none) => ({ s with vfs := st, net := fault s.net }, none)
  | (st, some (some h)) => openNode t₀ { s with vfs := st } pid h
  | (st, some none) =>
    -- the file is made in the root directory, and the path looked up once more
    if flags &&& 1#32 ≠ 0#32 then
      match created.vfsGetNodeByPath d st (some created.root) path with
      | (st, none) => ({ s with vfs := st, net := fault s.net }, none)
      | (st, some (some h)) => openNode t₀ { s with vfs := st } pid h
      | (st, some none) => ({ s with vfs := st }, some (-1#32))
    else ({ s with vfs := st }, some (-1#32))

/-- The end of `sys_socket` and of `sys_accept`: the offset is not reset, and a node that finds no free
descriptor is not closed. -/
def storeSocket (s : Files ι) (pid addr k : ℕ) : Files ι × Option Word :=
  let f := s.fds pid
  match f.freeFd with
  | some i =>
    (s.setFds pid { f with fdTable := f.fdTable.set i (some (.socket addr k)) }, some (BitVec.ofNat 32 i))
  -- the socket stays in use
  | none => (s, some (-1#32))

/-- `sys_socket` -/
def sysSocket (s : Files ι) (pid : ℕ) (domain type protocol : Word) : Files ι × Option Word :=
  match socketCreate s.net domain type protocol with
  | none => (s, some (-1#32))
  | some (net, k) =>
    let (vfs, buffer) := s.vfs.kmalloc
    let (vfs, addr) := vfs.kmalloc
    storeSocket { s with vfs := vfs, net := net, buffers := s.buffers.set k (some buffer) } pid addr k

/-- `socket_accept` returns its own node: that of a stream socket whose connection is established. -/
def accepts (net : NetState) (k : ℕ) : Bool :=
  (net.sockets.get k).type = sockStream &&
    match (net.sockets.get k).tcpPcb with
    | some p => (net.heap p).state = .established
    | none => false

/-- `sys_accept`; `none` while the call waits. -/
def sysAccept (s : Files ι) (pid : ℕ) (fd : Word) : Files ι × Option Word :=
  match s.socket? pid fd with
  | none => (s, some (-1#32))
  | some (addr, k) =>
    -- the new descriptor gets the node of the old one
    if accepts s.net k then storeSocket s pid addr k
    else if (s.net.sockets.get k).type = sockStream then ({ s with net := socketAccept s.net k pid }, none)
    else (s, some (-1#32))

/-- `sys_close` -/
def sysClose (t₀ : DirTree ι) (s : Files ι) (pid : ℕ) (fd : Word) : Files ι × Option Word :=
  match s.entry? pid fd with
  | none => (s, some (-1#32))
  | some e =>
    let f := s.fds pid
    ((vfsClose t₀ s e).setFds pid ⟨f.fdTable.set fd.toNat none, f.fdOffset.set fd.toNat 0#32⟩,
      some 0#32)

/-- A call on a socket that checks the flags of the node. -/
def onSocket (s : Files ι) (pid : ℕ) (fd : Word) (op : ℕ → NetOp) : Files ι :=
  match s.socket? pid fd with
  | none => s
  | some (_, k) => { s with net := s.net.exec (op k) }

/-- `sys_bind` -/
def sysBind (s : Files ι) (pid : ℕ) (fd : Word) (port : Port) (addr : Word) : Files ι :=
  onSocket s pid fd fun k => .bind k port addr

/-- `sys_listen` -/
def sysListen (s : Files ι) (pid : ℕ) (fd : Word) (ptr : Ptr) : Files ι :=
  onSocket s pid fd fun k => .listen k ptr

/-- `sys_connect`, up to the loop in which it lets other tasks run. -/
def sysConnect (s : Files ι) (pid : ℕ) (fd addr : Word) (port : Port) (ptr : Ptr) : Files ι :=
  onSocket s pid fd fun k => .connect k addr port ptr

/-- `sys_sendto` -/
def sysSendto (s : Files ι) (pid : ℕ) (fd : Word) (message : List Byte) : Files ι :=
  onSocket s pid fd fun k => .sendto k message

/-- `sys_recvfrom`, which does not check the flags: `node->ptr` of a file is null, or no socket. -/
def sysRecvfrom (s : Files ι) (pid : ℕ) (fd length : Word) : Files ι :=
  match s.entry? pid fd with
  | none => s
  | some (.file _) => { s with net := fault s.net }
  | some (.socket _ k) => { s with net := (socketRecvfrom s.net k length pid).1 }

/-- `if (n > 0 && current->fd_table[fd]->flags != VFS_SOCKET) current->fd_offset[fd] += n`, for a
file. -/
def advance (s : Files ι) (pid : ℕ) (fd n : Word) : Files ι :=
  let f := s.fds pid
  if 0 < n.toInt then
    s.setFds pid { f with fdOffset := f.fdOffset.set fd.toNat (f.fdOffset.get fd.toNat + n) }
  else s

/-- `sys_read`; `n` is what the file system returns. -/
def sysRead (s : Files ι) (pid : ℕ) (fd size n : Word) : Files ι :=
  match s.entry? pid fd with
  | none => s
  | some (.file _) => advance s pid fd n
  | some (.socket _ k) => { s with net := (socketRecvfrom s.net k size pid).1 }

/-- `sys_write_fd`; `n` is what the file system returns. -/
def sysWriteFd (s : Files ι) (pid : ℕ) (fd : Word) (message : List Byte) (n : Word) : Files ι :=
  if fd = 1#32 ∨ fd = 2#32 then s
  else
    match s.entry? pid fd with
    | none => s
    | some (.file _) => advance s pid fd n
    | some (.socket _ _) => sysSendto s pid fd message

/-- `create_task` -/
def createTask (s : Files ι) : Files ι :=
  { s.setFds s.count newFds with
    net := { s.net with tasks := Function.update s.net.tasks s.count .ready }
    count := s.count + 1 }

/-- `task_exit`: the descriptors stay as they are. The kernel's task does not exit. -/
def taskExit (s : Files ι) (pid : ℕ) : Files ι :=
  if pid = 0 then s
  else { s with net := { s.net with tasks := Function.update s.net.tasks pid .dead } }

/-! ## Runs -/

/-- The tree at some time after boot: what the disks hold changes, but neither the root node nor the file
systems that the inodes belong to. -/
structure Later (t₀ t : DirTree ι) : Prop where
  root : t.root = t₀.root
  rootAddr : t.rootAddr = t₀.rootAddr
  kind : t.kind = t₀.kind

/-- A new task, a system call of task `pid`, the rest of its `socket_connect`, or an arrival from the
network. -/
inductive Call (t₀ : DirTree ι)
  | createTask
  | openPath (pid : ℕ) (now created : DirTree ι) (hnow : Later t₀ now) (hcreated : Later t₀ created)
      (path : CString) (flags : Word)
  | socket (pid : ℕ) (domain type protocol : Word)
  | bind (pid : ℕ) (fd : Word) (port : Port) (addr : Word)
  | listen (pid : ℕ) (fd : Word) (ptr : Ptr)
  | connect (pid : ℕ) (fd addr : Word) (port : Port) (ptr : Ptr)
  | connectSyn (pid k : ℕ)
  | accept (pid : ℕ) (fd : Word)
  | sendto (pid : ℕ) (fd : Word) (message : List Byte)
  | recvfrom (pid : ℕ) (fd length : Word)
  | read (pid : ℕ) (fd size n : Word)
  | writeFd (pid : ℕ) (fd : Word) (message : List Byte) (n : Word)
  | close (pid : ℕ) (fd : Word)
  | exit (pid : ℕ)
  | packet (pkt : Packet)
  | datagram (dg : Datagram)

namespace Call

variable {t₀ : DirTree ι}

/-- The task that makes the call. -/
def pid? : Call t₀ → Option ℕ
  | .createTask => none
  | .openPath pid _ _ _ _ _ _ => some pid
  | .socket pid _ _ _ => some pid
  | .bind pid _ _ _ => some pid
  | .listen pid _ _ => some pid
  | .connect pid _ _ _ _ => some pid
  | .connectSyn pid _ => some pid
  | .accept pid _ => some pid
  | .sendto pid _ _ => some pid
  | .recvfrom pid _ _ => some pid
  | .read pid _ _ _ => some pid
  | .writeFd pid _ _ _ => some pid
  | .close pid _ => some pid
  | .exit pid => some pid
  | .packet _ => none
  | .datagram _ => none

/-- After a fault nothing happens any more, and a task that has exited makes no calls. -/
def happens (s : Files ι) (c : Call t₀) : Bool := !s.net.halted && c.pid?.all s.runs

end Call

def exec (d : ℕ) (t₀ : DirTree ι) (s : Files ι) : Call t₀ → Files ι
  | .createTask => createTask s
  | .openPath pid now created _ _ path flags => (sysOpen d t₀ s pid now created path flags).1
  | .socket pid domain type protocol => (sysSocket s pid domain type protocol).1
  | .bind pid fd port addr => sysBind s pid fd port addr
  | .listen pid fd ptr => sysListen s pid fd ptr
  | .connect pid fd addr port ptr => sysConnect s pid fd addr port ptr
  | .connectSyn pid k => { s with net := s.net.exec (.connectSyn k pid) }
  | .accept pid fd => (sysAccept s pid fd).1
  | .sendto pid fd message => sysSendto s pid fd message
  | .recvfrom pid fd length => sysRecvfrom s pid fd length
  | .read pid fd size n => sysRead s pid fd size n
  | .writeFd pid fd message n => sysWriteFd s pid fd message n
  | .close pid fd => (sysClose t₀ s pid fd).1
  | .exit pid => taskExit s pid
  | .packet pkt => { s with net := s.net.exec (.packet pkt) }
  | .datagram dg => { s with net := s.net.exec (.datagram dg) }

/-- One step of a run. -/
def step (d : ℕ) (t₀ : DirTree ι) (s : Files ι) (c : Call t₀) : Files ι :=
  if c.happens s then exec d t₀ s c else s

/-- The state at boot: the root node is on the heap, no descriptor is open and no socket in use. -/
structure Boot (t₀ : DirTree ι) (s : Files ι) : Prop where
  rootAddr : t₀.rootAddr ∈ s.vfs.live
  /-- `pafs_get_vfs_root` clears the node, and nothing lists the root node itself. -/
  impl : t₀.root.impl = none
  entry : ∀ pid fd, s.entry pid fd = none
  unused : ∀ k, (s.net.sockets.get k).inUse = false

/-! ## What the calls do to the tables -/

section Tables

variable {s : Files ι} {pid pid' fd : ℕ} {f : Fds ι} {e : Entry ι}

theorem freeFd_some {i : ℕ} (h : f.freeFd = some i) : i < 16 ∧ f.fdTable.get i = none := by
  obtain ⟨hfound, hmem, -⟩ := List.find?_range_eq_some.mp h
  exact ⟨List.mem_range.mp hmem, Option.isNone_iff_eq_none.mp hfound⟩

theorem newFds_get (fd : ℕ) : (newFds : Fds ι).fdTable.get fd = none := by
  by_cases hfd : fd < 16
  · rw [newFds, Table.get_ofFn _ hfd]
  · exact Table.get_of_le _ (Nat.le_of_not_lt hfd)

@[simp] theorem setFds_vfs : (s.setFds pid f).vfs = s.vfs := rfl
@[simp] theorem setFds_net : (s.setFds pid f).net = s.net := rfl
@[simp] theorem setFds_buffers : (s.setFds pid f).buffers = s.buffers := rfl
@[simp] theorem setFds_count : (s.setFds pid f).count = s.count := rfl

theorem setFds_entry_self : (s.setFds pid f).entry pid fd = f.fdTable.get fd := by
  simp [Files.entry, Files.setFds]

theorem setFds_entry_ne (h : pid' ≠ pid) : (s.setFds pid f).entry pid' fd = s.entry pid' fd := by
  simp [Files.entry, Files.setFds, h]

/-- The tables once an entry of a task is `a`: free descriptors are filled and others emptied. -/
def Sets (s s' : Files ι) (pid fd : ℕ) (a : Option (Entry ι)) : Prop :=
  s'.entry pid fd = a ∧ ∀ pid' fd', ¬(pid' = pid ∧ fd' = fd) → s'.entry pid' fd' = s.entry pid' fd'

/-- An entry is set, whatever becomes of the offsets. -/
theorem sets_setFds {off : Table 16 Word} {a : Option (Entry ι)} (hfd : fd < 16) :
    Sets s (s.setFds pid ⟨(s.fds pid).fdTable.set fd a, off⟩) pid fd a := by
  refine ⟨setFds_entry_self.trans (Table.get_set_self _ hfd _), fun pid' fd' hne => ?_⟩
  by_cases hpid : pid' = pid
  · subst hpid
    exact setFds_entry_self.trans (Table.get_set_ne _ (fun hfd => hne ⟨rfl, hfd⟩) _)
  · exact setFds_entry_ne hpid

/-- Only the first sixteen entries can be filled. -/
theorem lt_of_entry (h : s.entry pid fd = some e) : fd < 16 := by
  by_contra hfd
  rw [Files.entry, Table.get_of_le _ (Nat.le_of_not_lt hfd)] at h
  cases h

theorem entry_of_checked {w : Word} (h : s.entry? pid w = some e) : s.entry pid w.toNat = some e := by
  rw [Files.entry?] at h
  split at h
  · cases h
  · exact h

theorem entry_of_socket {w : Word} {addr k : ℕ} (h : s.socket? pid w = some (addr, k)) :
    s.entry? pid w = some (.socket addr k) := by
  rw [Files.socket?] at h
  split at h
  · next haddr =>
    cases h
    exact haddr
  · cases h

/-- The tables are as they were, and so are the slots that are in use. -/
structure Same (s s' : Files ι) : Prop where
  entry : ∀ pid fd, s'.entry pid fd = s.entry pid fd
  vfs : s'.vfs = s.vfs
  buffers : s'.buffers = s.buffers
  count : s'.count = s.count
  net : Keeps s.net s'.net

theorem Same.refl (s : Files ι) : Same s s := ⟨fun _ _ => rfl, rfl, rfl, rfl, .refl _⟩

/-- What happens to the network alone. -/
theorem same_net {net : NetState} (h : Keeps s.net net) : Same s { s with net := net } :=
  ⟨fun _ _ => rfl, rfl, rfl, rfl, h⟩

theorem same_fault : Same s { s with net := fault s.net } := same_net ((Keeps.refl _).of_eq rfl rfl)

theorem onSocket_same {w : Word} {op : ℕ → NetOp}
    (hcreate : ∀ k domain type protocol, op k ≠ .create domain type protocol)
    (hclose : ∀ k j, op k ≠ .close j) : Same s (onSocket s pid w op) := by
  rw [onSocket]
  split
  · exact Same.refl s
  · exact same_net (Keeps.exec (hcreate _) (hclose _))

theorem advance_same {w n : Word} : Same s (advance s pid w n) := by
  rw [advance]
  split
  · refine ⟨fun pid' fd' => ?_, rfl, rfl, rfl, .refl _⟩
    by_cases hpid : pid' = pid
    · subst hpid
      exact setFds_entry_self
    · exact setFds_entry_ne hpid
  · exact Same.refl s

/-- `sys_accept` that does not return a node. -/
theorem sysAccept_same {w : Word}
    (h : ∀ addr k, s.socket? pid w = some (addr, k) → accepts s.net k = false) :
    Same s (sysAccept s pid w).1 := by
  rw [sysAccept]
  split
  · exact Same.refl s
  · next addr k hsocket =>
    rw [h addr k hsocket, if_neg Bool.false_ne_true]
    split
    · exact same_net (Keeps.accept _ _ _)
    · exact Same.refl s

/-- A call that neither makes nor closes descriptors or tasks. -/
def Call.Quiet {t₀ : DirTree ι} : Call t₀ → Prop
  | .createTask => False
  | .openPath .. => False
  | .socket .. => False
  | .accept .. => False
  | .close .. => False
  | .exit .. => False
  | _ => True

theorem exec_same (d : ℕ) {t₀ : DirTree ι} {c : Call t₀} (hc : c.Quiet) : Same s (exec d t₀ s c) := by
  cases c with
  | bind pid fd port addr => exact onSocket_same nofun nofun
  | listen pid fd ptr => exact onSocket_same nofun nofun
  | connect pid fd addr port ptr => exact onSocket_same nofun nofun
  | connectSyn pid k => exact same_net (Keeps.exec nofun nofun)
  | sendto pid fd message => exact onSocket_same nofun nofun
  | recvfrom pid fd length =>
    rw [exec, sysRecvfrom]
    split
    · exact Same.refl s
    · exact same_fault
    · exact same_net (Keeps.recvfrom _ _ _ _)
  | read pid fd size n =>
    rw [exec, sysRead]
    split
    · exact Same.refl s
    · exact advance_same
    · exact same_net (Keeps.recvfrom _ _ _ _)
  | writeFd pid fd message n =>
    rw [exec, sysWriteFd]
    split
    · exact Same.refl s
    · split
      · exact Same.refl s
      · exact advance_same
      · exact onSocket_same nofun nofun
  | packet pkt => exact same_net (Keeps.exec nofun nofun)
  | datagram dg => exact same_net (Keeps.exec nofun nofun)
  | _ => exact hc.elim

/-- The end of `sys_socket` and `sys_accept`: the node goes into a free descriptor, or nowhere. -/
theorem storeSocket_spec (s : Files ι) (pid addr k : ℕ) :
    ((s.fds pid).freeFd = none ∧ storeSocket s pid addr k = (s, some (-1#32))) ∨
      ∃ i off, (s.fds pid).freeFd = some i ∧ (storeSocket s pid addr k).1 =
        s.setFds pid ⟨(s.fds pid).fdTable.set i (some (.socket addr k)), off⟩ := by
  rw [storeSocket]
  cases hfree : (s.fds pid).freeFd with
  | none => exact .inl ⟨rfl, rfl⟩
  | some i => exact .inr ⟨i, (s.fds pid).fdOffset, rfl, rfl⟩

/-- What `sys_open` does once the path has given a node: it goes into a free descriptor, or is closed. -/
theorem openNode_spec (t₀ : DirTree ι) (s : Files ι) (pid : ℕ) (h : Handle ι) :
    ((s.fds pid).freeFd = none ∧ (openNode t₀ s pid h).1 = vfsClose t₀ s (.file h)) ∨
      ∃ i off, (s.fds pid).freeFd = some i ∧ (openNode t₀ s pid h).1 =
        s.setFds pid ⟨(s.fds pid).fdTable.set i (some (.file h)), off⟩ := by
  rw [openNode]
  cases hfree : (s.fds pid).freeFd with
  | none => exact .inl ⟨rfl, rfl⟩
  | some i => exact .inr ⟨i, _, rfl, rfl⟩

/-- `sys_open` leaves the descriptors with one new node at most, which is not one of those before. -/
theorem sysOpen_spec {d : ℕ} {t₀ now created : DirTree ι} (hnow : Later t₀ now)
    (hcreated : Later t₀ created) (himpl : t₀.root.impl = none) (path : CString) (flags : Word) :
    ∃ st : VfsState, s.vfs.live ⊆ st.live ∧ ∃ net, Keeps s.net net ∧
      ((sysOpen d t₀ s pid now created path flags).1 = { s with vfs := st, net := net } ∨
      ∃ h : Handle ι, h.addr ∈ st.live ∧ h.addr ∉ s.vfs.live ∧ h.node.impl = none ∧
        (sysOpen d t₀ s pid now created path flags).1 =
          (openNode t₀ { s with vfs := st, net := net } pid h).1) := by
  have hopens {t : DirTree ι} (ht : Later t₀ t) (st : VfsState) :
      DirTree.Opens st (t.vfsGetNodeByPath d st (some t.root) path) := by
    have hroot : t.root.impl = none := ht.root ▸ himpl
    exact DirTree.vfsGetNodeByPath_opens d hroot fun b hb => Option.some.inj hb ▸ hroot
  -- a node from `next` on is not one of those before
  have hfresh {st : VfsState} {h : Handle ι} (hst : s.vfs.next ≤ st.next) (hh : st.next ≤ h.addr) :
      h.addr ∉ s.vfs.live := fun hmem => absurd (s.vfs.live_lt hmem) (not_lt.mpr (hst.trans hh))
  have hfirst := hopens hnow s.vfs
  rw [sysOpen]
  rcases hres : now.vfsGetNodeByPath d s.vfs (some now.root) path with ⟨st, _ | _ | h⟩
  all_goals
    rw [hres] at hfirst
    dsimp only
  · exact ⟨st, hfirst.live, fault s.net, (Keeps.refl _).of_eq rfl rfl, .inl rfl⟩
  · split
    · have hsecond := hopens hcreated st
      have hlive := hfirst.live.trans hsecond.live
      rcases hres' : created.vfsGetNodeByPath d st (some created.root) path with ⟨st', _ | _ | h⟩
      all_goals rw [hres'] at hsecond hlive
      · exact ⟨st', hlive, fault s.net, (Keeps.refl _).of_eq rfl rfl, .inl rfl⟩
      · exact ⟨st', hlive, s.net, .refl _, .inl rfl⟩
      · obtain ⟨hmem, hnew, hnone⟩ := hsecond.node h rfl
        exact ⟨st', hlive, s.net, .refl _, .inr ⟨h, hmem, hfresh hfirst.next hnew, hnone, rfl⟩⟩
    · exact ⟨st, hfirst.live, s.net, .refl _, .inl rfl⟩
  · obtain ⟨hmem, hnew, hnone⟩ := hfirst.node h rfl
    exact ⟨st, hfirst.live, s.net, .refl _, .inr ⟨h, hmem, hfresh le_rfl hnew, hnone, rfl⟩⟩

end Tables

end PekerOS.Fd
