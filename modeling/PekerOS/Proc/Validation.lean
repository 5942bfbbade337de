import PekerOS.Proc.Aliasing
import PekerOS.Net.Calls

/-!
# The checks of a descriptor

Nine system calls take a descriptor, and each checks it by itself: its range, that there is a node, and
before a function of `socket.c` is called that the node is a socket. `sys_recvfrom` leaves the last out,
and `socket_recvfrom` takes `node->ptr` of whatever it is given for a socket.

## Main definitions

* `Outcome`: what a call leaves, what it returns, and the nodes whose `ptr` it took for a socket
* `onPtr`, `withSocket`: a function of `socket.c` on a node, and with the check before it
* `Checks.sysRead`, …, `Checks.sysAccept`: the calls
* `FdCall`, `FdCall.perform`: any of them
* `Validates`: bad descriptors are refused, and only sockets are used as such

## Main results

* `perform_files`: what the calls leave is what the runs of descriptors have them leave
* `fd_validated_iff`: all descriptors are checked except those of `sys_recvfrom` that are no socket
-/

namespace PekerOS.Fd

open Vfs (DirTree Handle)
open Net (Port Ptr NetOp failure fault sockDgram socketBind socketListen socketConnect socketAccept
  socketSendto socketRecvfrom listenReply connectReply acceptReply sendtoReply recvfromReply)

variable {ι : Type}

/-- `flags` of the node. -/
def Entry.flags : Entry ι → Word
  | .file h => h.node.flags
  | .socket _ _ => vfsSocket

/-- What a call leaves and returns. -/
structure Outcome (ι : Type) where
  files : Files ι
  reply : Net.Reply
  /-- The nodes whose `ptr` was taken for a socket. -/
  used : List (Entry ι)

/-- `regs->eax = -1` -/
def refuse (s : Files ι) : Outcome ι := ⟨s, .value failure, []⟩

section Calls

variable (wild : Files ι → Handle ι → Files ι × Net.Reply) (s : Files ι) (pid : ℕ) (fd : Word)

/-- A function of `socket.c` on a node: `f` is given the address of the node of a socket and its slot. What
it does with `ptr` of a file is `wild`. -/
def onPtr (e : Entry ι) (f : ℕ → ℕ → Files ι × Net.Reply) : Outcome ι :=
  match e with
  | .socket addr k => ⟨(f addr k).1, (f addr k).2, [e]⟩
  | .file h => ⟨(wild s h).1, (wild s h).2, [e]⟩

/-- `fd < 0 || fd >= 16 || !current->fd_table[fd] || current->fd_table[fd]->flags != VFS_SOCKET`, and what
follows. -/
def withSocket (f : ℕ → ℕ → Files ι × Net.Reply) : Outcome ι :=
  match s.entry? pid fd with
  | none => refuse s
  | some e => if e.flags ≠ vfsSocket then refuse s else onPtr wild s e f

namespace Checks

/-- `socket_sendto`; `dest` says whether there is an address. -/
def sendto (k : ℕ) (message : List Byte) (dest : Bool) : Files ι × Net.Reply :=
  ({ s with net := socketSendto s.net k message },
    if (s.net.sockets.get k).type = sockDgram then
      -- a datagram needs an address, given here or by `connect`
      if dest ∨ (s.net.sockets.get k).remoteAddr ≠ 0#32 then .value (BitVec.ofNat 32 message.length)
      else .value failure
    else sendtoReply s.net k message)

/-- One round of `socket_recvfrom`. -/
def recvfrom (k : ℕ) (length : Word) : Files ι × Net.Reply :=
  ({ s with net := (socketRecvfrom s.net k length pid).1 }, recvfromReply s.net k length pid)

/-- `sys_read`; `n` is what the file system returns. -/
def sysRead (size n : Word) : Outcome ι :=
  match s.entry? pid fd with
  | none => refuse s
  | some (.file h) => ⟨if h.node.flags ≠ vfsSocket then advance s pid fd n else s, .value n, []⟩
  | some e => onPtr wild s e fun _ k => recvfrom s pid k size

/-- `sys_write_fd`; `n` is what the file system returns. -/
def sysWriteFd (message : List Byte) (n : Word) : Outcome ι :=
  if fd = 1#32 ∨ fd = 2#32 then ⟨s, .value (BitVec.ofNat 32 message.length), []⟩
  else
    match s.entry? pid fd with
    | none => refuse s
    | some (.file h) => ⟨if h.node.flags ≠ vfsSocket then advance s pid fd n else s, .value n, []⟩
    | some e => onPtr wild s e fun _ k => sendto s k message false

/-- `sys_close` -/
def sysClose (t₀ : DirTree ι) : Outcome ι :=
  match s.entry? pid fd with
  | none => refuse s
  | some (.file _) => ⟨(Fd.sysClose t₀ s pid fd).1, .value 0#32, []⟩
  | some e => onPtr wild s e fun _ _ => ((Fd.sysClose t₀ s pid fd).1, .value 0#32)

/-- `sys_bind` -/
def sysBind (port : Port) (addr : Word) : Outcome ι :=
  withSocket wild s pid fd fun _ k => ({ s with net := socketBind s.net k port addr }, .value 0#32)

/-- `sys_sendto` -/
def sysSendto (message : List Byte) (dest : Bool) : Outcome ι :=
  withSocket wild s pid fd fun _ k => sendto s k message dest

/-- `sys_recvfrom`: the flags are not checked. -/
def sysRecvfrom (length : Word) : Outcome ι :=
  match s.entry? pid fd with
  | none => refuse s
  | some e => onPtr wild s e fun _ k => recvfrom s pid k length

/-- `sys_connect`, up to the loop in which it lets other tasks run. -/
def sysConnect (addr : Word) (port : Port) (ptr : Ptr) : Outcome ι :=
  withSocket wild s pid fd fun _ k =>
    ({ s with net := socketConnect s.net k addr port ptr }, connectReply s.net k ptr)

/-- `sys_listen` -/
def sysListen (ptr : Ptr) : Outcome ι :=
  withSocket wild s pid fd fun _ k =>
    ({ s with net := socketListen s.net k ptr }, listenReply s.net k ptr)

/-- `sys_accept`, up to where it waits. -/
def sysAccept : Outcome ι :=
  withSocket wild s pid fd fun addr k =>
    if accepts s.net k then
      match storeSocket s pid addr k with
      | (s, some eax) => (s, .value eax)
      | (s, none) => (s, .waits)
    else ({ s with net := socketAccept s.net k pid }, acceptReply s.net k)

end Checks

end Calls

/-- A system call on a descriptor, with what a file system returns or `kmalloc` gives. -/
inductive FdCall
  | read (size n : Word)
  | writeFd (message : List Byte) (n : Word)
  | close
  | bind (port : Port) (addr : Word)
  | sendto (message : List Byte) (dest : Bool)
  | recvfrom (length : Word)
  | connect (addr : Word) (port : Port) (ptr : Ptr)
  | listen (ptr : Ptr)
  | accept

namespace FdCall

/-- The socket calls. -/
def OnSocket : FdCall → Prop
  | .read _ _ | .writeFd _ _ | .close => False
  | _ => True

/-- `sys_write_fd` on descriptor 1 or 2 goes to the screen. -/
def ToScreen (fd : Word) : FdCall → Prop
  | .writeFd _ _ => fd = 1#32 ∨ fd = 2#32
  | _ => False

def perform (wild : Files ι → Handle ι → Files ι × Net.Reply) (t₀ : DirTree ι) (s : Files ι) (pid : ℕ)
    (fd : Word) : FdCall → Outcome ι
  | .read size n => Checks.sysRead wild s pid fd size n
  | .writeFd message n => Checks.sysWriteFd wild s pid fd message n
  | .close => Checks.sysClose wild s pid fd t₀
  | .bind port addr => Checks.sysBind wild s pid fd port addr
  | .sendto message dest => Checks.sysSendto wild s pid fd message dest
  | .recvfrom length => Checks.sysRecvfrom wild s pid fd length
  | .connect addr port ptr => Checks.sysConnect wild s pid fd addr port ptr
  | .listen ptr => Checks.sysListen wild s pid fd ptr
  | .accept => Checks.sysAccept wild s pid fd

/-- The call as one of a run. -/
def call {t₀ : DirTree ι} (pid : ℕ) (fd : Word) : FdCall → Call t₀
  | .read size n => .read pid fd size n
  | .writeFd message n => .writeFd pid fd message n
  | .close => .close pid fd
  | .bind port addr => .bind pid fd port addr
  | .sendto message _ => .sendto pid fd message
  | .recvfrom length => .recvfrom pid fd length
  | .connect addr port ptr => .connect pid fd addr port ptr
  | .listen ptr => .listen pid fd ptr
  | .accept => .accept pid fd

end FdCall

/-- A call that returns -1 and changes nothing. -/
def Outcome.Refused (o : Outcome ι) (s : Files ι) : Prop := o.files = s ∧ o.reply = .value failure

/-- The call refuses a descriptor that is out of range or empty, and a socket call one that is no socket;
only the `ptr` of sockets is used as one. -/
structure Validates (wild : Files ι → Handle ι → Files ι × Net.Reply) (t₀ : DirTree ι) (s : Files ι)
    (pid : ℕ) (fd : Word) (c : FdCall) : Prop where
  empty : ¬c.ToScreen fd → (fd.toInt < 0 ∨ 16 ≤ fd.toInt ∨ s.entry pid fd.toNat = none) →
    (c.perform wild t₀ s pid fd).Refused s
  noSocket : c.OnSocket → ∀ e, s.entry? pid fd = some e → e.flags ≠ vfsSocket →
    (c.perform wild t₀ s pid fd).Refused s
  used : ∀ e ∈ (c.perform wild t₀ s pid fd).used, e.flags = vfsSocket

section Checked

variable {wild : Files ι → Handle ι → Files ι × Net.Reply} {t₀ : DirTree ι} {s : Files ι} {pid : ℕ}
  {fd : Word} {c : FdCall} {e : Entry ι} {f : ℕ → ℕ → Files ι × Net.Reply}

theorem entry?_eq_none :
    s.entry? pid fd = none ↔ fd.toInt < 0 ∨ 16 ≤ fd.toInt ∨ s.entry pid fd.toNat = none := by
  rw [Files.entry?]
  by_cases hrange : fd.toInt < 0 ∨ 16 ≤ fd.toInt
  · rw [if_pos hrange]
    tauto
  · rw [if_neg hrange]
    tauto

theorem refuse_refused : (refuse s).Refused s := ⟨rfl, rfl⟩

@[simp] theorem onPtr_used : (onPtr wild s e f).used = [e] := by
  cases e <;> rfl

theorem withSocket_none (h : s.entry? pid fd = none) : withSocket wild s pid fd f = refuse s := by
  rw [withSocket, h]

theorem withSocket_noSocket (h : s.entry? pid fd = some e) (hflags : e.flags ≠ vfsSocket) :
    withSocket wild s pid fd f = refuse s := by
  simp only [withSocket, h, if_pos hflags]

theorem withSocket_socket (h : s.entry? pid fd = some e) (hflags : e.flags = vfsSocket) :
    withSocket wild s pid fd f = onPtr wild s e f := by
  simp only [withSocket, h, hflags, ne_eq, not_true_eq_false, if_false]

theorem withSocket_used (he : e ∈ (withSocket wild s pid fd f).used) : e.flags = vfsSocket := by
  cases hentry : s.entry? pid fd with
  | none =>
    rw [withSocket_none hentry] at he
    exact absurd he List.not_mem_nil
  | some e' =>
    by_cases hflags : e'.flags = vfsSocket
    · rw [withSocket_socket hentry hflags, onPtr_used, List.mem_singleton] at he
      exact he ▸ hflags
    · rw [withSocket_noSocket hentry hflags] at he
      exact absurd he List.not_mem_nil

/-- Every socket call but `sys_recvfrom` makes the whole check. -/
theorem FdCall.perform_withSocket (hc : c.OnSocket) (hne : ∀ length, c ≠ .recvfrom length) :
    ∃ f, c.perform wild t₀ s pid fd = withSocket wild s pid fd f := by
  cases c with
  | read size n => exact hc.elim
  | writeFd message n => exact hc.elim
  | close => exact hc.elim
  | recvfrom length => exact absurd rfl (hne length)
  | _ => exact ⟨_, rfl⟩

/-- The range and the null pointer are checked by every call. -/
theorem FdCall.perform_none (hscreen : ¬c.ToScreen fd) (h : s.entry? pid fd = none) :
    c.perform wild t₀ s pid fd = refuse s := by
  cases c with
  | read size n => rw [perform, Checks.sysRead, h]
  | writeFd message n =>
    have hscreen : ¬(fd = 1#32 ∨ fd = 2#32) := hscreen
    rw [perform, Checks.sysWriteFd, if_neg hscreen, h]
  | close => rw [perform, Checks.sysClose, h]
  | recvfrom length => rw [perform, Checks.sysRecvfrom, h]
  | _ => exact withSocket_none h

/-- What goes through the functions of a node uses `ptr` of sockets only. -/
theorem FdCall.perform_used (hc : ¬c.OnSocket) (he : e ∈ (c.perform wild t₀ s pid fd).used) :
    e.flags = vfsSocket := by
  have hsocket {addr k : ℕ} {f : ℕ → ℕ → Files ι × Net.Reply}
      (he : e ∈ (onPtr wild s (.socket addr k) f).used) : e.flags = vfsSocket := by
    rw [onPtr_used, List.mem_singleton] at he
    exact he ▸ rfl
  cases c with
  | read size n =>
    rw [perform, Checks.sysRead] at he
    rcases hentry : s.entry? pid fd with _ | h | ⟨addr, k⟩ <;> rw [hentry] at he
    · exact absurd he List.not_mem_nil
    · exact absurd he List.not_mem_nil
    · exact hsocket he
  | writeFd message n =>
    rw [perform, Checks.sysWriteFd] at he
    split at he
    · exact absurd he List.not_mem_nil
    · rcases hentry : s.entry? pid fd with _ | h | ⟨addr, k⟩ <;> rw [hentry] at he
      · exact absurd he List.not_mem_nil
      · exact absurd he List.not_mem_nil
      · exact hsocket he
  | close =>
    rw [perform, Checks.sysClose] at he
    rcases hentry : s.entry? pid fd with _ | h | ⟨addr, k⟩ <;> rw [hentry] at he
    · exact absurd he List.not_mem_nil
    · exact absurd he List.not_mem_nil
    · exact hsocket he
  | _ => exact absurd trivial hc

/-- A call that makes the whole check goes on with the slot of a socket, or leaves everything. -/
theorem withSocket_files (hflags : ∀ h, s.entry? pid fd = some (.file h) → h.node.flags ≠ vfsSocket) :
    s.socket? pid fd = none ∧ (withSocket wild s pid fd f).files = s ∨
      ∃ addr k, s.socket? pid fd = some (addr, k) ∧ (withSocket wild s pid fd f).files = (f addr k).1 := by
  rw [Files.socket?]
  rcases hentry : s.entry? pid fd with _ | h | ⟨addr, k⟩
  · exact .inl ⟨rfl, by rw [withSocket_none hentry, refuse]⟩
  · exact .inl ⟨rfl, by rw [withSocket_noSocket hentry (hflags h hentry), refuse]⟩
  · exact .inr ⟨addr, k, rfl, by rw [withSocket_socket hentry rfl, onPtr]⟩

theorem withSocket_onSocket {op : ℕ → NetOp}
    (hflags : ∀ h, s.entry? pid fd = some (.file h) → h.node.flags ≠ vfsSocket)
    (hf : ∀ addr k, (f addr k).1 = { s with net := s.net.exec (op k) }) :
    (withSocket wild s pid fd f).files = onSocket s pid fd op := by
  rw [onSocket]
  rcases @withSocket_files _ wild s pid fd f hflags with ⟨hnone, hfiles⟩ | ⟨addr, k, hsome, hfiles⟩
  · rw [hnone, hfiles]
  · rw [hsome, hfiles, hf]

/-- **What the calls leave** is what the runs of descriptors have them leave, where `ptr` of a file leads
to a fault. -/
theorem perform_files (d : ℕ) (hflags : ∀ h, s.entry? pid fd = some (.file h) → h.node.flags ≠ vfsSocket)
    (hwild : ∀ h, (wild s h).1 = { s with net := fault s.net }) :
    (c.perform wild t₀ s pid fd).files = exec d t₀ s (c.call pid fd) := by
  cases c with
  | read size n =>
    rw [FdCall.perform, Checks.sysRead, FdCall.call, exec, Fd.sysRead]
    rcases hentry : s.entry? pid fd with _ | h | ⟨addr, k⟩
    · rfl
    · -- a file is no socket, so its offset moves
      exact if_pos (hflags h hentry)
    · rfl
  | writeFd message n =>
    rw [FdCall.perform, Checks.sysWriteFd, FdCall.call, exec, Fd.sysWriteFd]
    split
    · rfl
    · rcases hentry : s.entry? pid fd with _ | h | ⟨addr, k⟩
      · rfl
      · exact if_pos (hflags h hentry)
      · simp only [Fd.sysSendto, onSocket, Files.socket?, hentry]
        rfl
  | close =>
    rw [FdCall.perform, Checks.sysClose, FdCall.call, exec]
    rcases hentry : s.entry? pid fd with _ | h | ⟨addr, k⟩
    · rw [Fd.sysClose, hentry]
      rfl
    · rfl
    · rfl
  | recvfrom length =>
    rw [FdCall.perform, Checks.sysRecvfrom, FdCall.call, exec, Fd.sysRecvfrom]
    rcases hentry : s.entry? pid fd with _ | h | ⟨addr, k⟩
    · rfl
    · -- here the flags are not checked and the node is taken for a socket
      exact hwild h
    · rfl
  | accept =>
    rw [FdCall.perform, Checks.sysAccept, FdCall.call, exec, Fd.sysAccept]
    rcases @withSocket_files _ wild s pid fd _ hflags with ⟨hnone, hfiles⟩ | ⟨addr, k, hsome, hfiles⟩
    · rw [hnone, hfiles]
    · rw [hsome, hfiles]
      dsimp only
      split
      · -- an accepted connection needs a descriptor of its own
        rcases storeSocket s pid addr k with ⟨s', _ | eax⟩ <;> rfl
      · next haccepts =>
        split
        · rfl
        · next htype => rw [socketAccept, if_neg htype]
  | bind port addr => exact withSocket_onSocket hflags fun _ _ => rfl
  | sendto message dest => exact withSocket_onSocket hflags fun _ _ => rfl
  | connect addr port ptr => exact withSocket_onSocket hflags fun _ _ => rfl
  | listen ptr => exact withSocket_onSocket hflags fun _ _ => rfl

end Checked

/-- **The check of descriptors**: for every table, every descriptor and every of the nine calls, whatever
`socket_recvfrom` does with the `ptr` of a file, bad descriptors are refused and only sockets are used as
sockets if and only if the call is not `sys_recvfrom` on a descriptor that is no socket. -/
theorem fd_validated_iff (wild : Files ι → Handle ι → Files ι × Net.Reply) (t₀ : DirTree ι) (s : Files ι)
    (pid : ℕ) (fd : Word) (c : FdCall) : Validates wild t₀ s pid fd c ↔
      ∀ length, c = .recvfrom length → ∀ e, s.entry? pid fd = some e → e.flags = vfsSocket := by
  constructor
  · rintro hvalid length rfl e he
    refine hvalid.used e ?_
    rw [FdCall.perform, Checks.sysRecvfrom, he]
    simp
  · intro hrecv
    -- an empty descriptor, a file where a socket is needed, and what is used
    refine ⟨fun hscreen hempty => ?_, fun hc e he hflags => ?_, fun e he => ?_⟩
    · rw [FdCall.perform_none hscreen (entry?_eq_none.mpr hempty)]
      exact refuse_refused
    · obtain ⟨f, hf⟩ := FdCall.perform_withSocket hc fun length heq => hflags (hrecv length heq e he)
      rw [hf, withSocket_noSocket he hflags]
      exact refuse_refused
    · by_cases hc : c.OnSocket
      · by_cases hlength : ∃ length, c = .recvfrom length
        · obtain ⟨length, rfl⟩ := hlength
          rw [FdCall.perform, Checks.sysRecvfrom] at he
          cases hentry : s.entry? pid fd with
          | none =>
            rw [hentry] at he
            exact absurd he List.not_mem_nil
          | some e' =>
            simp only [hentry, onPtr_used, List.mem_singleton] at he
            exact he ▸ hrecv length rfl e' hentry
        · obtain ⟨f, hf⟩ := FdCall.perform_withSocket hc (not_exists.mp hlength)
          exact withSocket_used (hf ▸ he)
      · exact FdCall.perform_used hc he

/-- A task opens `/mnt` and calls `sys_recvfrom`: the root of the disk is taken for a socket. -/
theorem recvfrom_on_directory :
    let s := ([.createTask,
      .openPath 1 (Vfs.smallTree []) (Vfs.smallTree []) ⟨rfl, rfl, rfl⟩ ⟨rfl, rfl, rfl⟩
        ⟨Vfs.mntPath, by decide⟩ 0#32] : List (Call (Vfs.smallTree []))).foldl
      (step 8 (Vfs.smallTree [])) bootFiles
    (s.entry? 1 0#32).map Entry.flags = some (vfsDirectory ||| vfsMountpoint) ∧
      ∀ wild, ¬Validates wild (Vfs.smallTree []) s 1 0#32 (.recvfrom 100#32) := by
  intro s
  have hflags : (s.entry? 1 0#32).map Entry.flags = some (vfsDirectory ||| vfsMountpoint) := by
    decide +kernel
  refine ⟨hflags, fun wild hvalid => ?_⟩
  obtain ⟨e, he, heq⟩ := Option.map_eq_some_iff.mp hflags
  have hused := hvalid.used e (by rw [FdCall.perform, Checks.sysRecvfrom, he]; simp)
  exact absurd (hused.symm.trans heq) (by decide)

end PekerOS.Fd
