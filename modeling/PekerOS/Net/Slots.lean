import PekerOS.Net.Frame

/-!
# Who claims and releases sockets

Only `socket_create` claims a slot and only `socket_close` releases one. The other functions of
`socket.c` and `tcp.c` put tasks to sleep and wake them, and kill none.

## Main definitions

* `Keeps`: no slot is claimed or released, and no task dies

## Main results

* `Keeps.exec`: what calls and arrivals keep
-/

namespace PekerOS.Net

/-- No slot is claimed or released, and no task dies. -/
structure Keeps (net net' : NetState) : Prop where
  inUse : ∀ k, (net'.sockets.get k).inUse = (net.sockets.get k).inUse
  alive : ∀ task, net.tasks task ≠ .dead → net'.tasks task ≠ .dead

namespace Keeps

variable {net net' net'' : NetState} {k task : ℕ} {p ptr : Ptr}

theorem refl (net : NetState) : Keeps net net := ⟨fun _ => rfl, fun _ h => h⟩

/-- What is done to control blocks. -/
theorem of_eq (h : Keeps net net') (hsockets : net''.sockets = net'.sockets)
    (htasks : net''.tasks = net'.tasks) : Keeps net net'' :=
  ⟨fun k => by rw [hsockets, h.inUse], fun task halive => by rw [htasks]; exact h.alive task halive⟩

theorem editPcb (h : Keeps net net') {f : Pcb → Pcb} : Keeps net (net'.editPcb p f) := h.of_eq rfl rfl

theorem send (h : Keeps net net') {flags : Byte} {data : List Byte} :
    Keeps net (tcpSendSegment net' p flags data) := h.of_eq rfl rfl

theorem editSocket (h : Keeps net net') {g : Socket → Socket} (hg : ∀ s, (g s).inUse = s.inUse) :
    Keeps net (net'.editSocket k g) := by
  refine ⟨fun j => ?_, h.alive⟩
  rw [← h.inUse j]
  exact editSocket_same net' k j Socket.inUse (hg _)

/-- A task that is put to sleep or woken is not dead. -/
theorem setTask (h : Keeps net net') {st : TaskState} (hst : st ≠ .dead) :
    Keeps net { net' with tasks := Function.update net'.tasks task st } := by
  refine ⟨h.inUse, fun task' halive => ?_⟩
  by_cases htask : task' = task
  · subst htask
    simpa using hst
  · simpa [htask] using h.alive task' halive

theorem wake (h : Keeps net net') : Keeps net (net'.wake k) := by
  rw [NetState.wake]
  split
  · exact h
  · have hsocket : Keeps net (net'.editSocket k fun s => { s with waitingTask := none }) :=
      editSocket h fun _ => rfl
    exact setTask hsocket (by simp)

theorem sleepOn (h : Keeps net net') : Keeps net (Net.sleepOn net' k task) := by
  have hsocket : Keeps net (net'.editSocket k fun s => { s with waitingTask := some task }) :=
    editSocket h fun _ => rfl
  exact setTask hsocket nofun

theorem ensurePcb (h : Keeps net net') (hensure : Net.ensurePcb net' k ptr = some (net'', p)) :
    Keeps net net'' := by
  rw [Net.ensurePcb] at hensure
  split at hensure
  · cases hensure
    exact h
  · obtain ⟨net₁, hnew, heq⟩ := Option.map_eq_some_iff.mp hensure
    cases heq
    rw [tcpNewPcb] at hnew
    split at hnew
    · cases hnew
    · obtain ⟨i, -, rfl⟩ := Option.map_eq_some_iff.mp hnew
      refine editPcb (editSocket (h.of_eq ?_ ?_) fun _ => ?_)
      all_goals rfl

theorem listen (net : NetState) (k : ℕ) (ptr : Ptr) : Keeps net (socketListen net k ptr) := by
  rw [socketListen]
  split
  · split
    · exact (refl net).of_eq rfl rfl
    · next hensure => exact editPcb ((refl net).ensurePcb hensure)
  · exact refl net

theorem connect (net : NetState) (k : ℕ) (addr : Word) (port : Port) (ptr : Ptr) :
    Keeps net (socketConnect net k addr port ptr) := by
  have haddr : Keeps net (net.editSocket k fun s => { s with remoteAddr := addr, remotePort := port }) :=
    editSocket (refl net) fun _ => rfl
  rw [socketConnect]
  dsimp only
  split
  · split
    · exact haddr.of_eq rfl rfl
    · next hensure => exact (haddr.ensurePcb hensure).of_eq rfl rfl
  · exact haddr

theorem connectSyn (net : NetState) (k task : ℕ) : Keeps net (socketConnectSyn net k task) := by
  rw [socketConnectSyn]
  split
  · next q _ _ =>
    have hsent : Keeps net (tcpSendSegment
        (net.editPcb q fun pcb => { pcb with state := .synSent, sndNxt := 100#32 }) q tcpSyn []) :=
      send (editPcb (refl net))
    exact (sleepOn hsent).of_eq rfl rfl
  · exact refl net

theorem accept (net : NetState) (k task : ℕ) : Keeps net (socketAccept net k task) := by
  rw [socketAccept]
  split
  · split
    · exact (refl net).of_eq rfl rfl
    · split
      · exact refl net
      · exact sleepOn (refl net)
  · exact refl net

theorem recvfrom (net : NetState) (k : ℕ) (length : Word) (task : ℕ) :
    Keeps net (socketRecvfrom net k length task).1 := by
  have hsleep : Keeps net (Net.sleepOn net k task) := sleepOn (refl net)
  have hring (r : RingBuffer socketBufferSize Byte) :
      Keeps net (net.editSocket k fun s => { s with ring := r }) := editSocket (refl net) fun _ => rfl
  rw [socketRecvfrom]
  dsimp only
  split
  · exact hsleep
  · split
    · exact hring _
    · exact hring _

theorem datagram (net : NetState) (d : Datagram) : Keeps net (socketDispatchUdp net d) := by
  rw [socketDispatchUdp]
  split
  · exact refl net
  · dsimp only
    split
    · refine wake (editSocket (refl net) fun _ => ?_)
      rfl
    · exact refl net

theorem wakeSocket (h : Keeps net net') : Keeps net (Net.wakeSocket net' p) := by
  rw [Net.wakeSocket]
  split
  · exact h
  · exact wake h

theorem ackNext (h : Keeps net net') {pkt : Packet} {st : TcpState} {flags : Byte} :
    Keeps net (Net.ackNext net' p pkt st flags) := send (editPcb h)

theorem acceptData (net : NetState) (p : Ptr) (pkt : Packet) : Keeps net (Net.acceptData net p pkt) := by
  rw [Net.acceptData]
  split
  · exact refl net
  · dsimp only
    split
    · refine wake (send (editPcb (editSocket (refl net) fun _ => ?_)))
      rfl
    · exact refl net

theorem release (h : Keeps net net') {i : ℕ} : Keeps net (releasePcb net' i p) := h.of_eq rfl rfl

theorem tcpProcess (net : NetState) (i : ℕ) (p : Ptr) (pkt : Packet) :
    Keeps net (Net.tcpProcess net i p pkt) := by
  have hrefl := refl net
  rw [Net.tcpProcess]
  split
  · split
    · exact ackNext (editPcb hrefl)
    · exact hrefl
  · split
    · exact wakeSocket (ackNext hrefl)
    · exact hrefl
  · split
    · exact editPcb hrefl
    · exact hrefl
  · split
    · exact wakeSocket (ackNext hrefl)
    · split
      · exact acceptData net p pkt
      · exact hrefl
  · dsimp only
    split
    · exact ackNext hrefl
    · exact editPcb hrefl
  · split
    · exact release (ackNext hrefl)
    · exact hrefl
  · split
    · exact release hrefl
    · exact hrefl
  all_goals exact hrefl

/-- Calls and arrivals, but for those that claim or release a slot. -/
theorem exec {op : NetOp} (hcreate : ∀ domain type protocol, op ≠ .create domain type protocol)
    (hclose : ∀ k, op ≠ .close k) : Keeps net (net.exec op) := by
  cases op with
  | create domain type protocol => exact absurd rfl (hcreate domain type protocol)
  | bind k port addr =>
    rw [NetState.exec, socketBind]
    split
    · exact editSocket (refl net) fun _ => rfl
    · refine editPcb (editSocket (refl net) fun _ => ?_)
      rfl
  | listen k ptr => exact listen net k ptr
  | connect k addr port ptr => exact connect net k addr port ptr
  | connectSyn k task => exact connectSyn net k task
  | accept k task => exact accept net k task
  | sendto k message =>
    rw [NetState.exec, socketSendto]
    split
    · exact refl net
    · split
      · exact send (refl net)
      · exact refl net
  | recvfrom k length task => exact recvfrom net k length task
  | close k => exact absurd rfl (hclose k)
  | packet pkt =>
    rw [NetState.exec, tcpInput]
    split
    · exact refl net
    · split
      · exact refl net
      · exact tcpProcess net _ _ pkt
  | datagram d => exact datagram net d

end Keeps

/-! ## Claiming and releasing -/

section Claim

variable {net net' : NetState} {k : ℕ}

theorem freeSocket_some (h : freeSocket net = some k) :
    k < 32 ∧ (net.sockets.get k).inUse = false := by
  obtain ⟨hfound, hmem, -⟩ := List.find?_range_eq_some.mp h
  exact ⟨List.mem_range.mp hmem, by simpa using hfound⟩

/-- `socket_create` claims the slot that it returns, and no other. -/
theorem socketCreate_inUse {domain type protocol : Word}
    (h : socketCreate net domain type protocol = some (net', k)) :
    freeSocket net = some k ∧ net'.tasks = net.tasks ∧ (net'.sockets.get k).inUse = true ∧
      ∀ j, j ≠ k → net'.sockets.get j = net.sockets.get j := by
  obtain ⟨k', hfree, heq⟩ := Option.map_eq_some_iff.mp h
  cases heq
  refine ⟨hfree, rfl, ?_, fun j hj => editSocket_get_ne _ _ _ _ hj⟩
  rw [editSocket_get_self _ _ _ (freeSocket_some hfree).1]

/-- `socket_close` releases its slot, and no other. -/
theorem socketClose_inUse (net : NetState) (k : ℕ) :
    (socketClose net k).tasks = net.tasks ∧ ((socketClose net k).sockets.get k).inUse = false ∧
      ∀ j, j ≠ k → (socketClose net k).sockets.get j = net.sockets.get j := by
  have hclose {p : Ptr} : (tcpClose net p).tasks = net.tasks ∧ (tcpClose net p).sockets = net.sockets := by
    rw [tcpClose]
    split <;> exact ⟨rfl, rfl⟩
  have hrest : ∀ net' : NetState, net'.tasks = net.tasks → net'.sockets = net.sockets →
      (net'.editSocket k fun s => { s with inUse := false }).tasks = net.tasks ∧
      ((net'.editSocket k fun s => { s with inUse := false }).sockets.get k).inUse = false ∧
      ∀ j, j ≠ k → (net'.editSocket k fun s => { s with inUse := false }).sockets.get j =
        net.sockets.get j := by
    intro net' htasks hsockets
    refine ⟨htasks, ?_, fun j hj => by rw [editSocket_get_ne _ _ _ _ hj, hsockets]⟩
    by_cases hk : k < 32
    · rw [editSocket_get_self _ _ _ hk]
    · rw [Table.get_of_le _ (Nat.le_of_not_lt hk)]
      rfl
  rw [socketClose]
  cases hp : streamPcb net k with
  | none => exact hrest net rfl rfl
  | some p => exact hrest _ hclose.1 hclose.2

end Claim

end PekerOS.Net
