import PekerOS.Net.View
import PekerOS.Lib.Run

/-!
# Local ports

`tcp_get_free_port` gives the ports from 10000 to 60000 one after the other and begins again, without a
look at the control blocks. A control block has its port from such a call, or from a `bind` or `listen` of
the user's, and keeps it as long as it is in the table. Which of these it was is recorded along a run,
with the number of calls so far.

## Main definitions

* `ReturnsFree`: the port that would be given is in the range and no control block has it
* `Origin`, `History`, `History.step`: where the port of a control block comes from, along a run
* `Clear`: no control block has the port that is next, by its origin
* `SamePorts`: the ports stay

## Main results

* `exec_ports`: the ports after each call
* `Recorded.step`: the history tells the ports
* `free_port_iff`: **in every reachable state the port is free exactly if the history is clear**
-/

namespace PekerOS.Net

/-- `tcp_get_free_port` returns a port from 10000 to 60000 that no control block of the table has. -/
structure ReturnsFree (net : NetState) : Prop where
  low : 10000 ≤ (tcpGetFreePort net).2.toNat
  high : (tcpGetFreePort net).2.toNat ≤ 60000
  free : ∀ i p, net.tcpPcbs.get i = some p → (net.heap p).localPort ≠ (tcpGetFreePort net).2

/-- Where a port comes from: the user, or the call of `tcp_get_free_port` with that many before it. -/
inductive Origin
  | user (port : Port)
  | call (n : ℕ)

/-- The port of the call with `n` before it. -/
def portOfCall (n : ℕ) : ℕ := 10000 + n % 50001

def Origin.port : Origin → Port
  | .user port => port
  | .call n => BitVec.ofNat 16 (portOfCall n)

/-- The control block that a stream socket has or is given, if it can be. -/
def pcbFor (net : NetState) (k : ℕ) (ptr : Ptr) : Option Ptr :=
  if (net.sockets.get k).type = sockStream then (ensurePcb net k ptr).map Prod.snd else none

/-- The control block whose port a call sets, and where the port comes from. -/
def setsPort (net : NetState) (calls : ℕ) : NetOp → Option (Ptr × Origin)
  | .bind k port _ => (streamPcb net k).map fun p => (p, .user port)
  | .listen k ptr => (pcbFor net k ptr).map fun p => (p, .user (net.sockets.get k).localPort)
  | .connect k _ _ ptr => (pcbFor net k ptr).map fun p => (p, .call calls)
  | _ => none

/-- A state with what has happened before: the number of calls of `tcp_get_free_port`, and where the port of
each control block comes from. -/
structure History where
  net : NetState
  calls : ℕ
  origin : Ptr → Origin

namespace History

/-- At boot there are no control blocks. -/
def init (myIp : Word) (heap : Ptr → Pcb) : History := ⟨.init myIp heap, 0, fun _ => .user 0#16⟩

def step (h : History) (op : NetOp) : History :=
  if h.net.halted || !op.valid h.net then h
  else
    match setsPort h.net h.calls op with
    | none => { h with net := h.net.exec op }
    | some (p, .user port) => ⟨h.net.exec op, h.calls, Function.update h.origin p (.user port)⟩
    | some (p, .call n) => ⟨h.net.exec op, h.calls + 1, Function.update h.origin p (.call n)⟩

theorem step_net (h : History) (op : NetOp) : (h.step op).net = h.net.step op := by
  rw [step, NetState.step]
  split
  · rfl
  · split <;> rfl

/-- The history belongs to the run. -/
theorem foldl_net (h : History) (ops : List NetOp) :
    (ops.foldl step h).net = ops.foldl NetState.step h.net := by
  induction ops generalizing h with
  | nil => rfl
  | cons op ops ih => rw [List.foldl_cons, List.foldl_cons, ih, step_net]

end History

/-- No control block of the table has the port that is next: none from the user, and none from a call that
was a multiple of 50001 calls before. -/
def Clear (h : History) : Prop :=
  ∀ i p, h.net.tcpPcbs.get i = some p →
    match h.origin p with
    | .user port => port.toNat ≠ portOfCall h.calls
    | .call n => ¬50001 ∣ h.calls - n

/-! ## What calls leave -/

/-- The ports stay, and so do the control blocks, but for those that are freed. -/
structure SamePorts (net net' : NetState) : Prop where
  nextPort : net'.nextPort = net.nextPort
  slot : ∀ i p, net'.tcpPcbs.get i = some p → net.tcpPcbs.get i = some p
  port : ∀ p, (net'.heap p).localPort = (net.heap p).localPort

namespace SamePorts

variable {net net' net'' : NetState} {p : Ptr} {f : Pcb → Pcb} {i k : ℕ}

theorem refl (net : NetState) : SamePorts net net := ⟨rfl, fun _ _ h => h, fun _ => rfl⟩

theorem trans (h : SamePorts net net') (h' : SamePorts net' net'') : SamePorts net net'' :=
  ⟨h'.nextPort.trans h.nextPort, fun i p hi => h.slot i p (h'.slot i p hi),
    fun p => (h'.port p).trans (h.port p)⟩

theorem of_eq (hnext : net'.nextPort = net.nextPort) (hslots : net'.tcpPcbs = net.tcpPcbs)
    (hheap : net'.heap = net.heap) : SamePorts net net' :=
  ⟨hnext, fun _ _ h => hslots ▸ h, fun p => by rw [hheap]⟩

theorem editPcb (hf : (f (net.heap p)).localPort = (net.heap p).localPort) :
    SamePorts net (net.editPcb p f) :=
  ⟨rfl, fun _ _ h => h, fun q => editPcb_same net p q f Pcb.localPort hf⟩

theorem send (flags : Byte) (data : List Byte) : SamePorts net (tcpSendSegment net p flags data) := by
  refine ⟨rfl, fun _ _ h => h, fun q => ?_⟩
  by_cases hq : q = p
  · subst hq
    obtain ⟨n, hn⟩ := tcpSendSegment_heap_self net q flags data
    rw [hn]
  · rw [tcpSendSegment_heap_ne net p q flags data hq]

theorem wake : SamePorts net (net.wake k) := by
  rw [NetState.wake]
  split
  · exact refl net
  · exact of_eq rfl rfl rfl

theorem wakeSocket : SamePorts net (wakeSocket net p) := by
  rw [Net.wakeSocket]
  split
  · exact refl net
  · exact wake

theorem ackNext {pkt : Packet} {st : TcpState} {flags : Byte} :
    SamePorts net (ackNext net p pkt st flags) := by
  have hedit : SamePorts net
      (net.editPcb p fun pcb => { pcb with rcvNxt := pkt.seqNum + 1#32, state := st }) :=
    editPcb rfl
  exact hedit.trans (send _ _)

theorem release : SamePorts net (releasePcb net i p) := by
  refine ⟨rfl, fun j q h => ?_, fun q =>
    editPcb_same net p q (fun pcb => { pcb with state := .closed }) Pcb.localPort rfl⟩
  by_cases hj : j = i
  · subst hj
    by_cases hlt : j < 16
    · rw [releasePcb, Table.get_set_self _ hlt] at h
      cases h
    · rw [Table.get_of_le _ (Nat.le_of_not_lt hlt)] at h
      cases h
  · rwa [releasePcb, Table.get_set_ne _ hj] at h

theorem acceptData {pkt : Packet} : SamePorts net (acceptData net p pkt) := by
  rw [Net.acceptData]
  split
  · exact refl net
  · dsimp only
    split
    · exact ((of_eq rfl rfl rfl : SamePorts net (net.editSocket _ _)).trans (editPcb rfl)).trans
        ((send _ _).trans wake)
    · exact refl net

theorem tcpProcess {pkt : Packet} : SamePorts net (tcpProcess net i p pkt) := by
  rw [Net.tcpProcess]
  split
  · split
    · exact (editPcb rfl).trans ackNext
    · exact refl net
  · split
    · exact ackNext.trans wakeSocket
    · exact refl net
  · split
    · exact editPcb rfl
    · exact refl net
  · split
    · exact ackNext.trans wakeSocket
    · split
      · exact acceptData
      · exact refl net
  · dsimp only
    split
    · exact ackNext
    · exact editPcb rfl
  · split
    · exact ackNext.trans release
    · exact refl net
  · split
    · exact release
    · exact refl net
  all_goals exact refl net

theorem tcpClose : SamePorts net (tcpClose net p) := by
  rw [Net.tcpClose]
  split
  · exact (send _ _).trans (editPcb rfl)
  · exact (send _ _).trans (editPcb rfl)
  · exact editPcb rfl

end SamePorts

/-- A control block is given a port: another one keeps its own, and only this one may be new. -/
structure GivesPort (p : Ptr) (port : Port) (net net' : NetState) : Prop where
  given : (net'.heap p).localPort = port
  slot : ∀ i q, q ≠ p → net'.tcpPcbs.get i = some q → net.tcpPcbs.get i = some q
  port : ∀ q, q ≠ p → (net'.heap q).localPort = (net.heap q).localPort

section Exec

variable {net net' : NetState} {k : ℕ} {p ptr : Ptr}

theorem setsPort_call {calls n : ℕ} {op : NetOp} (h : setsPort net calls op = some (p, .call n)) :
    n = calls := by
  cases op with
  | bind k port addr =>
    obtain ⟨q, -, heq⟩ := Option.map_eq_some_iff.mp h
    cases heq
  | listen k ptr =>
    obtain ⟨q, -, heq⟩ := Option.map_eq_some_iff.mp h
    cases heq
  | connect k addr port ptr =>
    obtain ⟨q, -, heq⟩ := Option.map_eq_some_iff.mp h
    cases heq
    rfl
  | _ => cases h

/-- A socket has its control block, or gets a new one. -/
theorem ensurePcb_ports (h : ensurePcb net k ptr = some (net', p)) : net'.nextPort = net.nextPort ∧
    (net'.sockets.get k).localPort = (net.sockets.get k).localPort ∧
      (∀ i q, q ≠ p → net'.tcpPcbs.get i = some q → net.tcpPcbs.get i = some q) ∧
        ∀ q, q ≠ p → (net'.heap q).localPort = (net.heap q).localPort := by
  rw [ensurePcb] at h
  split at h
  · simp only [Option.some_inj, Prod.mk.injEq] at h
    obtain ⟨rfl, rfl⟩ := h
    exact ⟨rfl, rfl, fun _ _ _ h => h, fun _ _ => rfl⟩
  · obtain ⟨net₁, hnew, h⟩ := Option.map_eq_some_iff.mp h
    simp only [Prod.mk.injEq] at h
    obtain ⟨rfl, rfl⟩ := h
    rw [tcpNewPcb] at hnew
    split at hnew
    · cases hnew
    · obtain ⟨i, hi, rfl⟩ := Option.map_eq_some_iff.mp hnew
      have hlt := List.mem_range.mp (List.find?_range_eq_some.mp hi).2.1
      refine ⟨rfl, ?_, fun j q hq h => ?_, fun q hq => ?_⟩
      · exact editSocket_same net k k (g := fun s => { s with tcpPcb := some ptr })
          Socket.localPort rfl
      · by_cases hj : j = i
        · subst hj
          exact absurd (Option.some.inj ((Table.get_set_self _ hlt _).symm.trans h)).symm hq
        · exact (Table.get_set_ne _ hj _).symm.trans h
      · rw [editPcb_heap_ne _ _ _ _ hq]
        exact congrArg Pcb.localPort (Function.update_of_ne hq _ _)

/-- An assignment to a socket that leaves its type and its control block. -/
structure LeavesPcb (net : NetState) (k : ℕ) (g : Socket → Socket) : Prop where
  type : (g (net.sockets.get k)).type = (net.sockets.get k).type
  tcpPcb : (g (net.sockets.get k)).tcpPcb = (net.sockets.get k).tcpPcb

variable {g : Socket → Socket}

theorem LeavesPcb.streamPcb (hg : LeavesPcb net k g) :
    streamPcb (net.editSocket k g) k = streamPcb net k := by
  rw [Net.streamPcb, Net.streamPcb, editSocket_type net k k hg.type,
    editSocket_same net k k Socket.tcpPcb hg.tcpPcb]

theorem LeavesPcb.pcbFor (hg : LeavesPcb net k g) :
    pcbFor (net.editSocket k g) k ptr = pcbFor net k ptr := by
  rw [Net.pcbFor, Net.pcbFor, editSocket_type net k k hg.type, ensurePcb, ensurePcb,
    editSocket_same net k k Socket.tcpPcb hg.tcpPcb]
  cases (net.sockets.get k).tcpPcb with
  | some p => rfl
  | none =>
    refine if_congr Iff.rfl ?_ rfl
    simp only [Option.map_map, tcpNewPcb, freeSlot, editSocket_tcpPcbs]
    by_cases hptr : ptr = 0#32
    · rw [if_pos hptr, if_pos hptr]
    · rw [if_neg hptr, if_neg hptr, Option.map_map, Option.map_map]
      rfl

/-- **The ports after each call.** -/
theorem exec_ports (net : NetState) (calls : ℕ) (op : NetOp) :
    match setsPort net calls op with
    | none => SamePorts net (net.exec op)
    | some (p, .user port) => (net.exec op).nextPort = net.nextPort ∧ GivesPort p port net (net.exec op)
    | some (p, .call _) => (net.exec op).nextPort = (tcpGetFreePort net).1.nextPort ∧
      GivesPort p (tcpGetFreePort net).2 net (net.exec op) := by
  have hsocket {k : ℕ} {g : Socket → Socket} : SamePorts net (net.editSocket k g) := .of_eq rfl rfl rfl
  cases op with
  | create domain type protocol =>
    change SamePorts net (net.exec _)
    rw [NetState.exec, socketCreate]
    cases freeSocket net with
    | none => exact SamePorts.refl net
    | some k => exact hsocket
  | bind k port addr =>
    have hg : LeavesPcb net k fun s => { s with localPort := port, localAddr := addr } := ⟨rfl, rfl⟩
    rw [setsPort, NetState.exec, socketBind, hg.streamPcb]
    cases streamPcb net k with
    | none => exact hsocket
    | some p =>
      -- the user's port goes into the control block as it is
      refine ⟨rfl, ?_, fun _ _ _ h => h, fun q hq => ?_⟩
      · rw [editPcb_heap_self]
      · rw [editPcb_heap_ne _ _ _ _ hq]
        rfl
  | listen k ptr =>
    rw [setsPort, NetState.exec, socketListen, pcbFor]
    by_cases htype : (net.sockets.get k).type = sockStream
    · rw [if_pos htype, if_pos htype]
      cases hensure : ensurePcb net k ptr with
      | none => exact .of_eq rfl rfl rfl
      | some r =>
        obtain ⟨net', p⟩ := r
        obtain ⟨hnext, hport, hslot, hother⟩ := ensurePcb_ports hensure
        -- the control block, old or new, takes the port that the socket has
        refine ⟨hnext, ?_, hslot, fun q hq => ?_⟩
        · rw [editPcb_heap_self]
          exact hport
        · rw [editPcb_heap_ne _ _ _ _ hq]
          exact hother q hq
    · rw [if_neg htype, if_neg htype]
      exact SamePorts.refl net
  | connect k addr port ptr =>
    have hg : LeavesPcb net k fun s => { s with remoteAddr := addr, remotePort := port } := ⟨rfl, rfl⟩
    rw [setsPort, ← hg.pcbFor, NetState.exec, socketConnect, pcbFor]
    dsimp only
    by_cases htype : ((net.editSocket k fun s =>
        { s with remoteAddr := addr, remotePort := port }).sockets.get k).type = sockStream
    · rw [if_pos htype, if_pos htype]
      cases hensure : ensurePcb (net.editSocket k fun s =>
          { s with remoteAddr := addr, remotePort := port }) k ptr with
      | none => exact .of_eq rfl rfl rfl
      | some r =>
        obtain ⟨net', p⟩ := r
        obtain ⟨hnext, -, hslot, hother⟩ := ensurePcb_ports hensure
        have hnext' : net'.nextPort = net.nextPort := hnext
        -- the port is asked for after the control block, whose making leaves the counter alone
        refine ⟨?_, ?_, hslot, fun q hq => ?_⟩
        · simp only [tcpGetFreePort, NetState.editPcb, hnext']
        · rw [editPcb_heap_self]
          exact hnext
        · rw [editPcb_heap_ne _ _ _ _ hq]
          exact hother q hq
    · rw [if_neg htype, if_neg htype]
      exact hsocket
  | connectSyn k task =>
    change SamePorts net (net.exec _)
    rw [NetState.exec, socketConnectSyn]
    split
    · next p hconnecting hp =>
      have hedit : SamePorts net
          (net.editPcb p fun pcb => { pcb with state := .synSent, sndNxt := 100#32 }) :=
        SamePorts.editPcb rfl
      exact (hedit.trans (SamePorts.send tcpSyn [])).trans (.of_eq rfl rfl rfl)
    · exact SamePorts.refl net
  | accept k task =>
    change SamePorts net (net.exec _)
    rw [NetState.exec, socketAccept]
    split
    · split
      · exact .of_eq rfl rfl rfl
      · split
        · exact SamePorts.refl net
        · exact .of_eq rfl rfl rfl
    · exact SamePorts.refl net
  | sendto k message =>
    change SamePorts net (net.exec _)
    rw [NetState.exec, socketSendto]
    split
    · exact SamePorts.refl net
    · split
      · exact SamePorts.send _ _
      · exact SamePorts.refl net
  | recvfrom k length task =>
    change SamePorts net (net.exec _)
    rw [NetState.exec, socketRecvfrom]
    dsimp only
    split
    · exact .of_eq rfl rfl rfl
    · split <;> exact .of_eq rfl rfl rfl
  | close k =>
    change SamePorts net (net.exec _)
    rw [NetState.exec, socketClose]
    split
    · exact hsocket
    · exact SamePorts.tcpClose.trans (.of_eq rfl rfl rfl)
  | packet pkt =>
    change SamePorts net (net.exec _)
    rw [NetState.exec, tcpInput]
    split
    · exact SamePorts.refl net
    · split
      · exact SamePorts.refl net
      · exact SamePorts.tcpProcess
  | datagram d =>
    change SamePorts net (net.exec _)
    rw [NetState.exec, socketDispatchUdp]
    split
    · exact SamePorts.refl net
    · dsimp only
      split
      · exact hsocket.trans SamePorts.wake
      · exact SamePorts.refl net

end Exec

/-! ## The history -/

/-- The history tells which port is next, and which port each control block of the table has. -/
structure Recorded (h : History) : Prop where
  nextPort : h.net.nextPort.toNat = portOfCall h.calls
  port : ∀ i p, h.net.tcpPcbs.get i = some p → (h.net.heap p).localPort = (h.origin p).port
  past : ∀ i p n, h.net.tcpPcbs.get i = some p → h.origin p = .call n → n < h.calls

section Recorded

variable {h : History}

theorem portOfCall_bounds (n : ℕ) : 10000 ≤ portOfCall n ∧ portOfCall n ≤ 60000 := by
  rw [portOfCall]
  omega

theorem toNat_port_call (n : ℕ) : (Origin.call n).port.toNat = portOfCall n := by
  have hn := portOfCall_bounds n
  rw [Origin.port, BitVec.toNat_ofNat]
  omega

/-- The counter goes on, or begins again. -/
theorem nextPort_tcpGetFreePort {net : NetState} {n : ℕ} (hnext : net.nextPort.toNat = portOfCall n) :
    (tcpGetFreePort net).1.nextPort.toNat = portOfCall (n + 1) := by
  have hsucc : (net.nextPort + 1#16).toNat = portOfCall n + 1 := by
    have hn := portOfCall_bounds n
    have hone : (1#16).toNat = 1 := rfl
    rw [BitVec.toNat_add, hnext, hone]
    exact Nat.mod_eq_of_lt (by omega)
  have hlt : 60000#16 < net.nextPort + 1#16 ↔ 60000 < portOfCall n + 1 := by
    rw [BitVec.lt_def, hsucc]
    rfl
  rw [portOfCall] at hsucc hlt ⊢
  by_cases hend : 60000#16 < net.nextPort + 1#16
  · rw [tcpGetFreePort, if_pos hend]
    have := hlt.mp hend
    change 10000 = _
    omega
  · rw [tcpGetFreePort, if_neg hend, hsucc]
    have := (not_congr hlt).mp hend
    omega

theorem Recorded.init (myIp : Word) (heap : Ptr → Pcb) : Recorded (.init myIp heap) := by
  have hempty : ∀ i p, (History.init myIp heap).net.tcpPcbs.get i ≠ some p := fun i p hi => by
    by_cases hlt : i < 16
    · rw [History.init, NetState.init, Table.get_ofFn _ hlt] at hi
      cases hi
    · rw [Table.get_of_le _ (Nat.le_of_not_lt hlt)] at hi
      cases hi
  exact ⟨rfl, fun i p hi => absurd hi (hempty i p), fun i p _ hi => absurd hi (hempty i p)⟩

/-- The port of a control block is given, and recorded. -/
theorem Recorded.given (hr : Recorded h) {p : Ptr} {o : Origin} {net' : NetState} {calls : ℕ}
    (hgives : GivesPort p o.port h.net net') (hnext : net'.nextPort.toNat = portOfCall calls)
    (hcalls : h.calls ≤ calls) (hpast : ∀ n, o = .call n → n < calls) :
    Recorded ⟨net', calls, Function.update h.origin p o⟩ := by
  refine ⟨hnext, fun i q hi => ?_, fun i q n hi ho => ?_⟩
  · by_cases hq : q = p
    · subst hq
      dsimp only
      rw [Function.update_self]
      exact hgives.given
    · dsimp only
      rw [Function.update_of_ne hq, hgives.port q hq]
      exact hr.port i q (hgives.slot i q hq hi)
  · dsimp only at ho
    by_cases hq : q = p
    · subst hq
      rw [Function.update_self] at ho
      exact hpast n ho
    · rw [Function.update_of_ne hq] at ho
      exact (hr.past i q n (hgives.slot i q hq hi) ho).trans_le hcalls

/-- **One call** keeps the record. -/
theorem Recorded.step (hr : Recorded h) (op : NetOp) : Recorded (h.step op) := by
  have hports := exec_ports h.net h.calls op
  rw [History.step]
  split
  · exact hr
  · rcases hset : setsPort h.net h.calls op with _ | ⟨p, port | n⟩ <;> rw [hset] at hports
    · exact ⟨by rw [hports.nextPort]; exact hr.nextPort,
        fun i p hi => (hports.port p).trans (hr.port i p (hports.slot i p hi)),
        fun i p n hi => hr.past i p n (hports.slot i p hi)⟩
    · exact hr.given hports.2 (by rw [hports.1]; exact hr.nextPort) le_rfl nofun
    · obtain rfl := setsPort_call hset
      refine hr.given ?_ (by rw [hports.1]; exact nextPort_tcpGetFreePort hr.nextPort) (Nat.le_succ _)
        fun n hn => ?_
      · have hport : (Origin.call h.calls).port = (tcpGetFreePort h.net).2 :=
          BitVec.eq_of_toNat_eq ((toNat_port_call _).trans hr.nextPort.symm)
        rw [hport]
        exact hports.2
      · obtain rfl := Origin.call.inj hn
        exact Nat.lt_succ_self _

/-- In a recorded state the port is free exactly if the history is clear. -/
theorem Recorded.returnsFree_iff (hr : Recorded h) : ReturnsFree h.net ↔ Clear h := by
  have hnext : (tcpGetFreePort h.net).2.toNat = portOfCall h.calls := hr.nextPort
  have hbounds := portOfCall_bounds h.calls
  have hfree : ∀ i p, h.net.tcpPcbs.get i = some p →
      ((h.net.heap p).localPort ≠ (tcpGetFreePort h.net).2 ↔
        match h.origin p with
        | .user port => port.toNat ≠ portOfCall h.calls
        | .call n => ¬50001 ∣ h.calls - n) := by
    intro i p hi
    rw [hr.port i p hi, ne_eq, ← BitVec.toNat_inj, hnext]
    cases ho : h.origin p with
    | user port => exact Iff.rfl
    | call n =>
      have hlt := hr.past i p n hi ho
      rw [toNat_port_call, portOfCall, portOfCall]
      omega
  constructor
  · exact fun hret i p hi => (hfree i p hi).mp (hret.free i p hi)
  · intro hclear
    exact ⟨by omega, by omega, fun i p hi => (hfree i p hi).mpr (hclear i p hi)⟩

end Recorded

/-- **Free ports**: in every state that calls, packets and datagrams lead to from boot, in any order,
`tcp_get_free_port` returns a port of the range that no control block of the table has if and only if none
got its port from the user as the one that is next, or from a call a multiple of 50001 calls before. -/
theorem free_port_iff (myIp : Word) (heap : Ptr → Pcb) (ops : List NetOp) :
    ReturnsFree (ops.foldl NetState.step (.init myIp heap)) ↔
      Clear (ops.foldl History.step (.init myIp heap)) := by
  have hrecorded : Recorded (ops.foldl History.step (.init myIp heap)) :=
    invariant_run (fun hr => hr.step _) (.init myIp heap)
  rw [← hrecorded.returnsFree_iff, History.foldl_net]
  rfl

/-- A listener on port 10000, the port of the first connection. -/
theorem listener_port_given :
    let ops : List NetOp := [.create 2#32 sockStream 0#32, .bind 0 10000#16 0#32, .listen 0 4096#32]
    let net := ops.foldl NetState.step (.init 1#32 fun _ => newPcb)
    net.tcpPcbs.get 0 = some 4096#32 ∧ (tcpGetFreePort net).2 = (net.heap 4096#32).localPort ∧
      ¬ReturnsFree net := by
  intro ops net
  have hslot : net.tcpPcbs.get 0 = some 4096#32 := by decide +kernel
  have hport : (net.heap 4096#32).localPort = (tcpGetFreePort net).2 := by decide +kernel
  exact ⟨hslot, hport.symm, fun hret => hret.free 0 _ hslot hport⟩

end PekerOS.Net
