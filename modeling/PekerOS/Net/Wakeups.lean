import PekerOS.Net.Buffers
import PekerOS.Net.Input

/-!
# Waking who waits

A task that sleeps on a socket waits for one of two things: for the connection, in `socket_connect` and
`socket_accept`, or for data or their end, in `socket_recvfrom`. The branches of `tcp_input` that bring
it about wake the task that is recorded in the socket of the control block, or nobody at all.

## Main definitions

* `Wait`, `Fulfils`: what a task waits for, and an arrival that brings it about
* `Woken`: the task recorded in a socket is ready, and no longer recorded
* `overlooks`, `alerts`: the branches that wake nobody, and those that wake a socket

## Main results

* `fulfils_connection`, `fulfils_data`: the branches that fulfil a wait
* `woken_iff`: which arrivals wake the task they fulfil the wait of
-/

namespace PekerOS.Net

/-- What a task waits for: `socket_connect` and `socket_accept` for the connection, `socket_recvfrom`
for data or the peer's FIN. -/
inductive Wait
  | connection
  | data
deriving DecidableEq

/-- An incoming segment or datagram. -/
def NetOp.Arrives : NetOp → Prop
  | .packet _ => True
  | .datagram _ => True
  | _ => False

/-- The connection of a socket is established. -/
def Established (net : NetState) (k : ℕ) : Prop :=
  ∃ p, (net.sockets.get k).tcpPcb = some p ∧ (net.heap p).state = .established

/-- The control block that takes a segment. -/
def tcpTarget (net : NetState) (pkt : Packet) : Option Ptr :=
  match tcpLookup net pkt with
  | none => none
  | some i => net.tcpPcbs.get i

/-- The states in which the peer's FIN is taken. -/
def TcpState.takesFin : TcpState → Bool
  | .established => true
  | .finWait1 => true
  | .finWait2 => true
  | _ => false

/-- The peer's FIN is taken on the connection of a socket. -/
def TakesFin (net : NetState) (op : NetOp) (k : ℕ) : Prop :=
  ∃ pkt p, op = .packet pkt ∧ hasFlag pkt.flags tcpFin ∧ tcpTarget net pkt = some p ∧
    (net.sockets.get k).tcpPcb = some p ∧ (net.heap p).state.takesFin

/-- An arrival brings about what a task on socket `k` waits for. -/
def Fulfils (net : NetState) (op : NetOp) (k : ℕ) : Wait → Prop
  | .connection => ¬Established net k ∧ Established (net.exec op) k
  | .data => (net.ring k).len = 0 ∧ (0 < ((net.exec op).ring k).len ∨ TakesFin net op k)

/-- The task is ready, and the socket no longer records it. -/
def Woken (net : NetState) (k task : ℕ) : Prop :=
  net.tasks task = .ready ∧ (net.sockets.get k).waitingTask = none

/-- The branches of `tcp_input` that fulfil a wait on the connection of the segment and wake nobody. -/
def overlooks : Wait → TcpState → Byte → Bool
  | .connection, .synReceived, flags => hasFlag flags tcpAck
  | .data, .finWait1, flags => hasFlag flags tcpFin
  | .data, .finWait2, flags => hasFlag flags tcpFin
  | _, _, _ => false

/-- Those that wake the task on the socket of the control block. -/
def alerts : Wait → TcpState → Byte → Bool
  | .connection, .synSent, flags => hasFlag flags tcpSyn && hasFlag flags tcpAck
  | .data, .established, flags => hasFlag flags tcpFin
  | _, _, _ => false

/-- A segment for the connection of socket `k` goes to no branch that wakes nobody, and the control
block points back to the socket where a branch wakes its socket; a task that waits for data has none
yet. -/
def WakeOk (net : NetState) (k : ℕ) (w : Wait) : NetOp → Prop
  | .packet pkt => ∀ p, tcpTarget net pkt = some p → (net.sockets.get k).tcpPcb = some p →
      (w = .data → (net.ring k).len = 0) →
      overlooks w (net.heap p).state pkt.flags = false ∧
        (alerts w (net.heap p).state pkt.flags → (net.heap p).socket = some k)
  | _ => True

/-! ## The branches -/

section Branches

variable {net : NetState} {i k task : ℕ} {p : Ptr} {pkt : Packet} {w : Wait}

theorem waiting_lt (hwait : (net.sockets.get k).waitingTask = some task) : k < 32 := by
  by_contra hk
  rw [Table.get_of_le _ (Nat.le_of_not_lt hk)] at hwait
  cases hwait

theorem wake_woken (hwait : (net.sockets.get k).waitingTask = some task) :
    Woken (net.wake k) k task := by
  rw [NetState.wake, hwait]
  have hget := editSocket_get_self net k (fun s => { s with waitingTask := none }) (waiting_lt hwait)
  exact ⟨Function.update_self _ _ _, congrArg Socket.waitingTask hget⟩

theorem not_woken (hwait : (net.sockets.get k).waitingTask = some task) : ¬Woken net k task :=
  fun h => absurd (hwait.symm.trans h.2) nofun

theorem tcpProcess_alerts (h : alerts w (net.heap p).state pkt.flags) :
    ∃ st, tcpProcess net i p pkt = wakeSocket (ackNext net p pkt st tcpAck) p := by
  cases w with
  | connection =>
    cases hst : (net.heap p).state with
    | synSent =>
      rw [hst, alerts, Bool.and_eq_true] at h
      rw [tcpProcess, hst]
      exact ⟨_, if_pos h⟩
    | _ => rw [hst] at h; cases h
  | data =>
    cases hst : (net.heap p).state with
    | established =>
      rw [hst, alerts] at h
      rw [tcpProcess, hst]
      exact ⟨_, if_pos h⟩
    | _ => rw [hst] at h; cases h

theorem tcpProcess_overlooks (h : overlooks w (net.heap p).state pkt.flags) :
    (tcpProcess net i p pkt).sockets = net.sockets := by
  cases w with
  | connection =>
    cases hst : (net.heap p).state with
    | synReceived =>
      rw [tcpProcess, hst]
      dsimp only
      split <;> rfl
    | _ => rw [hst] at h; cases h
  | data =>
    cases hst : (net.heap p).state with
    | finWait1 =>
      rw [tcpProcess, hst]
      dsimp only
      split <;> rfl
    | finWait2 =>
      rw [tcpProcess, hst]
      dsimp only
      split <;> rfl
    | _ => rw [hst] at h; cases h

/-- The socket of the control block is woken, whichever that is. -/
theorem woken_alerts (hwait : (net.sockets.get k).waitingTask = some task)
    (h : alerts w (net.heap p).state pkt.flags) :
    Woken (tcpProcess net i p pkt) k task ↔ (net.heap p).socket = some k := by
  constructor
  · intro hwoken
    by_contra hsocket
    have hget := (tcpProcess_touches net i p pkt).other k hsocket
    exact not_woken (hget ▸ hwait) hwoken
  · intro hsocket
    obtain ⟨st, heq⟩ := tcpProcess_alerts (i := i) h
    have hback : ((ackNext net p pkt st tcpAck).heap p).socket = some k := by
      rw [← hsocket]
      exact (Touches.ackNext (i := i) pkt st tcpAck).socketField
    rw [heq, wakeSocket, hback]
    exact wake_woken hwait

/-- Data are stored, and the task is woken. -/
theorem woken_accept (hwait : (net.sockets.get k).waitingTask = some task)
    (hlookup : tcpLookup net pkt = some i) (hslot : net.tcpPcbs.get i = some p)
    (h : acceptingSocket net pkt = some k) : Woken (tcpProcess net i p pkt) k task := by
  obtain ⟨hdata, hsocket, hroom⟩ := (acceptingSocket_iff hlookup hslot).mp h
  rw [NetState.ring] at hroom
  rw [tcpProcess_data _ _ _ _ hdata, acceptData, hsocket]
  dsimp only
  rw [if_pos hroom]
  refine wake_woken ?_
  rw [tcpSendSegment_sockets, editPcb_sockets, editSocket_get_self _ _ _ (waiting_lt hwait)]
  exact hwait

/-! ## What fulfils a wait -/

theorem tcpTarget_eq (hlookup : tcpLookup net pkt = some i) (hslot : net.tcpPcbs.get i = some p) :
    tcpTarget net pkt = some p := by
  rw [tcpTarget, hlookup]
  exact hslot

/-- A control block that is freed is closed. -/
theorem tcpProcess_closed (h : nextState (net.heap p).state pkt.flags = none) :
    ((tcpProcess net i p pkt).heap p).state = .closed := by
  cases hst : (net.heap p).state with
  | finWait1 =>
    rw [hst, nextState] at h
    split at h <;> cases h
  | finWait2 =>
    rw [hst, nextState] at h
    rw [tcpProcess, hst]
    dsimp only
    split at h
    · next hfin =>
      rw [if_pos hfin]
      simp [releasePcb]
    · cases h
  | lastAck =>
    rw [hst, nextState] at h
    rw [tcpProcess, hst]
    dsimp only
    split at h
    · next hack =>
      rw [if_pos hack]
      simp [releasePcb]
    · cases h
  | _ => rw [hst] at h; cases h

theorem tcpProcess_established (hslot : net.tcpPcbs.get i = some p) :
    ((tcpProcess net i p pkt).heap p).state = .established ↔
      nextState (net.heap p).state pkt.flags = some .established := by
  cases hnext : nextState (net.heap p).state pkt.flags with
  | none => simp [tcpProcess_closed hnext]
  | some st => rw [(tcpProcess_state net i p pkt hslot hnext).2, Option.some_inj]

theorem nextState_established {st : TcpState} {flags : Byte} :
    st ≠ .established ∧ nextState st flags = some .established ↔
      overlooks .connection st flags ∨ alerts .connection st flags := by
  cases st <;> simp only [nextState, overlooks, alerts] <;> grind

theorem takesFin_iff {st : TcpState} {flags : Byte} :
    st.takesFin ∧ hasFlag flags tcpFin ↔ overlooks .data st flags ∨ alerts .data st flags := by
  cases st <;> simp [TcpState.takesFin, overlooks, alerts]

/-- A connection becomes established. -/
theorem fulfils_connection (hlookup : tcpLookup net pkt = some i) (hslot : net.tcpPcbs.get i = some p) :
    Fulfils net (.packet pkt) k .connection ↔
      (net.sockets.get k).tcpPcb = some p ∧
        (overlooks .connection (net.heap p).state pkt.flags ∨
          alerts .connection (net.heap p).state pkt.flags) := by
  have htouches := tcpProcess_touches net i p pkt
  have href : ((tcpProcess net i p pkt).sockets.get k).tcpPcb = (net.sockets.get k).tcpPcb := by
    obtain ⟨r, w, hget⟩ := htouches.own k
    rw [hget]
  rw [← nextState_established, ← tcpProcess_established hslot, Fulfils, NetState.exec,
    tcpInput_eq hlookup hslot]
  constructor
  · rintro ⟨hbefore, q, hq, hafter⟩
    rw [href] at hq
    -- no other control block changes
    have hqp : q = p := by
      by_contra hne
      exact hbefore ⟨q, hq, htouches.pcb q hne ▸ hafter⟩
    subst hqp
    exact ⟨hq, fun hst => hbefore ⟨q, hq, hst⟩, hafter⟩
  · rintro ⟨hp, hbefore, hafter⟩
    refine ⟨?_, p, href.trans hp, hafter⟩
    rintro ⟨q, hq, hst⟩
    rw [hp, Option.some_inj] at hq
    exact hbefore (hq ▸ hst)

/-- Data or the FIN come to an empty buffer. -/
theorem fulfils_data (hlookup : tcpLookup net pkt = some i) (hslot : net.tcpPcbs.get i = some p) :
    Fulfils net (.packet pkt) k .data →
      (net.ring k).len = 0 ∧ (acceptingSocket net pkt = some k ∨ (net.sockets.get k).tcpPcb = some p ∧
        (overlooks .data (net.heap p).state pkt.flags ∨ alerts .data (net.heap p).state pkt.flags)) := by
  rw [Fulfils, NetState.exec, tcpInput_eq hlookup hslot]
  rintro ⟨hempty, hlen | ⟨pkt', q, hop, hfin, htarget, hq, hst⟩⟩
  · refine ⟨hempty, .inl ?_⟩
    by_contra hnot
    rw [tcpProcess_ring_ne hlookup hslot hnot, hempty] at hlen
    exact absurd hlen (lt_irrefl 0)
  · cases hop
    rw [tcpTarget_eq hlookup hslot, Option.some_inj] at htarget
    subst htarget
    exact ⟨hempty, .inr ⟨hq, takesFin_iff.mp ⟨hst, hfin⟩⟩⟩

/-- Both kinds of branches fulfil a wait on the connection of the segment. -/
theorem fulfils_of (hlookup : tcpLookup net pkt = some i) (hslot : net.tcpPcbs.get i = some p)
    (href : (net.sockets.get k).tcpPcb = some p) (hempty : w = .data → (net.ring k).len = 0)
    (h : overlooks w (net.heap p).state pkt.flags ∨ alerts w (net.heap p).state pkt.flags) :
    Fulfils net (.packet pkt) k w := by
  cases w with
  | connection => exact (fulfils_connection hlookup hslot).mpr ⟨href, h⟩
  | data =>
    obtain ⟨hst, hfin⟩ := takesFin_iff.mpr h
    exact ⟨hempty rfl, .inr ⟨pkt, p, rfl, hfin, tcpTarget_eq hlookup hslot, href, hst⟩⟩

/-- A segment that fulfils a wait goes to one of these branches, or brings data. -/
theorem fulfils_cases (hlookup : tcpLookup net pkt = some i) (hslot : net.tcpPcbs.get i = some p)
    (h : Fulfils net (.packet pkt) k w) :
    acceptingSocket net pkt = some k ∨
      (net.sockets.get k).tcpPcb = some p ∧ (w = .data → (net.ring k).len = 0) ∧
        (overlooks w (net.heap p).state pkt.flags ∨ alerts w (net.heap p).state pkt.flags) := by
  cases w with
  | connection =>
    obtain ⟨href, hbranch⟩ := (fulfils_connection hlookup hslot).mp h
    exact .inr ⟨href, nofun, hbranch⟩
  | data =>
    obtain ⟨hempty, hdata | ⟨href, hbranch⟩⟩ := fulfils_data hlookup hslot h
    · exact .inl hdata
    · exact .inr ⟨href, fun _ => hempty, hbranch⟩

/-- What leaves the connections and the buffers alone fulfils no wait. -/
theorem not_fulfils_lost (hlookup : tcpLookup net pkt = none) : ¬Fulfils net (.packet pkt) k w := by
  have hnone : tcpInput net pkt = net := by rw [tcpInput, hlookup]
  cases w with
  | connection =>
    rintro ⟨hbefore, hafter⟩
    rw [NetState.exec, hnone] at hafter
    exact hbefore hafter
  | data =>
    rintro ⟨hempty, hlen | ⟨pkt', q, hop, -, htarget, -⟩⟩
    · rw [NetState.exec, hnone, hempty] at hlen
      exact absurd hlen (lt_irrefl 0)
    · cases hop
      rw [tcpTarget, hlookup] at htarget
      cases htarget

/-- Datagrams wake whom they bring data. -/
theorem woken_datagram {d : Datagram} (hwait : (net.sockets.get k).waitingTask = some task)
    (h : Fulfils net (.datagram d) k w) : Woken (socketDispatchUdp net d) k task := by
  cases w with
  | connection =>
    -- the connections are as they were
    have hview : (socketDispatchUdp net d).view = net.view := view_datagram net d
    obtain ⟨hbefore, q, hq, hst⟩ := h
    refine absurd ⟨q, ?_, ?_⟩ hbefore
    · exact (congrArg (fun v => v.ref k) hview).symm.trans hq
    · exact (congrArg (fun v => v.state q) hview).symm.trans hst
  | data =>
    obtain ⟨hempty, hlen | ⟨pkt, q, hop, -⟩⟩ := h
    · by_cases hdep : Deposits net d k
      · have hroom := hdep.2
        rw [NetState.ring] at hroom
        rw [socketDispatchUdp, hdep.1]
        dsimp only
        rw [if_pos hroom]
        refine wake_woken ?_
        rw [editSocket_get_self _ _ _ (waiting_lt hwait)]
        exact hwait
      · rw [NetState.exec, dispatch_ring_ne net k hdep, hempty] at hlen
        exact absurd hlen (lt_irrefl 0)
    · cases hop

end Branches

/-- **Wake-ups**: an arrival that brings about what the task recorded in a socket waits for makes the
task ready, exactly if `tcp_input` does not take a branch that wakes nobody, and the control block of a
branch that wakes its socket points to this socket. -/
theorem woken_iff (net : NetState) (op : NetOp) (k task : ℕ) (w : Wait) (harrives : op.Arrives)
    (hwait : (net.sockets.get k).waitingTask = some task) :
    (Fulfils net op k w → Woken (net.exec op) k task) ↔ WakeOk net k w op := by
  cases op with
  | datagram d => exact iff_of_true (woken_datagram hwait) trivial
  | packet pkt =>
    cases hlookup : tcpLookup net pkt with
    | none =>
      -- no control block, so nothing that is waited for
      refine iff_of_true (fun h => absurd h (not_fulfils_lost hlookup)) fun p htarget => ?_
      rw [tcpTarget, hlookup] at htarget
      cases htarget
    | some i =>
      obtain ⟨-, p, hslot⟩ := tcpLookup_slot hlookup
      rw [NetState.exec, tcpInput_eq hlookup hslot]
      constructor
      · intro h q htarget href hempty
        rw [tcpTarget_eq hlookup hslot, Option.some_inj] at htarget
        subst htarget
        constructor
        · -- a segment that is overlooked fulfils the wait but wakes no task
          by_contra hnot
          have hover := Bool.eq_true_of_not_eq_false hnot
          have hwoken := h (fulfils_of hlookup hslot href hempty (.inl hover))
          exact not_woken (tcpProcess_overlooks (i := i) hover ▸ hwait) hwoken
        · intro halerts
          exact (woken_alerts hwait halerts).mp (h (fulfils_of hlookup hslot href hempty (.inr halerts)))
      · intro h hfulfils
        rcases fulfils_cases hlookup hslot hfulfils with hdata | ⟨href, hempty, hbranch⟩
        · exact woken_accept hwait hlookup hslot hdata
        · obtain ⟨hover, hsocket⟩ := h p (tcpTarget_eq hlookup hslot) href hempty
          rcases hbranch with hover' | halerts
          · exact absurd (hover'.symm.trans hover) (by simp)
          · exact (woken_alerts hwait halerts).mpr (hsocket halerts)
  | _ => exact absurd harrives id

/-- A task waits in `socket_accept`, and the peer's SYN has come. -/
def acceptWaits : List NetOp :=
  [.create 2#32 sockStream 0#32, .bind 0 80#16 0#32, .listen 0 4096#32, .accept 0 1,
    .packet (bareSegment 7#32 tcpSyn)]

/-- The state then. -/
def waitingNet : NetState := acceptWaits.foldl NetState.step (.init 1#32 fun _ => newPcb)

theorem waitingNet_task : (waitingNet.sockets.get 0).waitingTask = some 1 := by decide +kernel

theorem woken_iff_accept :
    (Fulfils waitingNet (.packet (bareSegment 7#32 tcpAck)) 0 .connection →
        Woken (waitingNet.exec (.packet (bareSegment 7#32 tcpAck))) 0 1) ↔
      WakeOk waitingNet 0 .connection (.packet (bareSegment 7#32 tcpAck)) :=
  woken_iff waitingNet _ 0 1 .connection trivial waitingNet_task

/-- The peer's ACK establishes the connection, and the task sleeps on. -/
theorem accept_sleeps : ¬∀ (net : NetState) (op : NetOp) (k task : ℕ) (w : Wait), op.Arrives →
    (net.sockets.get k).waitingTask = some task → Fulfils net op k w → Woken (net.exec op) k task := by
  intro h
  have hbefore : (waitingNet.heap 4096#32).state = .synReceived := by decide +kernel
  have href : (waitingNet.sockets.get 0).tcpPcb = some 4096#32 := by decide +kernel
  have hfulfils : Fulfils waitingNet (.packet (bareSegment 7#32 tcpAck)) 0 .connection := by
    refine ⟨?_, 4096#32, by decide +kernel, by decide +kernel⟩
    rintro ⟨p, hp, hst⟩
    obtain rfl := Option.some_inj.mp (href.symm.trans hp)
    exact absurd (hbefore.symm.trans hst) nofun
  have hwoken := h waitingNet (.packet (bareSegment 7#32 tcpAck)) 0 1 .connection trivial waitingNet_task
    hfulfils
  exact absurd hwoken.1 (by decide +kernel)

end PekerOS.Net
