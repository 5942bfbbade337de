import PekerOS.Net.Lifetime
import PekerOS.Net.Buffers

/-!
# The peer's byte stream

What an established connection delivers to its socket. `tcp_input` looks at neither `rcv_nxt` nor the
sequence number of a segment before it stores the data, and does not store the data that comes with a
FIN; so the bytes delivered are those of the peer's stream as long as segments come in order and a FIN
comes alone.

## Main definitions

* `Delivery`: a state, with what was delivered to the socket since the connection was established
* `Undisturbed`, `FromPeer`: the steps that belong to the life of a connection
* `InOrder`: segments come at the end of what was delivered
* `Delivered`, `AcksRight`: a prefix of the stream, acknowledged byte for byte

## Main results

* `View.BackRef.step`: a control block in the table belongs to the socket it points to
* `stream_delivered`: in order, the peer's stream is delivered
-/

namespace PekerOS.Net

/-! ## Whose control block -/

/-- The socket that a control block in the table points to refers to it. -/
def View.BackRef (v : View) : Prop :=
  ∀ i p k, v.slots.get i = some p → v.socket p = some k → v.ref k = some p

theorem View.BackRef.step {net : NetState} {op : NetOp} (h : net.view.BackRef) :
    (net.step op).view.BackRef := by
  have hview := step_view net op
  generalize (net.step op).view = v' at hview ⊢
  cases hview with
  | @attach _ i k p st hop hcallee hi hslot hfresh huse href hst =>
    intro j q k' hq hk'
    -- the control block of the call, or one that was there before
    rcases slot_of_attach hq with ⟨rfl, rfl⟩ | ⟨-, hold⟩
    · rw [View.attach_socket_self, Option.some_inj] at hk'
      subst hk'
      exact View.attach_ref_self _ _ _ _ _
    · have hqp : q ≠ p := by
        rintro rfl
        exact hfresh j hold
      rw [View.attach_socket_ne _ _ _ hqp] at hk'
      have hback := h j q k' hold hk'
      have hk : k' ≠ k := by
        rintro rfl
        exact absurd (href.symm.trans hback) nofun
      rw [View.attach_ref_ne _ _ _ hk]
      exact hback
  | @close k hhalted huse =>
    intro j q k' hq hk'
    rw [View.close_slots] at hq
    rw [View.close_socket] at hk'
    rw [View.close_ref]
    exact h j q k' hq hk'
  | @packet pkt i p hhalted hlookup hi hslot =>
    -- a freed control block leaves its slot
    rcases packet_view pkt hi hslot with ⟨-, st, hview⟩ | ⟨st, -, hview⟩
    · rw [hview]
      exact fun j q k' hq hk' => h j q k' (slot_of_free hq).2 hk'
    · rw [hview]
      exact h
  | _ => exact h

theorem run_inj (myIp : Word) (heap : Ptr → Pcb) (ops : List NetOp) :
    (ops.foldl NetState.step (.init myIp heap)).view.Inj :=
  invariant_run (I := fun net : NetState => net.view.Inj) View.Inj.step (init_inj myIp heap)

theorem run_backRef (myIp : Word) (heap : Ptr → Pcb) (ops : List NetOp) :
    (ops.foldl NetState.step (.init myIp heap)).view.BackRef := by
  refine invariant_run (I := fun net : NetState => net.view.BackRef) View.BackRef.step ?_
  intro i p k hi
  exact absurd ((init_slots myIp heap i).symm.trans hi) nofun

theorem run_streamRings (myIp : Word) (heap : Ptr → Pcb) (ops : List NetOp) :
    StreamRings (ops.foldl NetState.step (.init myIp heap)) :=
  invariant_run (I := StreamRings) StreamRings.step (init_streamRings myIp heap)

/-! ## A connection -/

/-- The control block `p` in slot `i` and the stream socket `k` belong together. -/
structure Connected (i k : ℕ) (p : Ptr) (v : View) : Prop where
  slot : v.slots.get i = some p
  socket : v.socket p = some k
  ref : v.ref k = some p
  inUse : v.inUse k = true
  stream : v.stream k = true

/-- The connection is open on this side. -/
def TcpState.Receiving (st : TcpState) : Prop := st = .established ∨ st = .closeWait

section Connection

variable {net : NetState} {op : NetOp} {i k : ℕ} {p : Ptr}

theorem Connected.streamPcb (h : Connected i k p net.view) : streamPcb net k = some p := by
  rw [Net.streamPcb, if_pos (by simpa [NetState.view] using h.stream)]
  exact h.ref

@[simp] theorem wakeSocket_sent (net : NetState) (p : Ptr) : (wakeSocket net p).sent = net.sent := by
  rw [wakeSocket]
  split
  · rfl
  · exact wake_sent _ _

theorem nextState_receiving {st : TcpState} (flags : Byte) (h : st.Receiving) :
    ∃ st', nextState st flags = some st' := by
  rcases h with rfl | rfl
  · exact ⟨_, rfl⟩
  · exact ⟨_, rfl⟩

/-- A connection stays as it is, unless a segment comes for it or a call ends it. -/
theorem Connected.keeps (hinj : net.view.Inj) (h : Connected i k p net.view)
    (hnext : ∀ pkt, op = .packet pkt → tcpLookup net pkt = some i →
      nextState (net.view.state p) pkt.flags ≠ none) (hcall : net.callee op ≠ some p) :
    Connected i k p (net.step op).view ∧
      ((∃ pkt, op = .packet pkt ∧ net.halted = false ∧ tcpLookup net pkt = some i) ∨
        (net.step op).view.state p = net.view.state p) := by
  have hview := step_view net op
  generalize (net.step op).view = v' at hview ⊢
  cases hview with
  | @create _ _ _ j hfree hj hunused =>
    -- this socket is in use, so it is not the one that is taken
    have hne : k ≠ j := by
      rintro rfl
      exact absurd (hunused.symm.trans h.inUse) nofun
    exact ⟨⟨h.slot, h.socket, h.ref, (Function.update_of_ne hne _ _).trans h.inUse,
      (Function.update_of_ne hne _ _).trans h.stream⟩, .inr rfl⟩
  | @setState _ j q st hop hcallee huse href hst' =>
    have hne : p ≠ q := by
      rintro rfl
      exact hcall hcallee
    exact ⟨⟨h.slot, h.socket, h.ref, h.inUse, h.stream⟩, .inr (View.setState_state_ne _ _ hne)⟩
  | @attach _ i' j q st hop hcallee hi hslot hfresh huse href hst' =>
    -- a new control block goes into a slot that is free
    have hi' : i ≠ i' := by
      rintro rfl
      exact absurd (hslot.symm.trans h.slot) nofun
    have hk : k ≠ j := by
      rintro rfl
      exact absurd (href.symm.trans h.ref) nofun
    have hp : p ≠ q := by
      rintro rfl
      exact hfresh i h.slot
    exact ⟨⟨(Table.get_set_ne _ hi' _).trans h.slot, (View.attach_socket_ne _ _ _ hp).trans h.socket,
      (View.attach_ref_ne _ _ _ hk).trans h.ref, h.inUse, h.stream⟩,
      .inr (View.attach_state_ne _ _ _ hp)⟩
  | @close j hhalted huse =>
    have hk : k ≠ j := by
      rintro rfl
      exact hcall h.streamPcb
    refine ⟨⟨by rw [View.close_slots]; exact h.slot, by rw [View.close_socket]; exact h.socket,
      by rw [View.close_ref]; exact h.ref, (Function.update_of_ne hk _ _).trans h.inUse,
      by rw [View.close_stream]; exact h.stream⟩, .inr ?_⟩
    cases hq : Net.streamPcb net j with
    | none => rw [close_state_of_none hq]
    | some q =>
      have hne : p ≠ q := by
        rintro rfl
        exact hcall hq
      rw [close_state_of_some hq, Function.update_of_ne hne]
  | @packet pkt j q hhalted hlookup hj hslot =>
    -- a packet in the slot of the connection does not free it
    by_cases hji : j = i
    · subst hji
      obtain rfl := Option.some_inj.mp (hslot.symm.trans h.slot)
      rcases packet_view pkt hj hslot with ⟨hfreed, -⟩ | ⟨st', -, hview⟩
      · exact absurd hfreed (hnext pkt rfl hlookup)
      · rw [hview]
        exact ⟨⟨h.slot, h.socket, h.ref, h.inUse, h.stream⟩, .inl ⟨pkt, rfl, hhalted, hlookup⟩⟩
    · have hne : p ≠ q := by
        rintro rfl
        exact hji (hinj j i p hslot h.slot)
      rcases packet_view pkt hj hslot with ⟨-, st, hview⟩ | ⟨st, -, hview⟩
      · rw [hview]
        exact ⟨⟨(Table.get_set_ne _ (Ne.symm hji) _).trans h.slot, h.socket, h.ref, h.inUse, h.stream⟩,
          .inr (View.setState_state_ne _ _ hne)⟩
      · rw [hview]
        exact ⟨⟨h.slot, h.socket, h.ref, h.inUse, h.stream⟩, .inr (View.setState_state_ne _ _ hne)⟩
  | _ => exact ⟨h, .inr rfl⟩

/-- A connection that receives stays as it is. -/
theorem Connected.step (hinj : net.view.Inj) (h : Connected i k p net.view)
    (hst : (net.view.state p).Receiving) (hcall : net.callee op ≠ some p) :
    Connected i k p (net.step op).view ∧
      ((∃ pkt, op = .packet pkt ∧ net.halted = false ∧ tcpLookup net pkt = some i) ∨
        (net.step op).view.state p = net.view.state p) := by
  refine h.keeps hinj (fun pkt _ _ hfreed => ?_) hcall
  obtain ⟨st, hnext⟩ := nextState_receiving pkt.flags hst
  exact absurd (hfreed.symm.trans hnext) nofun

/-- Nothing is accepted for the socket of a connection, unless a segment comes for it when it is
established. -/
theorem Connected.accepted_of_not_established (h : Connected i k p net.view) (hinj : net.view.Inj)
    (hback : net.view.BackRef) (hpkt : ∀ pkt, op = .packet pkt → net.halted = false →
      tcpLookup net pkt = some i → (net.heap p).state ≠ .established) :
    accepted net op k = [] := by
  cases op with
  | packet pkt =>
    rw [accepted]
    split
    · rfl
    · next hhalted =>
      refine if_neg fun haccept => ?_
      cases hlookup : tcpLookup net pkt with
      | none => simp [acceptingSocket, dataPcb, hlookup] at haccept
      | some j =>
        obtain ⟨-, q, hq⟩ := tcpLookup_slot hlookup
        obtain ⟨⟨hst, -⟩, hsocket, -⟩ := (acceptingSocket_iff hlookup hq).mp haccept
        -- the control block that points to the socket is this one
        obtain rfl := Option.some_inj.mp ((hback j q k hq hsocket).symm.trans h.ref)
        obtain rfl := hinj j i q hq h.slot
        exact hpkt pkt rfl (Bool.eq_false_of_not_eq_true hhalted) hlookup hst
  | _ => rfl

/-- `rcv_nxt` moves by segments for the control block only. -/
theorem rcvNxt_step (hslot : net.tcpPcbs.get i = some p) (hinj : net.view.Inj)
    (hpkt : ¬∃ pkt, op = .packet pkt ∧ net.halted = false ∧ tcpLookup net pkt = some i) :
    ((net.step op).heap p).rcvNxt = (net.heap p).rcvNxt := by
  by_cases hidle : (net.halted || !op.valid net) = true
  · rw [step_of_idle hidle]
  obtain ⟨hhalted, hvalid⟩ : ¬net.halted = true ∧ op.valid net = true := by simpa using hidle
  rw [NetState.step, if_neg hidle]
  by_cases hop : op.LeavesBuffers
  · exact (exec_steady hvalid hop).rcvNxt p ⟨i, hslot⟩
  cases op with
  | create domain type protocol =>
    rw [NetState.exec, socketCreate]
    cases freeSocket net <;> rfl
  | recvfrom j length task =>
    rw [NetState.exec, socketRecvfrom]
    dsimp only
    split
    · rfl
    · split <;> rfl
  | packet pkt =>
    cases hlookup : tcpLookup net pkt with
    | none => rw [NetState.exec, tcpInput, hlookup]
    | some j =>
      obtain ⟨-, q, hq⟩ := tcpLookup_slot hlookup
      -- the packet is for another slot, and a control block has one slot only
      have hne : p ≠ q := by
        rintro rfl
        obtain rfl := hinj j i p hq hslot
        exact hpkt ⟨pkt, rfl, Bool.eq_false_of_not_eq_true hhalted, hlookup⟩
      rw [NetState.exec, tcpInput_eq hlookup hq, (tcpProcess_touches net j q pkt).pcb p hne]
  | datagram d =>
    rw [NetState.exec, socketDispatchUdp]
    split
    · rfl
    · dsimp only
      split
      · rw [wake_heap]
        rfl
      · rfl
  | _ => exact absurd trivial hop

/-- What `tcp_input` does to a connection that receives: it closes, takes data, or stays as it is. A
segment is sent in the first two cases, and acknowledges the new `rcv_nxt`. -/
theorem receive_cases {pkt : Packet} (hlookup : tcpLookup net pkt = some i)
    (hslot : net.tcpPcbs.get i = some p) (hsocket : (net.heap p).socket = some k)
    (hst : (net.heap p).state.Receiving) :
    ((net.heap p).state = .established ∧ hasFlag pkt.flags tcpFin ∧ acceptingSocket net pkt ≠ some k ∧
        ((tcpProcess net i p pkt).heap p).state = .closeWait ∧
        ((tcpProcess net i p pkt).heap p).rcvNxt = pkt.seqNum + 1#32 ∧
        ∃ seg : Sent, (tcpProcess net i p pkt).sent = net.sent ++ [seg] ∧
          seg.ackNum = pkt.seqNum + 1#32) ∨
      ((net.heap p).state = .established ∧ acceptingSocket net pkt = some k ∧
        ((tcpProcess net i p pkt).heap p).state = .established ∧
        ((tcpProcess net i p pkt).heap p).rcvNxt = pkt.seqNum + BitVec.ofNat 32 pkt.dataLen ∧
        ∃ seg : Sent, (tcpProcess net i p pkt).sent = net.sent ++ [seg] ∧
          seg.ackNum = pkt.seqNum + BitVec.ofNat 32 pkt.dataLen) ∨
      acceptingSocket net pkt ≠ some k ∧ tcpProcess net i p pkt = net := by
  have haccept := acceptingSocket_iff (k := k) hlookup hslot
  -- established, with or without a FIN, and `CLOSE_WAIT`, where nothing is taken
  rcases hst with hst | hst
  · by_cases hfin : hasFlag pkt.flags tcpFin = true
    · left
      have hnot : acceptingSocket net pkt ≠ some k := fun h => by
        have hflag := (haccept.mp h).1.2.1
        rw [hfin] at hflag
        cases hflag
      have heq : tcpProcess net i p pkt = wakeSocket (ackNext net p pkt .closeWait tcpAck) p := by
        rw [tcpProcess, hst]
        exact if_pos hfin
      rw [heq, wakeSocket_heap, wakeSocket_sent]
      refine ⟨hst, hfin, hnot, ackNext_state _ _ _ _ _, by simp [ackNext, tcpSendSegment], _, rfl, ?_⟩
      simp
    · by_cases haccept' : acceptingSocket net pkt = some k
      · right
        left
        obtain ⟨hdata, -, hroom⟩ := haccept.mp haccept'
        rw [NetState.ring] at hroom
        rw [tcpProcess_data _ _ _ _ hdata, acceptData, hsocket]
        dsimp only
        rw [if_pos hroom, wake_heap, wake_sent]
        refine ⟨hst, haccept', ?_, ?_, _, rfl, ?_⟩
        · simpa [tcpSendSegment] using hst
        · simp [tcpSendSegment]
        · simp
      · right
        right
        refine ⟨haccept', ?_⟩
        rw [tcpProcess, hst]
        dsimp only
        rw [if_neg hfin]
        split
        · next hlen =>
          rw [acceptData, hsocket]
          dsimp only
          refine if_neg fun hroom => haccept' (haccept.mpr ⟨⟨hst, ?_, hlen⟩, hsocket, hroom⟩)
          exact Bool.eq_false_of_not_eq_true hfin
        · rfl
  · right
    right
    refine ⟨fun h => ?_, by rw [tcpProcess, hst]⟩
    have hest := (haccept.mp h).1.1
    rw [hst] at hest
    cases hest

end Connection

/-! ## Delivery -/

/-- The bytes that a step appends to the buffer of socket `k`. -/
def appended (net : NetState) (op : NetOp) (k : ℕ) : List Byte :=
  (taken net op k ++ (net.step op).buffer k).drop (net.buffer k).length

/-- A state, with what was appended to the buffer of a socket since the connection was established. -/
structure Delivery where
  net : NetState
  delivered : List Byte

/-- A step, with the place in the peer's stream that a segment starts at. -/
def Delivery.step (k : ℕ) (s : Delivery) (a : NetOp × ℕ) : Delivery :=
  ⟨s.net.step a.1, s.delivered ++ appended s.net a.1 k⟩

/-- The control block that a step sends segments for. -/
def NetState.sender (net : NetState) : NetOp → Option Ptr
  | .packet pkt => (tcpLookup net pkt).bind fun i => net.tcpPcbs.get i
  | .sendto k _ => streamPcb net k
  | op => net.callee op

section Stream

variable (i k : ℕ) (p : Ptr) (isn : Word) (stream : List Byte)

/-- A segment with bytes of the stream from `off` on; its FIN comes after the last of them. -/
structure PeerSegment (pkt : Packet) (off : ℕ) : Prop where
  seqNum : pkt.seqNum = isn + 1#32 + BitVec.ofNat 32 off
  data : off + pkt.dataLen ≤ stream.length ∧ pkt.data = (stream.drop off).take pkt.dataLen
  fin : hasFlag pkt.flags tcpFin → off + pkt.dataLen = stream.length

/-- No call ends the connection, and no datagram is for its socket. -/
def Undisturbed (s : Delivery) (a : NetOp × ℕ) : Prop :=
  s.net.callee a.1 ≠ some p ∧ ∀ d, a.1 = .datagram d → udpTarget s.net d.destPort ≠ some k

/-- The segments for the connection are the peer's. -/
def FromPeer (s : Delivery) (a : NetOp × ℕ) : Prop :=
  ∀ pkt, a.1 = .packet pkt → tcpLookup s.net pkt = some i → PeerSegment isn stream pkt a.2

/-- A FIN, and data that are accepted, start where the delivered bytes end, and a FIN comes without
data. -/
def InOrder (s : Delivery) (a : NetOp × ℕ) : Prop :=
  ∀ pkt, a.1 = .packet pkt → tcpLookup s.net pkt = some i → (s.net.heap p).state = .established →
    (hasFlag pkt.flags tcpFin ∨ acceptingSocket s.net pkt = some k → a.2 = s.delivered.length) ∧
      (hasFlag pkt.flags tcpFin → pkt.dataLen = 0)

/-- What was delivered is a prefix of the stream, and `rcv_nxt` counts its bytes, and a FIN at the end
of the stream. -/
structure Delivered (s : Delivery) : Prop where
  bytes : s.delivered <+: stream
  rcvNxt : (s.net.heap p).rcvNxt = isn + 1#32 + BitVec.ofNat 32 s.delivered.length +
    if (s.net.heap p).state = .closeWait then 1#32 else 0#32
  state : (s.net.heap p).state = .established ∨
    (s.net.heap p).state = .closeWait ∧ s.delivered = stream

/-- The segments that are sent for the connection acknowledge what `rcv_nxt` counts. -/
def AcksRight (s : Delivery) (a : NetOp × ℕ) : Prop :=
  s.net.sender a.1 = some p → ∀ seg ∈ (s.net.step a.1).sent.drop s.net.sent.length,
    seg.ackNum = ((s.net.step a.1).heap p).rcvNxt

/-- A connection that delivers the stream. -/
structure Live (s : Delivery) : Prop where
  connected : Connected i k p s.net.view
  inj : s.net.view.Inj
  back : s.net.view.BackRef
  rings : StreamRings s.net
  delivered : Delivered p isn stream s

end Stream

section Steps

variable {i k : ℕ} {p : Ptr} {isn : Word} {stream : List Byte} {s : Delivery} {a : NetOp × ℕ}

theorem Live.appended_eq (h : Live i k p isn stream s) (ha : Undisturbed k p s a) :
    appended s.net a.1 k = accepted s.net a.1 k := by
  have hbuffer : taken s.net a.1 k ++ (s.net.step a.1).buffer k = _ :=
    (buffer_step h.connected.inUse (by simpa [NetState.view] using h.connected.stream)
      (h.rings k h.connected.inUse h.connected.stream)).1
  have hdep : deposited s.net a.1 k = [] := by
    cases hop : a.1 with
    | datagram d =>
      rw [deposited]
      split
      · rfl
      · exact if_neg fun hdep => ha.2 d hop hdep.1
    | _ => rfl
  rw [appended, hbuffer, hdep, List.append_nil, List.drop_left]

/-- Segments for other connections deliver nothing here. -/
theorem Live.accepted_other (h : Live i k p isn stream s)
    (hpkt : ¬∃ pkt, a.1 = .packet pkt ∧ s.net.halted = false ∧ tcpLookup s.net pkt = some i) :
    accepted s.net a.1 k = [] :=
  h.connected.accepted_of_not_established h.inj h.back fun pkt hop hhalted hlookup =>
    absurd ⟨pkt, hop, hhalted, hlookup⟩ hpkt

theorem Live.receiving (h : Live i k p isn stream s) : (s.net.heap p).state.Receiving :=
  h.delivered.state.imp_right And.left

theorem step_packet {net : NetState} {pkt : Packet} (hhalted : net.halted = false)
    (hlookup : tcpLookup net pkt = some i) (hslot : net.tcpPcbs.get i = some p) :
    net.step (.packet pkt) = tcpProcess net i p pkt := by
  rw [NetState.step, if_neg (by simp [hhalted, NetOp.valid, NetOp.socket?, NetOp.ptr?]), NetState.exec,
    tcpInput_eq hlookup hslot]

/-- A segment in order. -/
theorem Live.packet {pkt : Packet} (h : Live i k p isn stream s) (ha : Undisturbed k p s a)
    (hpeer : FromPeer i isn stream s a) (horder : InOrder i k p s a) (hop : a.1 = .packet pkt)
    (hhalted : s.net.halted = false) (hlookup : tcpLookup s.net pkt = some i) :
    Delivered p isn stream (s.step k a) := by
  have hslot : s.net.tcpPcbs.get i = some p := h.connected.slot
  have hrcv := h.delivered.rcvNxt
  obtain ⟨hseq, ⟨hlen, hdata⟩, hfin⟩ := hpeer pkt hop hlookup
  have hnet : (s.step k a).net = tcpProcess s.net i p pkt := by
    rw [Delivery.step, hop, step_packet hhalted hlookup hslot]
  have happended : appended s.net a.1 k =
      if acceptingSocket s.net pkt = some k then pkt.data else [] := by
    rw [h.appended_eq ha, hop, accepted, hhalted, if_neg (by simp)]
  rcases receive_cases hlookup hslot h.connected.socket h.receiving with
    ⟨hst, hflag, hnot, hst', hrcv', -⟩ | ⟨hst, haccept, hst', hrcv', -⟩ | ⟨hnot, hsame⟩
  · -- a FIN, after all bytes
    obtain ⟨hoff, hbare⟩ := horder pkt hop hlookup hst
    have hall : s.delivered = stream := by
      refine h.delivered.bytes.eq_of_length ?_
      rw [← hoff (.inl hflag), ← hfin hflag, hbare hflag, Nat.add_zero]
    have hdelivered : (s.step k a).delivered = s.delivered := by
      rw [Delivery.step, happended, if_neg hnot, List.append_nil]
    refine ⟨hdelivered ▸ h.delivered.bytes, ?_, .inr ⟨?_, hdelivered.trans hall⟩⟩
    · rw [hdelivered, hnet, hst', if_pos rfl, hrcv', hseq, hoff (.inl hflag)]
    · rw [hnet, hst']
  · -- data, at the end of what was delivered
    have hoff := (horder pkt hop hlookup hst).1 (.inr haccept)
    have hdelivered : (s.step k a).delivered = stream.take (s.delivered.length + pkt.dataLen) := by
      rw [Delivery.step, happended, if_pos haccept, hdata, hoff, List.take_add]
      exact congrArg (· ++ _) (List.prefix_iff_eq_take.mp h.delivered.bytes)
    refine ⟨hdelivered ▸ List.take_prefix _ _, ?_, .inl ?_⟩
    · rw [hdelivered, List.length_take, min_eq_left (hoff ▸ hlen), BitVec.ofNat_add, hnet, hst',
        if_neg (by simp), hrcv', hseq, hoff, BitVec.add_zero, BitVec.add_assoc]
    · rw [hnet, hst']
  · -- a segment that is not accepted
    have hdelivered : (s.step k a).delivered = s.delivered := by
      rw [Delivery.step, happended, if_neg hnot, List.append_nil]
    refine ⟨hdelivered ▸ h.delivered.bytes, ?_, ?_⟩
    · rw [hdelivered, hnet, hsame]
      exact hrcv
    · rw [hdelivered, hnet, hsame]
      exact h.delivered.state

theorem Live.step (h : Live i k p isn stream s) (ha : Undisturbed k p s a)
    (hpeer : FromPeer i isn stream s a) (horder : InOrder i k p s a) :
    Live i k p isn stream (s.step k a) := by
  obtain ⟨hconnected, hstate⟩ := h.connected.step h.inj h.receiving ha.1
  refine ⟨hconnected, h.inj.step, h.back.step, h.rings.step, ?_⟩
  by_cases hpkt : ∃ pkt, a.1 = .packet pkt ∧ s.net.halted = false ∧ tcpLookup s.net pkt = some i
  · obtain ⟨pkt, hop, hhalted, hlookup⟩ := hpkt
    exact h.packet ha hpeer horder hop hhalted hlookup
  · have hst : ((s.step k a).net.heap p).state = (s.net.heap p).state := hstate.resolve_left hpkt
    have hrcv : ((s.step k a).net.heap p).rcvNxt = (s.net.heap p).rcvNxt :=
      rcvNxt_step h.connected.slot h.inj hpkt
    have hdelivered : (s.step k a).delivered = s.delivered := by
      rw [Delivery.step, h.appended_eq ha, h.accepted_other hpkt, List.append_nil]
    refine ⟨hdelivered ▸ h.delivered.bytes, ?_, ?_⟩
    · rw [hst, hrcv, hdelivered]
      exact h.delivered.rcvNxt
    · rw [hst, hdelivered]
      exact h.delivered.state

theorem Live.acksRight (h : Live i k p isn stream s) (ha : Undisturbed k p s a) : AcksRight p s a := by
  intro hsender seg hseg
  have hslot : s.net.tcpPcbs.get i = some p := h.connected.slot
  cases hop : a.1 with
  | packet pkt =>
    rw [hop] at hsender hseg
    obtain ⟨j, hlookup, hj⟩ := Option.bind_eq_some_iff.mp hsender
    obtain rfl := h.inj j i p hj hslot
    by_cases hhalted : s.net.halted = true
    · -- a halted kernel sends nothing
      rw [step_of_idle (by rw [hhalted, Bool.true_or]), List.drop_length] at hseg
      cases hseg
    · rw [step_packet (Bool.eq_false_of_not_eq_true hhalted) hlookup hslot] at hseg ⊢
      rcases receive_cases hlookup hslot h.connected.socket h.receiving with
        ⟨-, -, -, -, hrcv, seg', hsent, hack⟩ | ⟨-, -, -, hrcv, seg', hsent, hack⟩ | ⟨-, hsame⟩
      · -- the answer to a FIN, to data, or none
        rw [hsent, List.drop_left, List.mem_singleton] at hseg
        rw [hseg, hack, hrcv]
      · rw [hsent, List.drop_left, List.mem_singleton] at hseg
        rw [hseg, hack, hrcv]
      · rw [hsame, List.drop_length] at hseg
        cases hseg
  | sendto j message =>
    rw [hop] at hsender hseg
    by_cases hidle : (s.net.halted || !NetOp.valid s.net (.sendto j message)) = true
    · rw [step_of_idle hidle, List.drop_length] at hseg
      cases hseg
    · have hp : streamPcb s.net j = some p := hsender
      rw [NetState.step, if_neg hidle, NetState.exec, socketSendto, hp] at hseg ⊢
      dsimp only at hseg ⊢
      split at hseg
      · next hst =>
        rw [tcpSendSegment, editPcb_sent, List.drop_left, List.mem_singleton] at hseg
        rw [hseg, if_pos hst]
        simp [tcpSendSegment]
      · rw [List.drop_length] at hseg
        cases hseg
  | _ =>
    have hcall := ha.1
    rw [hop] at hsender hcall
    exact absurd hsender hcall

/-- **Delivery**: from a state in which a connection is established and nothing was received yet, in
every run in which no call closes, listens on or reconnects it, no datagram is for its socket, the peer's
segments come in order and its FIN comes alone, what is delivered to the socket is a prefix of the peer's
stream in every state, and every segment sent acknowledges the bytes delivered, and the FIN. -/
theorem stream_delivered (myIp : Word) (heap : Ptr → Pcb) (ops : List NetOp) (i k : ℕ) (p : Ptr)
    (isn : Word) (stream : List Byte) {net : NetState}
    (hnet : net = ops.foldl NetState.step (.init myIp heap)) (hconnected : Connected i k p net.view)
    (hstate : (net.heap p).state = .established) (hrcv : (net.heap p).rcvNxt = isn + 1#32)
    (sched : List (NetOp × ℕ)) (hlife : Steps (Delivery.step k) (Undisturbed k p) ⟨net, []⟩ sched)
    (hpeer : Steps (Delivery.step k) (FromPeer i isn stream) ⟨net, []⟩ sched)
    (horder : Steps (Delivery.step k) (InOrder i k p) ⟨net, []⟩ sched) :
    Along (Delivery.step k) (Delivered p isn stream) ⟨net, []⟩ sched ∧
      Steps (Delivery.step k) (AcksRight p) ⟨net, []⟩ sched := by
  have hlive : Live i k p isn stream ⟨net, []⟩ := by
    subst hnet
    refine ⟨hconnected, run_inj myIp heap ops, run_backRef myIp heap ops, run_streamRings myIp heap ops,
      List.nil_prefix, ?_, .inl hstate⟩
    dsimp only
    rw [hstate, if_neg nofun, hrcv]
    simp
  have hsteps := hlife.and (hpeer.and horder)
  constructor
  · have halong : Along (Delivery.step k) (Live i k p isn stream) ⟨net, []⟩ sched :=
      along_of_steps (I := fun _ => True) id (fun _ h hc => h.step hc.1 hc.2.1 hc.2.2) trivial hlive hsteps
    exact halong.imp Live.delivered
  · exact Steps.imp (fun h hc => h.step hc.1 hc.2.1 hc.2.2) (fun h hc => h.acksRight hc.1) hlive hsteps

end Steps

/-- A segment of the peer with `isn` 100, from place `off` of its stream. -/
def peerSegment (off : ℕ) (data : List Byte) (flags : Byte) : Packet where
  srcIp := 7#32
  srcPort := 5000#16
  destPort := 80#16
  seqNum := 100#32 + 1#32 + BitVec.ofNat 32 off
  ackNum := 1#32
  dataOffset := 5#4
  flags := flags
  len := BitVec.ofNat 16 (20 + data.length)
  bytes := fun n => data.getD (n - 20) 0#8

/-- A socket listens on port 80 and the peer connects. -/
def acceptOps : List NetOp :=
  [.create 2#32 sockStream 0#32, .bind 0 80#16 0#32, .listen 0 4096#32,
    .packet { peerSegment 0 [] tcpSyn with seqNum := 100#32 }, .packet (peerSegment 0 [] tcpAck)]

/-- The state then. -/
def acceptedNet : NetState := acceptOps.foldl NetState.step (.init 1#32 fun _ => newPcb)

theorem acceptedNet_connected : Connected 0 0 4096#32 acceptedNet.view :=
  ⟨by decide +kernel, by decide +kernel, by decide +kernel, by decide +kernel, by decide +kernel⟩

/-- One byte, and then the FIN. -/
def inOrderSchedule : List (NetOp × ℕ) :=
  [(.packet (peerSegment 0 [7#8] tcpAck), 0), (.packet (peerSegment 1 [] (tcpFin ||| tcpAck)), 1)]

theorem stream_delivered_byte :
    Along (Delivery.step 0) (Delivered 4096#32 100#32 [7#8]) ⟨acceptedNet, []⟩ inOrderSchedule ∧
      Steps (Delivery.step 0) (AcksRight 4096#32) ⟨acceptedNet, []⟩ inOrderSchedule := by
  refine stream_delivered 1#32 (fun _ => newPcb) acceptOps 0 0 4096#32 100#32 [7#8] rfl
    acceptedNet_connected (by decide +kernel) (by decide +kernel) inOrderSchedule ?_ ?_ ?_
  · exact ⟨⟨nofun, nofun⟩, ⟨nofun, nofun⟩, trivial⟩
  · refine ⟨?_, ?_, trivial⟩ <;> rintro _ ⟨⟩ - <;>
      exact ⟨by decide +kernel, by decide +kernel, by decide +kernel⟩
  · refine ⟨?_, ?_, trivial⟩ <;> rintro _ ⟨⟩ - - <;> exact ⟨fun _ => by decide +kernel, by decide +kernel⟩

/-- The first byte, sent twice. -/
def resentSchedule : List (NetOp × ℕ) :=
  [(.packet (peerSegment 0 [7#8] tcpAck), 0), (.packet (peerSegment 0 [7#8] tcpAck), 0)]

/-- It is delivered twice. -/
theorem duplicate_delivered :
    Connected 0 0 4096#32 acceptedNet.view ∧ (acceptedNet.heap 4096#32).state = .established ∧
      (acceptedNet.heap 4096#32).rcvNxt = 100#32 + 1#32 ∧
      Steps (Delivery.step 0) (Undisturbed 0 4096#32) ⟨acceptedNet, []⟩ resentSchedule ∧
      Steps (Delivery.step 0) (FromPeer 0 100#32 [7#8, 9#8]) ⟨acceptedNet, []⟩ resentSchedule ∧
      ¬Along (Delivery.step 0) (Delivered 4096#32 100#32 [7#8, 9#8]) ⟨acceptedNet, []⟩ resentSchedule := by
  refine ⟨acceptedNet_connected, by decide +kernel, by decide +kernel,
    ⟨⟨nofun, nofun⟩, ⟨nofun, nofun⟩, trivial⟩, ⟨?_, ?_, trivial⟩, ?_⟩
  · rintro _ ⟨⟩ -
    exact ⟨by decide +kernel, by decide +kernel, by decide +kernel⟩
  · rintro _ ⟨⟩ -
    exact ⟨by decide +kernel, by decide +kernel, by decide +kernel⟩
  · rintro ⟨-, -, h⟩
    exact absurd h.bytes (by decide +kernel)

end PekerOS.Net
