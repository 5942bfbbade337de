import PekerOS.Net.Emission
import PekerOS.Net.Wire

/-!
# A connection between two hosts

Two kernels and the frames between them, from the SYN on. The near host has called `socket_connect`; on the far
host a socket listens. The frames that the near host sends for its control block come to the far host one after
the other; otherwise the two do what they like, and anything may come to them from elsewhere. Nothing is ever
sent again, and neither `rcv_nxt` nor the window is looked at; so what keeps the stream whole is that frames keep
their order, and that the far host has room for what comes.

## Main definitions

* `Peers`, `Peers.step`: both hosts, the frames on their way, and what their tasks have sent and received
* `Peers.Ok`: what the run is assumed to be like
* `Flow`: segments whose data follow each other
* `Peers.Opening`: a SYN is on its way to a socket that listens
* `Peers.Faithful`: what was received, what is on its way, and what was sent

## Main results

* `Phase.grow`, `Phase.elsewhere`, `Phase.deliver`: the far host listens, has answered, is open, or has seen the
  end, whatever comes next
* `peers_faithful`: nothing is lost, doubled or reordered
-/

namespace PekerOS.Net

open Memory

/-- A segment on its way, with the addresses and the identification of its frame. -/
structure Flight where
  host : Host
  seg : Sent

def Flight.frame (f : Flight) : List Byte := segmentFrame f.host f.seg

/-- The host that connects, the host that listens, and the frames on their way from the one to the other. `given`
are the bytes that `socket_sendto` has accepted on the near host, `got` those that `socket_recvfrom` has
returned on the far host; `shut` says whether the near socket has been closed. -/
structure Peers where
  near : NetState
  link : List Flight
  far : NetLayer
  given : List Byte
  got : List Byte
  shut : Bool

/-- A step of the near host, with what its frames are made of; a step of the far host; or the next frame comes to
the far host, in a buffer of its driver. -/
inductive PeerOp
  | near (host : Host) (op : NetOp)
  | far (op : NetOp)
  | deliver (mem : ℕ → Byte) (length : ℕ)

/-- A call closes the socket of the control block `p`. -/
def NetState.closes (net : NetState) (p : Ptr) : NetOp → Bool
  | .close k => !(net.halted || !NetOp.valid net (.close k)) && streamPcb net k == some p
  | _ => false

section Definitions

variable (j m : ℕ) (p q : Ptr) (isn : Word)

/-- One step, for the near control block `p` and the far socket `m`. -/
def Peers.step (s : Peers) : PeerOp → Peers
  | .near host op =>
    { s with
      near := s.near.step op
      link := s.link ++ (s.near.emitted p op).map (Flight.mk host)
      -- what is sent after the end belongs to another connection
      given := if s.shut then s.given else s.given ++ s.near.handed p op
      shut := s.shut || s.near.closes p op }
  | .far op =>
    { s with
      far := { s.far with net := s.far.net.step op }
      got := s.got ++ taken s.far.net op m }
  | .deliver mem length => { s with link := s.link.tail, far := netHandlePacket s.far mem length }

/-- Until it is closed, no call but `socket_close` touches the near control block, and messages fit into a
segment. The far socket is not closed, and no datagram and no segment from elsewhere is taken for it. A frame
finds the far control block and has room in its buffer, until the end has been seen. -/
def Peers.Ok (s : Peers) : PeerOp → Prop
  | .near _ op =>
    (∀ k message, op = .sendto k message → message.length ≤ 65495) ∧
      (s.shut = false → s.near.callee op = some p →
        (∃ k, op = .close k) ∧ (s.near.heap p).state.Receiving)
  | .far op =>
    s.far.net.callee op ≠ some q ∧ (∀ d, op = .datagram d → udpTarget s.far.net d.destPort ≠ some m) ∧
      ∀ pkt, op = .packet pkt → tcpLookup s.far.net pkt ≠ some j
  | .deliver mem length =>
    ∃ f rest, s.link = f :: rest ∧ InMemory mem f.frame ∧ f.frame.length ≤ length ∧
      s.far.net.halted = false ∧ f.seg.remoteIp = s.far.net.myIp ∧
        ((s.far.net.heap q).state ≠ .closeWait →
          tcpLookup s.far.net (f.seg.packet f.host.myIp) = some j ∧
            (s.far.net.buffer m).length + f.seg.data.length ≤ socketBufferSize)

/-- The bytes that have come to the far socket. -/
def Peers.received (s : Peers) : List Byte := s.got ++ s.far.net.buffer m

/-- Segments from place `off` of the stream on, and the bytes in them; with a FIN behind them, what comes then is
of no interest. -/
inductive Flow : ℕ → List Sent → List Byte → Bool → Prop
  | nil {off : ℕ} : Flow off [] [] false
  | fin {off : ℕ} {seg : Sent} {segs : List Sent} (hseq : seg.seqNum = isn + 1#32 + BitVec.ofNat 32 off)
      (hflags : seg.flags = tcpFin ||| tcpAck) (hdata : seg.data = []) : Flow off (seg :: segs) [] true
  | cons {off : ℕ} {seg : Sent} {segs : List Sent} {bytes : List Byte} {shut : Bool}
      (hseq : seg.seqNum = isn + 1#32 + BitVec.ofNat 32 off)
      (hflags : seg.flags = tcpAck ∨ seg.flags = tcpAck ||| tcpPsh)
      (h : Flow (off + seg.data.length) segs bytes shut) : Flow off (seg :: segs) (seg.data ++ bytes) shut

end Definitions

section Flow

variable {isn : Word} {off : ℕ} {segs more : List Sent} {seg : Sent} {bytes : List Byte}

theorem Flow.append {shut : Bool} {new : List Byte} (h : Flow isn off segs bytes false)
    (hmore : Flow isn (off + bytes.length) more new shut) : Flow isn off (segs ++ more) (bytes ++ new) shut := by
  generalize hopen : false = b at h
  induction h with
  | nil => exact hmore
  | fin => cases hopen
  | @cons off seg segs bytes b hseq hflags h ih =>
    rw [List.length_append, ← Nat.add_assoc] at hmore
    rw [List.cons_append, List.append_assoc]
    exact .cons hseq hflags (ih hmore hopen)

/-- What comes behind a FIN. -/
theorem Flow.extend (more : List Sent) (h : Flow isn off segs bytes true) :
    Flow isn off (segs ++ more) bytes true := by
  generalize hshut : true = b at h
  induction h with
  | nil => cases hshut
  | fin hseq hflags hdata => exact .fin hseq hflags hdata
  | cons hseq hflags h ih => exact .cons hseq hflags (ih hshut)

theorem Flow.data (h : Flow isn off segs bytes false) : segs.flatMap Sent.data = bytes := by
  generalize hopen : false = b at h
  induction h with
  | nil => rfl
  | fin => cases hopen
  | cons hseq hflags h ih => rw [List.flatMap_cons, ih hopen]

theorem Flow.of_nil {shut : Bool} (h : Flow isn off [] bytes shut) : bytes = [] := by
  cases h
  rfl

end Flow

/-! ## The near host -/

/-- What a step adds to the segments on their way, and to the bytes accepted, and whether it closes the socket;
`near` and `near'` are the states of the control block before and after it. -/
inductive Growth (isn : Word) (given : List Byte) (near near' : TcpState) :
    List Sent → List Byte → Bool → Prop
  | quiet (h : near = .synSent → near' = .synSent) : Growth isn given near near' [] [] false
  | ack {seg : Sent} (hseq : seg.seqNum = isn + 1#32 + BitVec.ofNat 32 given.length)
      (hflags : seg.flags = tcpAck) (hdata : seg.data = []) : Growth isn given near near' [seg] [] false
  | data {seg : Sent} {message : List Byte} (h : near.Receiving)
      (hseq : seg.seqNum = isn + 1#32 + BitVec.ofNat 32 given.length)
      (hflags : seg.flags = tcpAck ||| tcpPsh) (hdata : seg.data = message) :
      Growth isn given near near' [seg] message false
  | fin {seg : Sent} (h : near.Receiving)
      (hseq : seg.seqNum = isn + 1#32 + BitVec.ofNat 32 given.length)
      (hflags : seg.flags = tcpFin ||| tcpAck) (hdata : seg.data = []) : Growth isn given near near' [seg] [] true

/-- The near control block, as long as its socket is not closed. -/
structure Near (i k : ℕ) (p : Ptr) (isn : Word) (given : List Byte) (net : NetState) : Prop where
  connected : Connected i k p net.view
  inj : net.view.Inj
  state : (net.heap p).state.Open
  sndNxt : (net.heap p).sndNxt = isn + 1#32 + BitVec.ofNat 32 given.length

section Near

variable {i k : ℕ} {p : Ptr} {isn : Word} {given : List Byte} {net : NetState} {op : NetOp}
  {near near' : TcpState} {new : List Sent} {more : List Byte} {shut : Bool}

theorem Growth.flow (h : Growth isn given near near' new more shut) : Flow isn given.length new more shut := by
  cases h with
  | quiet => exact .nil
  | @ack seg hseq hflags hdata =>
    have hflow : Flow isn given.length [seg] (seg.data ++ []) false := .cons hseq (.inl hflags) .nil
    rwa [hdata] at hflow
  | @data seg message hst hseq hflags hdata =>
    have hflow : Flow isn given.length [seg] (seg.data ++ []) false := .cons hseq (.inr hflags) .nil
    rwa [hdata, List.append_nil] at hflow
  | fin hst hseq hflags hdata => exact .fin hseq hflags hdata

theorem TcpState.Open.next {st : TcpState} (h : st.Open) (flags : Byte) : nextState st flags ≠ none := by
  rcases h with rfl | rfl | rfl <;> exact nofun

theorem TcpState.Receiving.ne_synSent {st : TcpState} (h : st.Receiving) : st ≠ .synSent := by
  rcases h with rfl | rfl <;> exact nofun

theorem closes_iff : net.closes p op = true ↔
    ∃ k, op = .close k ∧ (net.halted || !NetOp.valid net (.close k)) = false ∧ streamPcb net k = some p := by
  constructor
  · intro h
    cases op with
    | close k =>
      rw [NetState.closes, Bool.and_eq_true, Bool.not_eq_true', beq_iff_eq] at h
      exact ⟨k, rfl, h⟩
    | _ => cases h
  · rintro ⟨k, rfl, hvalid, hp⟩
    rw [NetState.closes, hvalid, hp]
    simp

/-- The end of the near side, unless the call is not executed. -/
theorem Near.close (h : Near i k p isn given net) (hst : (net.heap p).state.Receiving) {k' : ℕ}
    (hp : streamPcb net k' = some p) :
    Growth isn given (net.heap p).state ((net.step (.close k')).heap p).state (net.emitted p (.close k'))
        (net.handed p (.close k')) (net.closes p (.close k')) ∧
      (net.closes p (.close k') = false → Near i k p isn given (net.step (.close k'))) := by
  by_cases hidle : (net.halted || !NetOp.valid net (.close k')) = true
  · have hcloses : net.closes p (.close k') = false := by rw [NetState.closes, hidle]; rfl
    rw [hcloses, emitted_of_idle p hidle, step_of_idle hidle]
    exact ⟨.quiet id, fun _ => h⟩
  · have hvalid := Bool.eq_false_of_not_eq_true hidle
    have hcloses : net.closes p (.close k') = true := closes_iff.mpr ⟨k', rfl, hvalid, hp⟩
    obtain ⟨seg, hsent, hseg⟩ := emits_fin hvalid hp hst
    rw [hcloses, hsent]
    refine ⟨.fin hst (hseg.seqNum.trans h.sndNxt) hseg.flags hseg.data, ?_⟩
    intro hopen
    cases hopen

/-- A step of the near host, as long as its socket is not closed. -/
theorem Near.step (h : Near i k p isn given net)
    (hshort : ∀ k message, op = .sendto k message → message.length ≤ 65495)
    (hcall : net.callee op = some p → (∃ k, op = .close k) ∧ (net.heap p).state.Receiving) :
    Growth isn given (net.heap p).state ((net.step op).heap p).state (net.emitted p op) (net.handed p op)
        (net.closes p op) ∧
      (net.closes p op = false → Near i k p isn (given ++ net.handed p op) (net.step op)) := by
  by_cases hcallee : net.callee op = some p
  · obtain ⟨⟨k', rfl⟩, hst⟩ := hcall hcallee
    have hclose := h.close hst hcallee
    rwa [show net.handed p (.close k') = [] from rfl, List.append_nil]
  have hcloses : net.closes p op = false := by
    refine Bool.eq_false_of_not_eq_true fun hcloses => ?_
    obtain ⟨k', rfl, -, hp⟩ := closes_iff.mp hcloses
    exact hcallee hp
  obtain ⟨hconnected, -⟩ := h.connected.keeps h.inj (fun pkt _ _ => h.state.next pkt.flags) hcallee
  rw [hcloses]
  have hemits := h.connected.emits h.inj h.state hcallee
  cases hemits with
  | quiet hsent hhanded hnext hst =>
    rw [hsent, hhanded, List.append_nil]
    refine ⟨.quiet fun hsyn => ?_, fun _ => ⟨hconnected, h.inj.step, ?_, hnext.trans h.sndNxt⟩⟩
    · rcases hst with hsame | ⟨hbefore, -⟩
      · exact hsame.trans hsyn
      · exact absurd hsyn hbefore.ne_synSent
    · rcases hst with hsame | ⟨-, hafter⟩
      · rw [hsame]
        exact h.state
      · exact .inr hafter
  | ack hsent hseg hhanded hnext hst =>
    rw [hsent, hhanded, List.append_nil]
    refine ⟨.ack (hseg.seqNum.trans h.sndNxt) hseg.flags hseg.data, fun _ => ?_⟩
    exact ⟨hconnected, h.inj.step, .inr hst, hnext.trans h.sndNxt⟩
  | @data k' message seg hop hsent hseg hhanded hnext hbefore hst =>
    have hlength := hshort k' message hop
    have hwhole : message.take (message.length % 2 ^ 16) = message := by
      rw [Nat.mod_eq_of_lt (by omega), List.take_length]
    rw [hwhole] at hseg hnext
    rw [hsent, hhanded]
    refine ⟨.data hbefore (hseg.seqNum.trans h.sndNxt) hseg.flags hseg.data, fun _ => ?_⟩
    refine ⟨hconnected, h.inj.step, .inr hst, ?_⟩
    rw [hnext, h.sndNxt, List.length_append, BitVec.ofNat_add, BitVec.add_assoc]

/-- What is sent has its length in a field of its frame. -/
theorem emitted_short (hshort : ∀ k message, op = .sendto k message → message.length ≤ 65495) :
    ∀ seg ∈ net.emitted p op, seg.data.length ≤ 65495 := by
  intro seg hmem
  by_cases hidle : (net.halted || !op.valid net) = true
  · rw [emitted_of_idle p hidle] at hmem
    cases hmem
  rw [NetState.emitted, NetState.step, if_neg hidle] at hmem
  split at hmem
  · cases hmem
  · next q data hsending =>
    split at hmem
    · have hsent := exec_sent net op
      cases hsent with
      | quiet hnone => cases hnone.symm.trans hsending
      | @segment q' data' seg' hsending' hsent hip hdata =>
        rw [hsent, List.drop_left, List.mem_singleton] at hmem
        subst hmem
        rw [hdata]
        cases op with
        | sendto k message =>
          have hlength := hshort k message rfl
          rw [NetState.sending] at hsending'
          split at hsending'
          · cases hsending'
          · split at hsending'
            · cases hsending'
              exact (List.length_take_le' _ _).trans hlength
            · cases hsending'
        | connectSyn k task =>
          obtain ⟨r, -, heq⟩ := Option.map_eq_some_iff.mp hsending'
          cases heq
          exact Nat.zero_le _
        | close k =>
          rw [NetState.sending] at hsending'
          split at hsending'
          · cases hsending'
          · split at hsending'
            · cases hsending'
              exact Nat.zero_le _
            · cases hsending'
        | packet pkt =>
          rw [NetState.sending] at hsending'
          split at hsending'
          · cases hsending'
          · split at hsending'
            · cases hsending'
              exact Nat.zero_le _
            · cases hsending'
        | _ => cases hsending'
    · cases hmem

end Near

/-! ## The far host -/

/-- The control block `q` in slot `j` and the stream socket `m`, with what holds of all of them. -/
structure Attached (j m : ℕ) (q : Ptr) (net : NetState) : Prop where
  connected : Connected j m q net.view
  inj : net.view.Inj
  back : net.view.BackRef
  rings : StreamRings net

section Attached

variable {j m : ℕ} {q : Ptr} {isn : Word} {stream : List Byte} {net : NetState} {op : NetOp}

theorem Attached.step (h : Attached j m q net) (hcall : net.callee op ≠ some q)
    (hnext : ∀ pkt, op = .packet pkt → tcpLookup net pkt = some j →
      nextState (net.heap q).state pkt.flags ≠ none) : Attached j m q (net.step op) :=
  ⟨(h.connected.keeps h.inj hnext hcall).1, h.inj.step, h.back.step, h.rings.step⟩

/-- Without a datagram, what a step takes from the buffer and leaves there is what was in it and what is
accepted. -/
theorem Attached.buffer_step (h : Attached j m q net) (op : NetOp)
    (hudp : ∀ d, op = .datagram d → udpTarget net d.destPort ≠ some m) :
    taken net op m ++ (net.step op).buffer m = net.buffer m ++ accepted net op m := by
  have hstream : (net.sockets.get m).type = sockStream := by
    simpa [NetState.view] using h.connected.stream
  have hbuffer : taken net op m ++ (net.step op).buffer m =
      net.buffer m ++ accepted net op m ++ deposited net op m :=
    (Net.buffer_step h.connected.inUse hstream (h.rings m h.connected.inUse h.connected.stream)).1
  have hdep : deposited net op m = [] := by
    cases op with
    | datagram d =>
      rw [deposited]
      split
      · rfl
      · exact if_neg fun hdep => hudp d rfl hdep.1
    | _ => rfl
  rw [hbuffer, hdep, List.append_nil]

/-- A step that brings nothing for the connection. -/
theorem Attached.accepted_eq_nil (h : Attached j m q net)
    (hpkt : ∀ pkt, op = .packet pkt → tcpLookup net pkt = some j → (net.heap q).state ≠ .established) :
    accepted net op m = [] :=
  h.connected.accepted_of_not_established h.inj h.back fun pkt hop _ hlookup => hpkt pkt hop hlookup

/-- The control block does not change its state, unless a segment comes for it. -/
theorem Attached.state_step (h : Attached j m q net) (hcall : net.callee op ≠ some q)
    (hpkt : ∀ pkt, op = .packet pkt → tcpLookup net pkt ≠ some j) :
    ((net.step op).heap q).state = (net.heap q).state := by
  obtain ⟨-, hstate⟩ := h.connected.keeps h.inj (fun pkt hop hlookup => absurd hlookup (hpkt pkt hop)) hcall
  refine hstate.resolve_left ?_
  rintro ⟨pkt, hop, -, hlookup⟩
  exact hpkt pkt hop hlookup

theorem Live.attached {delivered : List Byte} (h : Live j m q isn stream ⟨net, delivered⟩) :
    Attached j m q net :=
  ⟨h.connected, h.inj, h.back, h.rings⟩

/-- The stream goes on, as long as its end has not been seen. -/
theorem Live.append {delivered : List Byte} (h : Live j m q isn stream ⟨net, delivered⟩)
    (hst : (net.heap q).state = .established) (more : List Byte) :
    Live j m q isn (stream ++ more) ⟨net, delivered⟩ :=
  ⟨h.connected, h.inj, h.back, h.rings,
    h.delivered.bytes.trans (List.prefix_append _ _), h.delivered.rcvNxt, .inl hst⟩

end Attached

/-! ## Both hosts -/

/-- The segments that come after the SYN: none, as long as it is not answered; or the ACK of the answer, and then
those with data. -/
inductive Pending (isn : Word) (near : TcpState) : List Sent → List Byte → Bool → Prop
  | silent (h : near = .synSent) : Pending isn near [] [] false
  | answered {ack : Sent} {segs : List Sent} {given : List Byte} {shut : Bool} (hflags : ack.flags = tcpAck)
      (hdata : ack.data = []) (h : Flow isn 0 (ack :: segs) given shut) : Pending isn near (ack :: segs) given shut

/-- How far the far host is: a SYN is on its way to it; it has answered; the connection is open; or it has seen
the end. -/
inductive Phase (j m : ℕ) (q : Ptr) (isn : Word) (near : TcpState) (far : NetState) (got : List Byte)
    (segs : List Sent) (given : List Byte) (shut : Bool) : Prop
  | listening {syn : Sent} {rest : List Sent} (hsegs : segs = syn :: rest) (h : Attached j m q far)
      (hst : (far.heap q).state = .listen) (hempty : got ++ far.buffer m = []) (hseq : syn.seqNum = isn)
      (hflags : syn.flags = tcpSyn) (hdata : syn.data = []) (hrest : Pending isn near rest given shut)
  | answered (h : Attached j m q far) (hst : (far.heap q).state = .synReceived)
      (hempty : got ++ far.buffer m = []) (hrcv : (far.heap q).rcvNxt = isn + 1#32)
      (hrest : Pending isn near segs given shut)
  | established {rest : List Byte} (hgiven : given = got ++ far.buffer m ++ rest)
      (h : Live j m q isn given ⟨far, got ++ far.buffer m⟩) (hst : (far.heap q).state = .established)
      (hflow : Flow isn (got ++ far.buffer m).length segs rest shut)
  | ended (hgiven : given = got ++ far.buffer m) (hshut : shut = true) (h : Attached j m q far)
      (hst : (far.heap q).state = .closeWait)

section Phase

variable {j m : ℕ} {q : Ptr} {isn : Word} {near near' : TcpState} {far : NetState} {got given more : List Byte}
  {segs new : List Sent} {shut : Bool} {op : NetOp}

theorem Pending.grow (h : Pending isn near segs given false)
    (hgrowth : Growth isn given near near' new more shut) :
    Pending isn near' (segs ++ new) (given ++ more) shut := by
  generalize hopen : false = b at h
  cases h with
  | silent hsyn =>
    cases hgrowth with
    | quiet hkeep => exact .silent (hkeep hsyn)
    | ack hseq hflags hdata => exact .answered hflags hdata (Growth.ack hseq hflags hdata : Growth isn [] near near' _ _ _).flow
    | data hst => exact absurd hsyn hst.ne_synSent
    | fin hst => exact absurd hsyn hst.ne_synSent
  | answered hflags hdata hflow =>
    subst hopen
    have hmore := hgrowth.flow
    rw [← Nat.zero_add given.length] at hmore
    exact .answered hflags hdata (hflow.append hmore)

theorem Pending.data (h : Pending isn near segs given false) : segs.flatMap Sent.data = given := by
  cases h with
  | silent => rfl
  | answered _ _ hflow => exact hflow.data

theorem Pending.of_nil (h : Pending isn near [] given shut) : given = [] := by
  cases h
  rfl

theorem Pending.extend (near' : TcpState) (new : List Sent) (h : Pending isn near segs given true) :
    Pending isn near' (segs ++ new) given true := by
  generalize hshut : true = b at h
  cases h with
  | silent => cases hshut
  | answered hflags hdata hflow =>
    subst hshut
    exact .answered hflags hdata (hflow.extend new)

/-- A step of the near host, before its socket is closed. -/
theorem Phase.grow (h : Phase j m q isn near far got segs given false)
    (hgrowth : Growth isn given near near' new more shut) :
    Phase j m q isn near' far got (segs ++ new) (given ++ more) shut := by
  cases h with
  | @listening syn rest hsegs h hst hempty hseq hflags hdata hrest =>
    exact .listening (by rw [hsegs, List.cons_append]) h hst hempty hseq hflags hdata
      (hrest.grow hgrowth)
  | answered h hst hempty hrcv hrest => exact .answered h hst hempty hrcv (hrest.grow hgrowth)
  | @established rest hgiven h hst hflow =>
    have hmore := hgrowth.flow
    rw [hgiven, List.length_append] at hmore
    refine .established ?_ (h.append hst more) hst (hflow.append hmore)
    rw [hgiven, List.append_assoc]
  | ended hgiven hshut => cases hshut

/-- A step of the near host after that. -/
theorem Phase.extend (near' : TcpState) (new : List Sent) (h : Phase j m q isn near far got segs given true) :
    Phase j m q isn near' far got (segs ++ new) given true := by
  cases h with
  | @listening syn rest hsegs h hst hempty hseq hflags hdata hrest =>
    exact .listening (by rw [hsegs, List.cons_append]) h hst hempty hseq hflags hdata
      (hrest.extend near' new)
  | answered h hst hempty hrcv hrest => exact .answered h hst hempty hrcv (hrest.extend near' new)
  | established hgiven h hst hflow => exact .established hgiven h hst (hflow.extend new)
  | ended hgiven hshut h hst => exact .ended hgiven hshut h hst

/-- A step of the far host that has nothing to do with the connection, or reads from its socket. -/
theorem Phase.elsewhere (h : Phase j m q isn near far got segs given shut) (hcall : far.callee op ≠ some q)
    (hudp : ∀ d, op = .datagram d → udpTarget far d.destPort ≠ some m)
    (hpkt : ∀ pkt, op = .packet pkt → tcpLookup far pkt ≠ some j) :
    Phase j m q isn near (far.step op) (got ++ taken far op m) segs given shut := by
  have hnot : ¬∃ pkt, op = .packet pkt ∧ far.halted = false ∧ tcpLookup far pkt = some j := by
    rintro ⟨pkt, hop, -, hlookup⟩
    exact hpkt pkt hop hlookup
  have hstep (h : Attached j m q far) : Attached j m q (far.step op) :=
    h.step hcall fun pkt hop hlookup => absurd hlookup (hpkt pkt hop)
  have hstate (h : Attached j m q far) : ((far.step op).heap q).state = (far.heap q).state :=
    h.state_step hcall hpkt
  have hrcv' (h : Attached j m q far) : ((far.step op).heap q).rcvNxt = (far.heap q).rcvNxt :=
    rcvNxt_step h.connected.slot h.inj hnot
  have hreceived (h : Attached j m q far) :
      got ++ taken far op m ++ (far.step op).buffer m = got ++ far.buffer m := by
    rw [List.append_assoc, h.buffer_step op hudp,
      h.accepted_eq_nil fun pkt hop hlookup => absurd hlookup (hpkt pkt hop), List.append_nil]
  cases h with
  | listening hsegs h hst hempty hseq hflags hdata hrest =>
    exact .listening hsegs (hstep h) ((hstate h).trans hst) ((hreceived h).trans hempty) hseq hflags hdata hrest
  | answered h hst hempty hrcv hrest =>
    exact .answered (hstep h) ((hstate h).trans hst) ((hreceived h).trans hempty) ((hrcv' h).trans hrcv) hrest
  | established hgiven h hst hflow =>
    have hatt := h.attached
    have hatt' := hstep hatt
    rw [← hreceived hatt] at hgiven hflow h
    refine .established hgiven ⟨hatt'.connected, hatt'.inj, hatt'.back, hatt'.rings, h.delivered.bytes, ?_, .inl ?_⟩
      ((hstate hatt).trans hst) hflow
    · rw [hrcv' hatt, hstate hatt]
      exact h.delivered.rcvNxt
    · exact (hstate hatt).trans hst
  | ended hgiven hshut h hst =>
    exact .ended (hgiven.trans (hreceived h).symm) hshut (hstep h) ((hstate h).trans hst)

section Deliver

variable {seg : Sent} {srcIp : Word}

/-- What `tcp_input` makes of the SYN, and of the ACK of its answer. -/
theorem tcpProcess_listen {net : NetState} {pkt : Packet} (hst : (net.heap q).state = .listen)
    (hflags : pkt.flags = tcpSyn) :
    ((tcpProcess net j q pkt).heap q).state = .synReceived ∧
      ((tcpProcess net j q pkt).heap q).rcvNxt = pkt.seqNum + 1#32 := by
  have hsyn : hasFlag pkt.flags tcpSyn = true := by rw [hflags]; decide
  rw [tcpProcess, hst]
  dsimp only
  rw [if_pos hsyn]
  simp [ackNext, tcpSendSegment]

theorem tcpProcess_synReceived {net : NetState} {pkt : Packet} (hst : (net.heap q).state = .synReceived)
    (hflags : pkt.flags = tcpAck) :
    ((tcpProcess net j q pkt).heap q).state = .established ∧
      ((tcpProcess net j q pkt).heap q).rcvNxt = (net.heap q).rcvNxt := by
  have hack : hasFlag pkt.flags tcpAck = true := by rw [hflags]; decide
  rw [tcpProcess, hst]
  dsimp only
  rw [if_pos hack]
  simp

/-- The step of the far host, before the connection is open. -/
theorem Attached.deliver (h : Attached j m q far) (hst : ¬(far.heap q).state = .established)
    (hnext : ∀ flags, nextState (far.heap q).state flags ≠ none) (pkt : Packet) :
    Attached j m q (far.step (.packet pkt)) ∧ (far.step (.packet pkt)).buffer m = far.buffer m := by
  refine ⟨h.step nofun fun pkt' _ _ => hnext pkt'.flags, ?_⟩
  have hbuffer := h.buffer_step (.packet pkt) nofun
  rwa [h.accepted_eq_nil fun _ _ _ => hst, List.append_nil] at hbuffer

/-- A segment of the open connection, at the end of what was received. -/
theorem Live.deliver {received rest : List Byte} (h : Live j m q isn given ⟨far, received⟩)
    (hst : (far.heap q).state = .established) (hhalted : far.halted = false)
    (hlookup : tcpLookup far (seg.packet srcIp) = some j) (hshort : seg.data.length ≤ 65495)
    (hroom : (far.buffer m).length + seg.data.length ≤ socketBufferSize)
    (hgiven : given = received ++ (seg.data ++ rest))
    (hseq : seg.seqNum = isn + 1#32 + BitVec.ofNat 32 received.length)
    (hfin : hasFlag seg.flags tcpFin → seg.data = [] ∧ rest = []) :
    Live j m q isn given ⟨far.step (.packet (seg.packet srcIp)), received ++ seg.data⟩ ∧
      (far.step (.packet (seg.packet srcIp))).buffer m = far.buffer m ++ seg.data ∧
        ((far.step (.packet (seg.packet srcIp))).heap q).state =
          if hasFlag seg.flags tcpFin then .closeWait else .established := by
  have hatt := h.attached
  have hdataLen := dataLen_packet srcIp hshort
  have hdata := data_packet srcIp hshort
  have hslot : far.tcpPcbs.get j = some q := hatt.connected.slot
  -- the data are accepted, as there is room for them
  have haccepted : accepted far (.packet (seg.packet srcIp)) m = seg.data := by
    rw [accepted, hhalted, if_neg Bool.false_ne_true, hdata]
    by_cases hempty : seg.data = []
    · rw [hempty, ite_self]
    · refine if_pos ((acceptingSocket_iff hlookup hslot).mpr ⟨⟨hst, ?_, ?_⟩, hatt.connected.socket, ?_⟩)
      · exact Bool.eq_false_of_not_eq_true fun hflag => hempty (hfin hflag).1
      · have hpos := List.length_pos_of_ne_nil hempty
        rw [Packet.dataLen] at hdataLen
        omega
      · rw [hdataLen]
        rw [NetState.buffer, RingBuffer.length_contents] at hroom
        exact (Nat.mod_le _ _).trans hroom
  have hundisturbed : Undisturbed m q ⟨far, received⟩ (.packet (seg.packet srcIp), received.length) :=
    ⟨(Option.some_ne_none q).symm, fun _ hop => NetOp.noConfusion hop⟩
  have hpeer : FromPeer j isn given ⟨far, received⟩ (.packet (seg.packet srcIp), received.length) := by
    intro pkt hpkt _
    cases hpkt
    refine ⟨hseq, ?_, fun hflag => ?_⟩
    · rw [hdataLen, hdata, hgiven, List.drop_left, List.take_left]
      refine ⟨?_, rfl⟩
      rw [List.length_append, List.length_append]
      omega
    · obtain ⟨hnone, hend⟩ := hfin hflag
      rw [hdataLen, hgiven, hnone, hend]
      simp
  have horder : InOrder j m q ⟨far, received⟩ (.packet (seg.packet srcIp), received.length) := by
    intro pkt hpkt _ _
    cases hpkt
    refine ⟨fun _ => rfl, fun hflag => ?_⟩
    rw [hdataLen, (hfin hflag).1]
    rfl
  have hlive := h.step hundisturbed hpeer horder
  have happended := h.appended_eq hundisturbed
  rw [Delivery.step] at hlive
  dsimp only at hlive happended
  rw [happended, haccepted] at hlive
  refine ⟨hlive, ?_, ?_⟩
  · have hbuffer := hatt.buffer_step (.packet (seg.packet srcIp)) fun _ hop => NetOp.noConfusion hop
    rwa [haccepted] at hbuffer
  · rw [step_packet hhalted hlookup hslot]
    have hnext : nextState (far.heap q).state (seg.packet srcIp).flags =
        some (if hasFlag seg.flags tcpFin then .closeWait else .established) := by
      rw [hst]
      rfl
    exact (tcpProcess_state far j q _ hslot hnext).2

/-- The next frame comes to the far host. -/
theorem Phase.deliver (h : Phase j m q isn near far got (seg :: segs) given shut) (srcIp : Word)
    (hhalted : far.halted = false) (hshort : seg.data.length ≤ 65495)
    (hfind : (far.heap q).state ≠ .closeWait →
      tcpLookup far (seg.packet srcIp) = some j ∧
        (far.buffer m).length + seg.data.length ≤ socketBufferSize) :
    Phase j m q isn near (far.step (.packet (seg.packet srcIp))) got segs given shut := by
  cases h with
  | @listening syn rest hsegs h hst hempty hseq hflags hdata hrest =>
    obtain ⟨rfl, rfl⟩ := List.cons_eq_cons.mp hsegs
    obtain ⟨hlookup, -⟩ := hfind (by rw [hst]; exact nofun)
    obtain ⟨hatt, hbuffer⟩ := h.deliver (by rw [hst]; exact nofun) (by rw [hst]; exact nofun) (seg.packet srcIp)
    have hstep := step_packet hhalted hlookup h.connected.slot
    obtain ⟨hst', hrcv⟩ := tcpProcess_listen (j := j) hst
      (show (seg.packet srcIp).flags = tcpSyn from hflags)
    rw [← hstep] at hst' hrcv
    refine .answered hatt hst' (hbuffer ▸ hempty) (hrcv.trans ?_) hrest
    exact congrArg (· + 1#32) hseq
  | answered h hst hempty hrcv hrest =>
    obtain ⟨hlookup, -⟩ := hfind (by rw [hst]; exact nofun)
    obtain ⟨hatt, hbuffer⟩ := h.deliver (by rw [hst]; exact nofun) (by rw [hst]; exact nofun) (seg.packet srcIp)
    have hstep := step_packet hhalted hlookup h.connected.slot
    cases hrest with
    | answered hflags hdata hflow =>
      obtain ⟨hst', hrcv'⟩ := tcpProcess_synReceived (j := j) hst
        (show (seg.packet srcIp).flags = tcpAck from hflags)
      rw [← hstep] at hst' hrcv'
      have hnone : got ++ (far.step (.packet (seg.packet srcIp))).buffer m = [] := hbuffer ▸ hempty
      cases hflow with
      | fin hseq hfin => exact absurd (hfin.symm.trans hflags) (by decide)
      | @cons _ _ _ bytes _ hseq _ hflow =>
        rw [hdata] at hflow ⊢
        refine .established (by rw [hnone]) ?_ hst' (by rw [hnone]; exact hflow)
        refine ⟨hatt.connected, hatt.inj, hatt.back, hatt.rings, ?_, ?_, .inl hst'⟩
        · rw [hnone]
          exact List.nil_prefix
        · dsimp only
          rw [hnone, hst', if_neg nofun, hrcv', hrcv]
          simp
  | @established rest hgiven h hst hflow =>
    obtain ⟨hlookup, hroom⟩ := hfind (by rw [hst]; exact nofun)
    cases hflow with
    | fin hseq hflags hdata =>
      have hflag : hasFlag seg.flags tcpFin = true := by rw [hflags]; decide
      obtain ⟨hlive, hbuffer, hst'⟩ := h.deliver hst hhalted hlookup hshort hroom
        (show given = got ++ far.buffer m ++ (seg.data ++ []) by rw [hgiven, hdata]; rfl) hseq
        fun _ => ⟨hdata, rfl⟩
      rw [if_pos hflag] at hst'
      rw [hdata, List.append_nil] at hbuffer
      exact .ended (by rw [hgiven, hbuffer, List.append_nil]) rfl hlive.attached hst'
    | @cons _ _ _ bytes _ hseq hflags hflow =>
      have hflag : hasFlag seg.flags tcpFin = false := by
        rcases hflags with hflags | hflags <;> rw [hflags] <;> decide
      obtain ⟨hlive, hbuffer, hst'⟩ := h.deliver hst hhalted hlookup hshort hroom hgiven hseq
        fun hfin => absurd (hflag.symm.trans hfin) nofun
      rw [hflag, if_neg Bool.false_ne_true] at hst'
      rw [List.append_assoc, ← hbuffer] at hlive
      rw [← List.length_append, List.append_assoc, ← hbuffer] at hflow
      refine .established ?_ hlive hst' hflow
      rw [hgiven, hbuffer]
      simp only [List.append_assoc]
  | ended hgiven hshut h hst =>
    obtain ⟨hatt, hbuffer⟩ := h.deliver (by rw [hst]; exact nofun) (by rw [hst]; exact nofun) (seg.packet srcIp)
    refine .ended (by rw [hgiven, hbuffer]) hshut hatt ?_
    -- whatever the segment is, after the end it changes nothing here
    obtain ⟨-, hcase⟩ := h.connected.keeps h.inj
      (fun pkt (_ : NetOp.packet (seg.packet srcIp) = .packet pkt) _ => by
        rw [show far.view.state q = .closeWait from hst]
        exact nofun) nofun
    rcases hcase with ⟨pkt, hop, -, hlookup⟩ | hsame
    · cases hop
      rw [step_packet hhalted hlookup h.connected.slot, tcpProcess, hst]
      exact hst
    · exact hsame.trans hst

end Deliver

end Phase

/-! ## Runs -/

theorem sendSegments_net (l : NetLayer) (segs : List Sent) : (l.sendSegments segs).net = l.net := by
  induction segs generalizing l with
  | nil => rfl
  | cons seg segs ih =>
    rw [NetLayer.sendSegments, List.foldl_cons]
    refine (ih _).trans ?_
    rw [NetLayer.sendPacket]
    split <;> rfl

section Runs

variable (i k j m : ℕ) (p q : Ptr) (isn : Word)

/-- The near host has just sent a SYN, and the far socket listens. -/
structure Peers.Opening (s : Peers) : Prop where
  near : Connected i k p s.near.view
  synSent : (s.near.heap p).state = .synSent
  sndNxt : (s.near.heap p).sndNxt = isn + 1#32
  far : Connected j m q s.far.net.view
  listen : (s.far.net.heap q).state = .listen
  empty : s.far.net.buffer m = []
  syn : ∃ host seg, s.link = [⟨host, seg⟩] ∧ seg.seqNum = isn ∧ seg.flags = tcpSyn ∧ seg.data = []
  fresh : s.given = [] ∧ s.got = [] ∧ s.shut = false

/-- What has come to the far socket is a prefix of what was accepted on the near host, and what is still missing
is on its way; nothing is missing when the far host has seen the end. -/
structure Peers.Faithful (s : Peers) : Prop where
  bytes : s.received m <+: s.given
  onTheWay : s.shut = false → s.received m ++ s.link.flatMap (fun f => f.seg.data) = s.given
  arrived : s.link = [] → s.received m = s.given
  ended : (s.far.net.heap q).state = .closeWait → s.shut = true ∧ s.received m = s.given

/-- The invariant of a run. -/
structure Peers.Inv (s : Peers) : Prop where
  near : s.shut = false → Near i k p isn s.given s.near
  short : ∀ f ∈ s.link, f.seg.data.length ≤ 65495
  phase : Phase j m q isn (s.near.heap p).state s.far.net s.got (s.link.map Flight.seg) s.given s.shut

variable {i k j m p q isn} {s : Peers} {op : PeerOp}

theorem Peers.Inv.step_near {host : Host} {op : NetOp} (h : s.Inv i k j m p q isn)
    (hok : s.Ok j m p q (.near host op)) : (s.step m p (.near host op)).Inv i k j m p q isn := by
  obtain ⟨hmessages, hcall⟩ := hok
  have hmap : (s.step m p (.near host op)).link.map Flight.seg =
      s.link.map Flight.seg ++ s.near.emitted p op := by
    rw [Peers.step, List.map_append, List.map_map]
    exact congrArg _ (List.map_id _)
  have hshort : ∀ f ∈ (s.step m p (.near host op)).link, f.seg.data.length ≤ 65495 := by
    intro f hf
    rcases List.mem_append.mp hf with hold | hnew
    · exact h.short f hold
    · obtain ⟨seg, hseg, rfl⟩ := List.mem_map.mp hnew
      exact emitted_short hmessages seg hseg
  cases hshut : s.shut with
  | false =>
    obtain ⟨hgrowth, hnear⟩ := (h.near hshut).step hmessages (hcall hshut)
    have hphase := h.phase
    rw [hshut] at hphase
    have hgrown := hphase.grow hgrowth
    refine ⟨fun hopen => ?_, hshort, ?_⟩
    · rw [Peers.step, hshut, Bool.false_or] at hopen
      rw [Peers.step, hshut]
      exact hnear hopen
    · rw [hmap, Peers.step, hshut]
      exact hgrown
  | true =>
    have hphase := h.phase
    rw [hshut] at hphase
    refine ⟨fun hopen => ?_, hshort, ?_⟩
    · rw [Peers.step, hshut] at hopen
      cases hopen
    · rw [hmap, Peers.step, hshut]
      exact hphase.extend _ _

theorem Peers.Inv.step_deliver {mem : ℕ → Byte} {length : ℕ} (h : s.Inv i k j m p q isn)
    (hok : s.Ok j m p q (.deliver mem length)) : (s.step m p (.deliver mem length)).Inv i k j m p q isn := by
  obtain ⟨f, rest, hlink, hmem, hlength, hhalted, hip, hfind⟩ := hok
  have hshort := h.short f (by rw [hlink]; exact List.mem_cons_self)
  have hstep : (netHandlePacket s.far mem length).net =
      s.far.net.step (.packet (f.seg.packet f.host.myIp)) := by
    rw [netHandlePacket_segment f.host s.far f.seg mem length hip hshort hmem hlength, sendSegments_net,
      NetState.step, if_neg (by rw [hhalted]; exact Bool.false_ne_true), NetState.exec]
  have hphase := h.phase
  rw [hlink, List.map_cons] at hphase
  have hdelivered := hphase.deliver f.host.myIp hhalted hshort hfind
  rw [Peers.step, hlink, List.tail_cons]
  refine ⟨h.near, fun g hg => h.short g ?_, ?_⟩
  · rw [hlink]
    exact List.mem_cons_of_mem f hg
  · dsimp only
    rw [hstep]
    exact hdelivered

theorem Peers.Inv.step (h : s.Inv i k j m p q isn) (hok : s.Ok j m p q op) :
    (s.step m p op).Inv i k j m p q isn := by
  cases op with
  | near host op => exact h.step_near hok
  | far op => exact ⟨h.near, h.short, h.phase.elsewhere hok.1 hok.2.1 hok.2.2⟩
  | deliver mem length => exact h.step_deliver hok

theorem Peers.Inv.faithful (h : s.Inv i k j m p q isn) : s.Faithful m q := by
  have hdata : s.link.flatMap (fun f => f.seg.data) = (s.link.map Flight.seg).flatMap Sent.data :=
    by rw [List.flatMap_map]
  rcases h.phase with ⟨hsegs, -, hst, hempty, -, -, hsyn, hrest⟩ | ⟨-, hst, hempty, -, hrest⟩ |
    ⟨hgiven, -, hst, hflow⟩ | ⟨hgiven, hshut, -, hst⟩
  · have hnone : s.received m = [] := hempty
    refine ⟨by rw [hnone]; exact List.nil_prefix, fun hopen => ?_, fun hlink => ?_, fun hend => ?_⟩
    · rw [hopen] at hrest
      rw [hnone, hdata, hsegs, List.flatMap_cons, hsyn]
      exact hrest.data
    · rw [hlink] at hsegs
      cases hsegs
    · exact absurd (hst.symm.trans hend) nofun
  · have hnone : s.received m = [] := hempty
    refine ⟨by rw [hnone]; exact List.nil_prefix, fun hopen => ?_, fun hlink => ?_, fun hend => ?_⟩
    · rw [hopen] at hrest
      rw [hnone, hdata]
      exact hrest.data
    · rw [hlink, List.map_nil] at hrest
      rw [hnone, hrest.of_nil]
    · exact absurd (hst.symm.trans hend) nofun
  · refine ⟨⟨_, hgiven.symm⟩, fun hopen => ?_, fun hlink => ?_, fun hend => ?_⟩
    · rw [hopen] at hflow
      rw [hdata, hflow.data, hgiven]
      rfl
    · rw [hlink, List.map_nil] at hflow
      rw [hgiven, hflow.of_nil, List.append_nil]
      rfl
    · exact absurd (hst.symm.trans hend) nofun
  · have hall : s.received m = s.given := hgiven.symm
    refine ⟨by rw [hall], fun hopen => ?_, fun _ => hall, fun _ => ⟨hshut, hall⟩⟩
    exact absurd (hshut.symm.trans hopen) nofun

/-- **A connection**: when a SYN is on its way to a socket that listens, then in every run of the two hosts in which
the frames come in order and find room, and nothing else touches the two ends (`Peers.Ok`), the bytes that come to
the far socket are a prefix of those that `socket_sendto` has accepted on the near host; what is missing is on its
way, in order; and when the far host sees the end, nothing is missing. -/
theorem peers_faithful (myIp myIp' : Word) (heap heap' : Ptr → Pcb) (ops ops' : List NetOp) (s : Peers)
    (hnear : s.near = ops.foldl NetState.step (.init myIp heap))
    (hfar : s.far.net = ops'.foldl NetState.step (.init myIp' heap'))
    (hopening : s.Opening i k j m p q isn) (sched : List PeerOp)
    (hok : Steps (Peers.step m p) (Peers.Ok j m p q) s sched) :
    Along (Peers.step m p) (Peers.Faithful m q) s sched := by
  have hinv : s.Inv i k j m p q isn := by
    obtain ⟨hconn, hsyn, hnext, hconn', hlisten, hempty, ⟨host, seg, hlink, hseq, hflags, hdata⟩, hgiven, hgot,
      hshut⟩ := hopening
    refine ⟨fun _ => ⟨hconn, ?_, .inl hsyn, ?_⟩, ?_, ?_⟩
    · rw [hnear]
      exact run_inj myIp heap ops
    · rw [hgiven, hnext]
      simp
    · intro f hf
      rw [hlink, List.mem_singleton] at hf
      rw [hf, hdata]
      exact Nat.zero_le _
    · rw [hgiven, hshut, hgot, hlink]
      refine .listening rfl ⟨hconn', ?_, ?_, ?_⟩ hlisten hempty hseq hflags hdata (.silent hsyn)
      · rw [hfar]
        exact run_inj myIp' heap' ops'
      · rw [hfar]
        exact run_backRef myIp' heap' ops'
      · rw [hfar]
        exact run_streamRings myIp' heap' ops'
  have halong : Along (Peers.step m p) (Peers.Inv i k j m p q isn) s sched :=
    along_of_steps (I := fun _ => True) id (fun _ h hok => h.step hok) trivial hinv hok
  exact halong.imp Peers.Inv.faithful

end Runs

/-- The other host of the pair, 10.0.2.16. -/
abbrev peerIp : Word := 0x1002000A#32

/-- The near host connects to port 80 of the other one, where a socket listens. -/
def connectingOps : List NetOp :=
  [.create 2#32 sockStream 0#32, .connect 0 peerIp 80#16 4096#32, .connectSyn 0 1]

def listeningOps : List NetOp := [.create 2#32 sockStream 0#32, .bind 0 80#16 0#32, .listen 0 4096#32]

/-- The segment of the near host with these data, from place `off` of its stream. -/
def nearFlight (seqNum ackNum : Word) (flags : Byte) (data : List Byte) : Flight :=
  ⟨bootLayer.host, qemuIp, peerIp, 10000#16, 80#16, seqNum, ackNum, flags, 4096#16, data⟩

/-- The SYN is on its way. -/
def openingPeers : Peers where
  near := connectingOps.foldl NetState.step (.init qemuIp fun _ => newPcb)
  link := [nearFlight 100#32 0#32 tcpSyn []]
  far := { bootLayer with net := listeningOps.foldl NetState.step (.init peerIp fun _ => newPcb) }
  given := []
  got := []
  shut := false

/-- The answer of the far host. -/
def synAck : Packet :=
  ⟨peerIp, 80#16, 10000#16, 0#32, 101#32, 5#4, tcpSyn ||| tcpAck, 20#16, fun _ => 0#8⟩

/-- The frame comes at the start of a buffer. -/
def delivery (f : Flight) : PeerOp := .deliver (f.frame.getD · 0#8) f.frame.length

/-- The connection is opened, two bytes are sent and read, and the near socket is closed. -/
def exchange : List PeerOp :=
  [delivery (nearFlight 100#32 0#32 tcpSyn []), .near bootLayer.host (.packet synAck),
    .near bootLayer.host (.sendto 0 [7#8, 9#8]), delivery (nearFlight 101#32 1#32 tcpAck []),
    .near bootLayer.host (.close 0), delivery (nearFlight 101#32 1#32 (tcpAck ||| tcpPsh) [7#8, 9#8]),
    .far (.recvfrom 0 10#32 1), delivery (nearFlight 103#32 1#32 (tcpFin ||| tcpAck) [])]

theorem peers_faithful_exchange :
    Along (Peers.step 0 4096#32) (Peers.Faithful 0 4096#32) openingPeers exchange := by
  refine @peers_faithful 0 0 0 0 4096#32 4096#32 100#32 qemuIp peerIp (fun _ => newPcb) (fun _ => newPcb)
    connectingOps listeningOps openingPeers rfl rfl ?_ exchange ?_
  · exact ⟨⟨by decide +kernel, by decide +kernel, by decide +kernel, by decide +kernel, by decide +kernel⟩,
      by decide +kernel, by decide +kernel,
      ⟨by decide +kernel, by decide +kernel, by decide +kernel, by decide +kernel, by decide +kernel⟩,
      by decide +kernel, by decide +kernel, ⟨_, _, rfl, rfl, rfl, rfl⟩, rfl, rfl, rfl⟩
  · have hdeliver {f rest} {s : Peers} (hlink : s.link = f :: rest) (hhalted : s.far.net.halted = false)
        (hip : f.seg.remoteIp = s.far.net.myIp) (hfind : tcpLookup s.far.net (f.seg.packet f.host.myIp) = some 0)
        (hroom : (s.far.net.buffer 0).length + f.seg.data.length ≤ socketBufferSize) :
        s.Ok 0 0 4096#32 4096#32 (delivery f) :=
      ⟨f, rest, hlink, inMemory_getD _, le_rfl, hhalted, hip, fun _ => ⟨hfind, hroom⟩⟩
    refine ⟨?_, ⟨nofun, fun _ => nofun⟩, ⟨?_, fun _ => nofun⟩, ?_,
      ⟨nofun, fun _ _ => ⟨⟨0, rfl⟩, .inl (by decide +kernel)⟩⟩, ?_, ⟨nofun, nofun, nofun⟩, ?_, trivial⟩
    · exact hdeliver rfl (by decide +kernel) (by decide +kernel) (by decide +kernel) (by decide +kernel)
    · rintro _ _ ⟨⟩
      decide
    · exact hdeliver rfl (by decide +kernel) (by decide +kernel) (by decide +kernel) (by decide +kernel)
    · exact hdeliver rfl (by decide +kernel) (by decide +kernel) (by decide +kernel) (by decide +kernel)
    · exact hdeliver rfl (by decide +kernel) (by decide +kernel) (by decide +kernel) (by decide +kernel)

end PekerOS.Net
