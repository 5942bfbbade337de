import PekerOS.Net.Calls
import PekerOS.Net.Segments

/-!
# The sender of a stream

What one step sends for a control block whose connection is being opened or is open, and how `snd_nxt` moves.
The numbers of the segments are the places of their data in what `socket_sendto` has accepted: a call that
returns the length of its message has sent it, whatever the peer has acknowledged, and a FIN has the number
after the last byte.

## Main definitions

* `NetState.emitted`: the segments that a step sends for a control block
* `NetState.handed`: the bytes that a call of `socket_sendto` accepts for it
* `Emits`: the steps of a connection that is not closed on this side

## Main results

* `sndNxt_step`: `snd_nxt` moves by segments that are sent only
* `Connected.emits`: what a step sends, and the state after it
* `emits_fin`: what `socket_close` sends
-/

namespace PekerOS.Net

/-- The segments that a step sends for the control block `p`. -/
def NetState.emitted (net : NetState) (p : Ptr) (op : NetOp) : List Sent :=
  match net.sending op with
  | none => []
  | some (q, _) => if q = p then (net.step op).sent.drop net.sent.length else []

/-- The bytes that a call of `socket_sendto` accepts for the control block `p`. -/
def NetState.handed (net : NetState) (p : Ptr) : NetOp → List Byte
  | .sendto k message =>
    if net.halted || !NetOp.valid net (.sendto k message) then []
    else if streamPcb net k = some p ∧ (net.heap p).state = .established then message
    else []
  | _ => []

/-- The connection is being opened, or open, on this side. -/
def TcpState.Open (st : TcpState) : Prop := st = .synSent ∨ st.Receiving

section SndNxt

variable {net net' : NetState} {op : NetOp} {i k : ℕ} {p q ptr : Ptr}

theorem ensurePcb_sndNxt (hslot : net.tcpPcbs.get i = some p)
    (hfresh : ∀ j, net.tcpPcbs.get j ≠ some ptr)
    (h : ensurePcb net k ptr = some (net', q)) :
    (net'.heap p).sndNxt = (net.heap p).sndNxt := by
  rw [ensurePcb] at h
  split at h
  · cases h
    rfl
  · obtain ⟨net₁, hnew, h⟩ := Option.map_eq_some_iff.mp h
    cases h
    rw [tcpNewPcb] at hnew
    split at hnew
    · cases hnew
    · obtain ⟨j, -, rfl⟩ := Option.map_eq_some_iff.mp hnew
      -- the new control block is at another address
      have hne : p ≠ q := by
        rintro rfl
        exact hfresh i hslot
      rw [editPcb_heap_ne _ _ _ _ hne, editSocket_heap]
      exact congrArg Pcb.sndNxt (Function.update_of_ne hne _ _)

/-- `snd_nxt` moves by segments for the control block only. -/
theorem sndNxt_step (hslot : net.tcpPcbs.get i = some p) (hinj : net.view.Inj)
    (hsend : ∀ data, net.sending op ≠ some (p, data))
    (hpkt : ¬∃ pkt, op = .packet pkt ∧ net.halted = false ∧ tcpLookup net pkt = some i) :
    ((net.step op).heap p).sndNxt = (net.heap p).sndNxt := by
  by_cases hidle : (net.halted || !op.valid net) = true
  · rw [step_of_idle hidle]
  obtain ⟨hhalted, hvalid⟩ : ¬net.halted = true ∧ op.valid net = true := by simpa using hidle
  rw [NetState.step, if_neg hidle]
  cases op with
  | create domain type protocol =>
    rw [NetState.exec, socketCreate]
    cases freeSocket net <;> rfl
  | bind k port addr =>
    rw [NetState.exec, socketBind]
    split
    · rfl
    · exact editPcb_same _ _ _ _ Pcb.sndNxt rfl
  | listen k ptr =>
    rw [NetState.exec, socketListen]
    split
    · split
      · rfl
      · next hensure =>
        rw [editPcb_same _ _ _ _ Pcb.sndNxt rfl]
        exact ensurePcb_sndNxt hslot (NetOp.valid_ptr hvalid rfl) hensure
    · rfl
  | connect k addr port ptr =>
    rw [NetState.exec, socketConnect]
    dsimp only
    split
    · split
      · rfl
      · next net' q hensure =>
        have hslot' : (net.editSocket k fun s =>
          { s with remoteAddr := addr, remotePort := port }).tcpPcbs.get i = some p := hslot
        have hsame := ensurePcb_sndNxt hslot' (NetOp.valid_ptr hvalid rfl) hensure
        refine Eq.trans ?_ hsame
        exact editPcb_same (tcpGetFreePort net').1 q p
          (fun pcb =>
            { pcb with
              localPort := (tcpGetFreePort net').2
              localIp := (tcpGetFreePort net').1.myIp
              remotePort := port
              remoteIp := addr }) Pcb.sndNxt rfl
    · rfl
  | connectSyn k task =>
    rw [NetState.exec, socketConnectSyn]
    split
    · next q hconnecting hq =>
      -- the SYN is for another control block
      have hne : p ≠ q := by
        rintro rfl
        refine hsend [] ?_
        rw [NetState.sending, connectPcb, if_pos hconnecting, hq]
        rfl
      rw [editSocket_heap, tcpSendSegment_heap_ne _ _ _ _ _ hne, editPcb_heap_ne _ _ _ _ hne]
    · rfl
  | accept k task =>
    rw [NetState.exec, socketAccept]
    split
    · split
      · rfl
      · split <;> rfl
    · rfl
  | sendto k message =>
    rw [NetState.exec, socketSendto]
    split
    · rfl
    · next q hq =>
      split
      · next hst =>
        have hne : p ≠ q := by
          rintro rfl
          refine hsend (message.take (message.length % 2 ^ 16)) ?_
          rw [NetState.sending, hq]
          exact if_pos hst
        rw [tcpSendSegment_heap_ne _ _ _ _ _ hne]
      · rfl
  | recvfrom k length task =>
    rw [NetState.exec, socketRecvfrom]
    dsimp only
    split
    · rfl
    · split <;> rfl
  | close k =>
    rw [NetState.exec, socketClose]
    split
    · rfl
    · next q hq =>
      rw [editSocket_heap, tcpClose]
      by_cases hst : (net.heap q).state = .established ∨ (net.heap q).state = .closeWait
      · have hne : p ≠ q := by
          rintro rfl
          refine hsend [] ?_
          rw [NetState.sending, hq]
          exact if_pos hst
        split
        · rw [editPcb_heap_ne _ _ _ _ hne, tcpSendSegment_heap_ne _ _ _ _ _ hne]
        · rw [editPcb_heap_ne _ _ _ _ hne, tcpSendSegment_heap_ne _ _ _ _ _ hne]
        · rw [editPcb_heap_ne _ _ _ _ hne]
      · split
        · next hest => exact absurd (.inl hest) hst
        · next hwait => exact absurd (.inr hwait) hst
        · exact editPcb_same _ _ _ _ Pcb.sndNxt rfl
  | packet pkt =>
    cases hlookup : tcpLookup net pkt with
    | none => rw [NetState.exec, tcpInput, hlookup]
    | some j =>
      obtain ⟨-, q, hq⟩ := tcpLookup_slot hlookup
      have hne : p ≠ q := by
        rintro rfl
        obtain rfl := hinj j i p hq hslot
        exact hpkt ⟨pkt, rfl, Bool.eq_false_of_not_eq_true hhalted, hlookup⟩
      rw [NetState.exec, tcpInput_eq hlookup hq, (tcpProcess_touches net j q pkt).pcb p hne]
  | datagram d =>
    rw [NetState.exec, socketDispatchUdp]
    split
    · rfl
    · dsimp only
      split
      · rw [wake_heap]
        rfl
      · rfl

end SndNxt

/-! ## What is sent -/

/-- A segment of the sender: its number is `snd_nxt`, and it has these flags and these data. -/
structure Segment (net : NetState) (p : Ptr) (flags : Byte) (data : List Byte) (seg : Sent) : Prop where
  seqNum : seg.seqNum = (net.heap p).sndNxt
  flags : seg.flags = flags
  data : seg.data = data

/-- A step of a connection that stays open on this side: it sends nothing; or an ACK, after which the
connection is open; or the message of a call. -/
inductive Emits (net : NetState) (p : Ptr) (op : NetOp) : Prop
  | quiet (hsent : net.emitted p op = []) (hhanded : net.handed p op = [])
      (hnext : ((net.step op).heap p).sndNxt = (net.heap p).sndNxt)
      (hst : ((net.step op).heap p).state = (net.heap p).state ∨
        (net.heap p).state.Receiving ∧ ((net.step op).heap p).state.Receiving)
  | ack {seg : Sent} (hsent : net.emitted p op = [seg]) (hseg : Segment net p tcpAck [] seg)
      (hhanded : net.handed p op = [])
      (hnext : ((net.step op).heap p).sndNxt = (net.heap p).sndNxt)
      (hst : ((net.step op).heap p).state.Receiving)
  | data {k : ℕ} {message : List Byte} {seg : Sent} (hop : op = .sendto k message)
      (hsent : net.emitted p op = [seg])
      (hseg : Segment net p (tcpAck ||| tcpPsh) (message.take (message.length % 2 ^ 16)) seg)
      (hhanded : net.handed p op = message)
      (hnext : ((net.step op).heap p).sndNxt =
        (net.heap p).sndNxt + BitVec.ofNat 32 (message.take (message.length % 2 ^ 16)).length)
      (hbefore : (net.heap p).state.Receiving) (hst : ((net.step op).heap p).state.Receiving)

section Emission

variable {net : NetState} {op : NetOp} {i k : ℕ} {p : Ptr} {pkt : Packet}

theorem emitted_of_ne (h : ∀ data, net.sending op ≠ some (p, data)) : net.emitted p op = [] := by
  rw [NetState.emitted]
  split
  · rfl
  · next q data hsending =>
    refine if_neg ?_
    rintro rfl
    exact h data hsending

theorem emitted_eq {data : List Byte} {segs : List Sent} (h : net.sending op = some (p, data))
    (hsent : (net.step op).sent = net.sent ++ segs) : net.emitted p op = segs := by
  rw [NetState.emitted, h]
  dsimp only
  rw [if_pos rfl, hsent, List.drop_left]

/-- An ACK that is sent for a control block; it takes no number. -/
theorem ack_sent (net : NetState) (p : Ptr) :
    ((tcpSendSegment net p tcpAck []).heap p).sndNxt = (net.heap p).sndNxt ∧
      ((tcpSendSegment net p tcpAck []).heap p).state = (net.heap p).state ∧
        ∃ seg, (tcpSendSegment net p tcpAck []).sent = net.sent ++ [seg] ∧ Segment net p tcpAck [] seg := by
  refine ⟨?_, by simp [tcpSendSegment], _, rfl, rfl, rfl, rfl⟩
  have hflag : hasFlag tcpAck (tcpSyn ||| tcpFin) = false := by decide
  simp [tcpSendSegment, hflag]

/-- `tcp_input` acknowledges a SYN or a FIN. -/
theorem ackNext_emits (net : NetState) (p : Ptr) (pkt : Packet) (st : TcpState) :
    ((wakeSocket (ackNext net p pkt st tcpAck) p).heap p).sndNxt = (net.heap p).sndNxt ∧
      ((wakeSocket (ackNext net p pkt st tcpAck) p).heap p).state = st ∧
        ∃ seg, (wakeSocket (ackNext net p pkt st tcpAck) p).sent = net.sent ++ [seg] ∧
          Segment net p tcpAck [] seg := by
  obtain ⟨hnext, hst, seg, hsent, hseg⟩ :=
    ack_sent (net.editPcb p fun pcb => { pcb with rcvNxt := pkt.seqNum + 1#32, state := st }) p
  rw [wakeSocket_heap, wakeSocket_sent]
  refine ⟨hnext.trans (by simp), hst.trans (by simp), seg, hsent, ?_, hseg.flags, hseg.data⟩
  exact hseg.seqNum.trans (by simp)

/-- `tcp_input` accepts data, or leaves everything as it was. -/
theorem acceptData_emits (hlookup : tcpLookup net pkt = some i) (hslot : net.tcpPcbs.get i = some p)
    (hdata : (net.heap p).state = .established ∧ hasFlag pkt.flags tcpFin = false ∧
      pkt.headerLen < pkt.len.toNat) :
    if (acceptingSocket net pkt).isSome then
      ((acceptData net p pkt).heap p).sndNxt = (net.heap p).sndNxt ∧
        ((acceptData net p pkt).heap p).state = (net.heap p).state ∧
          ∃ seg, (acceptData net p pkt).sent = net.sent ++ [seg] ∧ Segment net p tcpAck [] seg
    else acceptData net p pkt = net := by
  split
  · next haccept =>
    obtain ⟨k, hk⟩ := Option.isSome_iff_exists.mp haccept
    obtain ⟨-, hsocket, hroom⟩ := (acceptingSocket_iff hlookup hslot).mp hk
    rw [NetState.ring] at hroom
    rw [acceptData, hsocket]
    dsimp only
    rw [if_pos hroom, wake_sent, wake_heap]
    obtain ⟨hnext, hst, seg, hsent, hseg⟩ := ack_sent ((net.editSocket k fun s =>
      { s with
        ring := { (net.sockets.get k).ring.stores pkt.data with
          len := ((net.sockets.get k).ring.len + pkt.dataLen) % 2 ^ 32 } }).editPcb p fun pcb =>
      { pcb with rcvNxt := pkt.seqNum + BitVec.ofNat 32 pkt.dataLen }) p
    refine ⟨hnext.trans (by simp), hst.trans (by simp), seg, hsent, ?_, hseg.flags, hseg.data⟩
    exact hseg.seqNum.trans (by simp)
  · next haccept =>
    rw [acceptData]
    split
    · rfl
    · next k hsocket =>
      refine if_neg fun hroom => haccept ?_
      rw [(acceptingSocket_iff (k := k) hlookup hslot).mpr ⟨hdata, hsocket, hroom⟩]
      rfl

/-- What `tcp_input` answers for a connection that is being opened or is open, and the state after it. -/
theorem tcpProcess_open (hlookup : tcpLookup net pkt = some i) (hslot : net.tcpPcbs.get i = some p)
    (hst : (net.heap p).state.Open) :
    if answers net pkt p then
      ((tcpProcess net i p pkt).heap p).sndNxt = (net.heap p).sndNxt ∧
        ((tcpProcess net i p pkt).heap p).state.Receiving ∧
          ∃ seg, (tcpProcess net i p pkt).sent = net.sent ++ [seg] ∧ Segment net p tcpAck [] seg
    else tcpProcess net i p pkt = net := by
  rcases hst with hst | hst | hst
  · -- the answer to the SYN
    rw [answers, tcpProcess, hst]
    dsimp only
    by_cases hflags : hasFlag pkt.flags tcpSyn ∧ hasFlag pkt.flags tcpAck
    · rw [if_pos (by simpa using hflags), if_pos hflags]
      obtain ⟨hnext, hstate, hseg⟩ := ackNext_emits net p pkt .established
      exact ⟨hnext, .inl hstate, hseg⟩
    · rw [if_neg (by simpa using hflags), if_neg hflags]
  · rw [answers, tcpProcess, hst]
    dsimp only
    by_cases hfin : hasFlag pkt.flags tcpFin = true
    · rw [if_pos hfin, hfin, Bool.true_or, if_pos rfl]
      obtain ⟨hnext, hstate, hseg⟩ := ackNext_emits net p pkt .closeWait
      exact ⟨hnext, .inr hstate, hseg⟩
    · have hfin' := Bool.eq_false_of_not_eq_true hfin
      rw [if_neg hfin, hfin', Bool.false_or]
      by_cases hlen : pkt.headerLen < pkt.len.toNat
      · have haccept := acceptData_emits hlookup hslot ⟨hst, hfin', hlen⟩
        rw [if_pos hlen]
        split
        · next hsome =>
          rw [if_pos hsome, hst] at haccept
          exact ⟨haccept.1, .inl haccept.2.1, haccept.2.2⟩
        · next hnone =>
          rw [if_neg hnone] at haccept
          exact haccept
      · -- a segment without data is for no socket
        have hnone : ¬(acceptingSocket net pkt).isSome = true := by
          intro haccept
          obtain ⟨k, hk⟩ := Option.isSome_iff_exists.mp haccept
          exact hlen ((acceptingSocket_iff hlookup hslot).mp hk).1.2.2
        rw [if_neg hlen, if_neg hnone]
  · -- after the peer's FIN nothing is answered
    rw [answers, tcpProcess, hst]
    dsimp only
    rw [if_neg Bool.false_ne_true]

theorem emitted_of_idle (p : Ptr) (h : (net.halted || !op.valid net) = true) : net.emitted p op = [] := by
  rw [NetState.emitted, step_of_idle h, List.drop_length]
  split
  · rfl
  · exact ite_self _

/-- Nothing is sent and nothing is accepted in an idle step. -/
theorem Emits.of_idle (h : (net.halted || !op.valid net) = true) : Emits net p op := by
  refine .quiet (emitted_of_idle p h) ?_ (by rw [step_of_idle h]) (.inl (by rw [step_of_idle h]))
  cases op with
  | sendto k message => exact if_pos h
  | _ => rfl

theorem Emits.sendto {message : List Byte} (hvalid : (net.halted || !NetOp.valid net (.sendto k message)) = false)
    (hp : streamPcb net k = some p) (hst : (net.heap p).state = .established) :
    Emits net p (.sendto k message) := by
  have hstep : net.step (.sendto k message) =
      tcpSendSegment net p (tcpAck ||| tcpPsh) (message.take (message.length % 2 ^ 16)) := by
    rw [NetState.step, if_neg (by simp [hvalid]), NetState.exec, socketSendto, hp]
    exact if_pos hst
  have hflag : hasFlag (tcpAck ||| tcpPsh) (tcpSyn ||| tcpFin) = false := by decide
  have hsending : net.sending (.sendto k message) = some (p, message.take (message.length % 2 ^ 16)) := by
    rw [NetState.sending, hp]
    exact if_pos hst
  refine .data rfl (emitted_eq hsending (by rw [hstep]; rfl)) ⟨rfl, rfl, rfl⟩ ?_ ?_ (.inl hst) (.inl ?_)
  · rw [NetState.handed, if_neg (by simp [hvalid]), if_pos ⟨hp, hst⟩]
  · rw [hstep]
    simp [tcpSendSegment, hflag]
  · rw [hstep]
    simp [tcpSendSegment, hst]

/-- `tcp_input` on the connection. -/
theorem Connected.emits_packet (h : Connected i k p net.view) (hst : (net.heap p).state.Open)
    (hhalted : net.halted = false) (hlookup : tcpLookup net pkt = some i) : Emits net p (.packet pkt) := by
  have hslot : net.tcpPcbs.get i = some p := h.slot
  have hstep := step_packet hhalted hlookup hslot
  have hsending : net.sending (.packet pkt) = if answers net pkt p then some (p, []) else none := by
    rw [NetState.sending, tcpTarget_eq hlookup hslot]
  have hopen := tcpProcess_open hlookup hslot hst
  rw [← hstep] at hopen
  split at hopen
  · next hanswers =>
    obtain ⟨hnext, hst', seg, hsent, hseg⟩ := hopen
    rw [if_pos hanswers] at hsending
    exact .ack (emitted_eq hsending hsent) hseg rfl hnext hst'
  · next hanswers =>
    rw [if_neg hanswers] at hsending
    refine .quiet (emitted_of_ne fun data hsome => ?_) rfl (by rw [hopen]) (.inl (by rw [hopen]))
    cases hsending.symm.trans hsome

/-- What a step of an open connection sends, as long as no call ends it. -/
theorem Connected.emits (hinj : net.view.Inj) (h : Connected i k p net.view) (hst : (net.heap p).state.Open)
    (hcall : net.callee op ≠ some p) : Emits net p op := by
  by_cases hidle : (net.halted || !op.valid net) = true
  · exact .of_idle hidle
  have hhalted : net.halted = false := by
    rw [Bool.not_eq_true, Bool.or_eq_false_iff] at hidle
    exact hidle.1
  by_cases hpkt : ∃ pkt, op = .packet pkt ∧ net.halted = false ∧ tcpLookup net pkt = some i
  · obtain ⟨pkt, rfl, -, hlookup⟩ := hpkt
    exact h.emits_packet hst hhalted hlookup
  by_cases hsend : ∃ data, net.sending op = some (p, data)
  · obtain ⟨data, hsending⟩ := hsend
    cases op with
    | sendto j message =>
      rw [NetState.sending] at hsending
      split at hsending
      · cases hsending
      · next q hq =>
        split at hsending
        · next hest =>
          cases hsending
          exact .sendto (Bool.eq_false_of_not_eq_true hidle) hq hest
        · cases hsending
    | packet pkt =>
      -- the control block is in one slot only
      rw [NetState.sending] at hsending
      split at hsending
      · cases hsending
      · next q hq =>
        split at hsending
        · cases hsending
          rw [tcpTarget] at hq
          split at hq
          · cases hq
          · next j hlookup =>
            obtain rfl := hinj j i p hq h.slot
            exact absurd ⟨pkt, rfl, hhalted, hlookup⟩ hpkt
        · cases hsending
    | connectSyn j task =>
      obtain ⟨q, hq, heq⟩ := Option.map_eq_some_iff.mp hsending
      cases heq
      exact absurd hq hcall
    | close j =>
      rw [NetState.sending] at hsending
      split at hsending
      · cases hsending
      · next q hq =>
        split at hsending
        · cases hsending
          exact absurd hq hcall
        · cases hsending
    | _ => cases hsending
  · have hnone : ∀ data, net.sending op ≠ some (p, data) := fun data hdata => hsend ⟨data, hdata⟩
    obtain ⟨-, hstate⟩ := h.keeps hinj (fun pkt hop hlookup => absurd ⟨pkt, hop, hhalted, hlookup⟩ hpkt) hcall
    refine .quiet (emitted_of_ne hnone) ?_ (sndNxt_step h.slot hinj hnone hpkt)
      (.inl (hstate.resolve_left hpkt))
    cases op with
    | sendto j message =>
      -- a call that accepts something would have sent it
      rw [NetState.handed, if_neg hidle]
      refine if_neg fun hcond => hsend ⟨message.take (message.length % 2 ^ 16), ?_⟩
      rw [NetState.sending, hcond.1]
      exact if_pos hcond.2
    | _ => rfl

/-- `socket_close` on an open connection sends a FIN behind everything else. -/
theorem emits_fin (hvalid : (net.halted || !NetOp.valid net (.close k)) = false)
    (hp : streamPcb net k = some p) (hst : (net.heap p).state.Receiving) :
    ∃ seg, net.emitted p (.close k) = [seg] ∧ Segment net p (tcpFin ||| tcpAck) [] seg := by
  have hsending : net.sending (.close k) = some (p, []) := by
    rw [NetState.sending, hp]
    exact if_pos hst
  have hclose : ∃ seg, (tcpClose net p).sent = net.sent ++ [seg] ∧ Segment net p (tcpFin ||| tcpAck) [] seg := by
    rw [tcpClose]
    rcases hst with hst | hst
    · rw [hst]
      exact ⟨_, rfl, rfl, rfl, rfl⟩
    · rw [hst]
      exact ⟨_, rfl, rfl, rfl, rfl⟩
  obtain ⟨seg, hsent, hseg⟩ := hclose
  refine ⟨seg, emitted_eq hsending ?_, hseg⟩
  rw [NetState.step, if_neg (by simp [hvalid]), NetState.exec, socketClose, hp]
  exact hsent

end Emission

end PekerOS.Net
