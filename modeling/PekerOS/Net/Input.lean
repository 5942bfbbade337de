import PekerOS.Net.View

/-!
# What a segment may do

`tcp_input` in runs of calls and segments. First, which changes of state a segment causes: those that
a SYN or a FIN must be acknowledged for are made on any acknowledgement number. Second, which control
block a segment goes to: the first that listens on its port or matches its addresses, in the order of
the slots.

## Main definitions

* `AckGuarded`, `AckOk`: a step makes the changes it has an acknowledgement for, and when it does
* `Demuxed`, `Unshadowed`: a segment goes to its connection, and when it does

## Main results

* `acks_checked`: a run is guarded exactly when every segment that moves a state on carries `snd_nxt`
* `segments_demuxed`: a segment goes to its connection exactly when no listener and no closed control
  block stands before it
-/

namespace PekerOS.Net

/-! ## Acknowledgements -/

/-- A SYN or a FIN has been sent and is not acknowledged. -/
def TcpState.AwaitsAck (st : TcpState) : Prop :=
  st = .synSent ∨ st = .synReceived ∨ st = .finWait1 ∨ st = .lastAck

/-- The control block `p` in slot `i` takes the step that its SYN or FIN must be acknowledged for. -/
def Advances (v v' : View) (i : ℕ) (p : Ptr) : Prop :=
  match v.state p with
  | .synSent => v'.state p = .established
  | .synReceived => v'.state p = .established
  | .finWait1 => v'.state p = .finWait2 ∨ v'.state p = .timeWait
  | .lastAck => ¬(v'.slots.get i = some p ∧ v'.state p = .lastAck)
  | _ => False

/-- The step to `v'` advances control blocks by segments that acknowledge all they have sent, and a
segment with another number leaves a control block that awaits its acknowledgement where it is. -/
def GuardedTo (net : NetState) (op : NetOp) (v' : View) : Prop :=
  ∀ i p, net.view.slots.get i = some p →
    (Advances net.view v' i p → ∃ pkt, op = .packet pkt ∧ pkt.ackNum = (net.heap p).sndNxt) ∧
    ∀ pkt, op = .packet pkt → (net.view.state p).AwaitsAck → pkt.ackNum ≠ (net.heap p).sndNxt →
      v'.slots.get i = some p ∧ v'.state p = net.view.state p

def AckGuarded (net : NetState) (op : NetOp) : Prop := GuardedTo net op (net.step op).view

/-- The flags that move a control block on that awaits an acknowledgement. -/
def movesOn : TcpState → Byte → Bool
  | .synSent, flags => hasFlag flags tcpSyn && hasFlag flags tcpAck
  | .synReceived, flags => hasFlag flags tcpAck
  | .finWait1, flags => hasFlag flags tcpAck || hasFlag flags tcpFin
  | .lastAck, flags => hasFlag flags tcpAck
  | _, _ => false

/-- A segment that moves on the control block it goes to acknowledges all that was sent, and no call
is made on a socket whose control block awaits its last acknowledgement. -/
def AckOk (net : NetState) (op : NetOp) : Prop :=
  (net.halted || !op.valid net) = true ∨
    (∀ pkt i p, op = .packet pkt → tcpLookup net pkt = some i → net.tcpPcbs.get i = some p →
      movesOn (net.heap p).state pkt.flags → pkt.ackNum = (net.heap p).sndNxt) ∧
    ∀ i p, net.callee op = some p → net.tcpPcbs.get i = some p → (net.heap p).state ≠ .lastAck

section Acks

variable {net : NetState} {op : NetOp} {v' : View} {i : ℕ} {p : Ptr} {st : TcpState} {flags : Byte}

theorem nextState_of_not_movesOn (hst : st.AwaitsAck) (h : movesOn st flags = false) :
    nextState st flags = some st := by
  rcases hst with rfl | rfl | rfl | rfl <;> simp_all [movesOn, nextState]

theorem nextState_of_movesOn (h : movesOn st flags) : nextState st flags ≠ some st := by
  cases st <;> simp_all [movesOn, nextState]
  split
  · split <;> simp
  · simp_all

theorem awaitsAck_of_movesOn (h : movesOn st flags) : st.AwaitsAck := by
  cases st <;> simp_all [movesOn, TcpState.AwaitsAck]

theorem awaitsAck_of_advances {v : View} (h : Advances v v' i p) : (v.state p).AwaitsAck := by
  rw [Advances] at h
  cases hst : v.state p <;> simp_all [TcpState.AwaitsAck]

theorem not_advances_of_same {v : View} (hslot : v'.slots.get i = some p)
    (hstate : v'.state p = v.state p) : ¬Advances v v' i p := by
  rw [Advances, hslot, hstate]
  cases hst : v.state p <;> simp

/-- A step that moves nothing is guarded. -/
theorem GuardedTo.of_same (h : ∀ i p, net.view.slots.get i = some p →
    v'.slots.get i = some p ∧ v'.state p = net.view.state p) : GuardedTo net op v' := by
  intro i p hp
  obtain ⟨hslot, hstate⟩ := h i p hp
  exact ⟨fun hadv => absurd hadv (not_advances_of_same hslot hstate), fun _ _ _ _ => ⟨hslot, hstate⟩⟩

/-- A call that sets the state of `p` is guarded unless it takes `p` out of `LAST_ACK`. -/
theorem guardedTo_call (hop : ∀ pkt, op ≠ .packet pkt) (hslots : v'.slots = net.view.slots)
    (hstate : v'.state = Function.update net.view.state p st)
    (hst : st = .listen ∨ st = .synSent ∨ st = closeState (net.view.state p)) :
    GuardedTo net op v' ↔ ∀ i, net.view.slots.get i = some p → net.view.state p ≠ .lastAck := by
  constructor
  · intro h i hi hlast
    have hadv : Advances net.view v' i p := by
      rw [Advances, hlast]
      rintro ⟨-, hst'⟩
      rw [hstate, Function.update_self] at hst'
      rw [hst', hlast] at hst
      rcases hst with hst | hst | hst <;> cases hst
    obtain ⟨pkt, hpkt, -⟩ := (h i p hi).1 hadv
    exact hop pkt hpkt
  · intro h i q hq
    refine ⟨fun hadv => ?_, fun pkt hpkt => absurd hpkt (hop pkt)⟩
    exfalso
    by_cases hqp : q = p
    · subst hqp
      have hne := h i hq
      rw [Advances, hstate, Function.update_self] at hadv
      rcases hst with rfl | rfl | rfl <;> cases hs : net.view.state q <;> simp_all [closeState]
    · exact not_advances_of_same (hslots ▸ hq) (by rw [hstate, Function.update_of_ne hqp]) hadv

/-- A segment for `p` is guarded exactly when it does not move `p` on without acknowledging. -/
theorem guardedTo_packet {pkt : Packet} (hi : i < 16) (hslot : net.tcpPcbs.get i = some p) :
    GuardedTo net (.packet pkt) (tcpProcess net i p pkt).view ↔
      (movesOn (net.heap p).state pkt.flags → pkt.ackNum = (net.heap p).sndNxt) := by
  have ht := tcpProcess_touches net i p pkt
  constructor
  · intro h hmoves
    by_contra hack
    obtain ⟨hslot', hstate'⟩ :=
      (h i p hslot).2 pkt rfl (awaitsAck_of_movesOn hmoves) hack
    -- the transition that is forbidden would have been made
    cases hnext : nextState (net.heap p).state pkt.flags with
    | none =>
      have hfreed := tcpProcess_freed net i p pkt hi hnext
      exact absurd (hfreed.symm.trans hslot') nofun
    | some st =>
      have hst := (tcpProcess_state net i p pkt hslot hnext).2
      exact nextState_of_movesOn hmoves (hnext.trans (congrArg some (hst.symm.trans hstate')))
  · intro h j q hq
    by_cases hqp : q = p
    · subst hqp
      by_cases hack : pkt.ackNum = (net.heap q).sndNxt
      · exact ⟨fun _ => ⟨pkt, rfl, hack⟩, fun pkt' hpkt _ hne => by cases hpkt; exact absurd hack hne⟩
      · -- the segment does not acknowledge, so it does not move `q` on
        have hstay (hawaits : (net.view.state q).AwaitsAck) :
            (tcpProcess net i q pkt).view.slots.get j = some q ∧
              (tcpProcess net i q pkt).view.state q = net.view.state q := by
          have hnot : movesOn (net.heap q).state pkt.flags = false :=
            Bool.eq_false_of_not_eq_true fun hmoves => hack (h hmoves)
          obtain ⟨hslot', hstate'⟩ :=
            tcpProcess_state net i q pkt hslot (nextState_of_not_movesOn hawaits hnot)
          refine ⟨?_, hstate'⟩
          by_cases hj : j = i
          · exact hj ▸ hslot'
          · exact (ht.slot j hj).trans hq
        refine ⟨fun hadv => ?_, fun _ _ hawaits _ => hstay hawaits⟩
        obtain ⟨hslot', hstate'⟩ := hstay (awaitsAck_of_advances hadv)
        exact absurd hadv (not_advances_of_same hslot' hstate')
    · -- the packet touches one control block
      have hj : j ≠ i := by
        rintro rfl
        exact hqp (Option.some_inj.mp (hq.symm.trans hslot))
      have hslot' : (tcpProcess net i p pkt).view.slots.get j = some q := (ht.slot j hj).trans hq
      have hstate' : (tcpProcess net i p pkt).view.state q = net.view.state q :=
        congrArg Pcb.state (ht.pcb q hqp)
      exact ⟨fun hadv => absurd hadv (not_advances_of_same hslot' hstate'),
        fun _ _ _ _ => ⟨hslot', hstate'⟩⟩

/-- One step is guarded exactly when it is in order. -/
theorem ackGuarded_iff (net : NetState) (op : NetOp) : AckGuarded net op ↔ AckOk net op := by
  have hsame : GuardedTo net op net.view := .of_same fun _ _ hp => ⟨hp, rfl⟩
  by_cases hidle : (net.halted || !op.valid net) = true
  · refine iff_of_true ?_ (.inl hidle)
    rw [AckGuarded, step_of_idle hidle]
    exact hsame
  have hview := step_view net op
  rw [AckGuarded, AckOk, or_iff_right hidle]
  generalize (net.step op).view = v' at hview ⊢
  cases hview with
  | idle h => exact absurd h hidle
  | quiet hop hcallee =>
    -- a call without a view of its own touches no control block that waits
    refine iff_of_true hsame ⟨?_, fun i p hp => absurd (hcallee.symm.trans hp) nofun⟩
    rintro pkt i p rfl
    exact absurd hop id
  | full hfree => exact iff_of_true hsame ⟨nofun, nofun⟩
  | create hfree hk hunused =>
    exact iff_of_true (.of_same fun _ _ hp => ⟨hp, rfl⟩) ⟨nofun, nofun⟩
  | @setState _ k p st hop hcallee huse href hst =>
    have hne (pkt : Packet) : op ≠ .packet pkt := by
      rintro rfl
      exact hop
    have hcall : GuardedTo net op (net.view.setState p st) ↔ _ :=
      guardedTo_call hne rfl rfl (hst.imp_right .inl)
    rw [hcall]
    refine ⟨fun h => ⟨fun pkt _ _ hpkt => absurd hpkt (hne pkt), fun i q hq hi => ?_⟩,
      fun h i hi => h.2 i p hcallee hi⟩
    obtain rfl := Option.some_inj.mp (hcallee.symm.trans hq)
    exact h i hi
  | @attach _ i k p st hop hcallee hi hslot hfresh huse href hst =>
    refine iff_of_true (.of_same fun j q hq => ?_) ⟨?_, fun i p hp => absurd (hcallee.symm.trans hp) nofun⟩
    · have hji : j ≠ i := by
        rintro rfl
        exact absurd (hslot.symm.trans hq) nofun
      -- the control block that is attached was in no slot before
      have hqp : q ≠ p := by
        rintro rfl
        exact hfresh j hq
      exact ⟨(Table.get_set_ne _ hji _).trans hq, Function.update_of_ne hqp _ _⟩
    · rintro pkt i p rfl
      exact absurd hop id
  | @close k h huse =>
    have hne (pkt : Packet) : NetOp.close k ≠ .packet pkt := nofun
    cases hp : streamPcb net k with
    | none =>
      refine iff_of_true (.of_same fun i p hi => ?_) ⟨nofun, fun i p hq => absurd (hp.symm.trans hq) nofun⟩
      rw [View.close_slots, close_state_of_none hp]
      exact ⟨hi, rfl⟩
    | some p =>
      rw [guardedTo_call hne (View.close_slots _ _) (close_state_of_some hp) (.inr (.inr rfl))]
      refine ⟨fun h => ⟨nofun, fun i q hq hi => ?_⟩, fun h i hi => h.2 i p hp hi⟩
      obtain rfl := Option.some_inj.mp (hp.symm.trans hq)
      exact h i hi
  | lost hlookup =>
    refine iff_of_true hsame ⟨?_, nofun⟩
    rintro _ i p ⟨⟩ hi
    exact absurd (hlookup.symm.trans hi) nofun
  | @packet pkt i p h hlookup hi hslot =>
    rw [guardedTo_packet hi hslot]
    refine ⟨fun hack => ⟨?_, nofun⟩, fun h => h.1 pkt i p rfl hlookup hslot⟩
    rintro _ j q ⟨⟩ hj hq
    obtain rfl := Option.some_inj.mp (hlookup.symm.trans hj)
    obtain rfl := Option.some_inj.mp (hslot.symm.trans hq)
    exact hack

/-- **Acknowledgements**: in a run of calls and segments, control blocks are moved on by segments that
acknowledge all they have sent, and by no others, exactly when no segment that moves one on carries
another number and no call is made on one that awaits its last acknowledgement. -/
theorem acks_checked (myIp : Word) (heap : Ptr → Pcb) (ops : List NetOp) :
    Steps NetState.step AckGuarded (.init myIp heap) ops ↔
      Steps NetState.step AckOk (.init myIp heap) ops :=
  steps_congr ackGuarded_iff

end Acks

/-- A stream socket connects to port 80. -/
def connectOps : List NetOp :=
  [.create 2#32 sockStream 0#32, .connect 0 7#32 80#16 4096#32, .connectSyn 0 1]

/-- A segment of the peer that acknowledges nothing that was sent. -/
def forgedSynAck : Packet where
  srcIp := 7#32
  srcPort := 80#16
  destPort := 10000#16
  seqNum := 0#32
  ackNum := 0#32
  dataOffset := 5#4
  flags := tcpSyn ||| tcpAck
  len := 20#16
  bytes := fun _ => 0#8

/-- The connection is established by it, with `snd_nxt` at 101. -/
theorem forged_ack_establishes :
    ¬Steps NetState.step AckGuarded (.init 1#32 fun _ => newPcb)
      (connectOps ++ [.packet forgedSynAck]) := by
  rintro ⟨-, -, -, h, -⟩
  have hstay := (h 0 4096#32 (by decide +kernel)).2 forgedSynAck rfl
    (.inl (by decide +kernel)) (by decide +kernel)
  exact absurd hstay.2 (by decide +kernel)

/-! ## Demultiplexing -/

/-- The control block `p` in slot `i` is the packet's connection. -/
structure LiveMatch (net : NetState) (pkt : Packet) (i : ℕ) (p : Ptr) : Prop where
  slot : net.tcpPcbs.get i = some p
  localPort : (net.heap p).localPort = pkt.destPort
  remotePort : (net.heap p).remotePort = pkt.srcPort
  remoteIp : (net.heap p).remoteIp = pkt.srcIp
  state : (net.heap p).state ≠ .listen ∧ (net.heap p).state ≠ .closed

/-- The packet is handled by the control block `p` in slot `i`, and the rest is left alone. -/
structure Handled (net : NetState) (pkt : Packet) (i : ℕ) (p : Ptr) : Prop where
  lookup : tcpLookup net pkt = some i
  process : tcpInput net pkt = tcpProcess net i p pkt
  frame : Touches i p net (tcpInput net pkt)

/-- A packet goes to its connection if there is one, and to a listener only if there is none. -/
structure Demuxed (net : NetState) (pkt : Packet) : Prop where
  live : ∀ i p, LiveMatch net pkt i p → ∃ j q, LiveMatch net pkt j q ∧ Handled net pkt j q
  listener : ∀ i p, tcpLookup net pkt = some i → net.tcpPcbs.get i = some p →
    (net.heap p).state = .listen → ∀ j q, ¬LiveMatch net pkt j q

/-- A control block that takes a packet without being its connection: a listener on the port, or a
closed control block that was once the connection. -/
def Shadows (net : NetState) (pkt : Packet) (i : ℕ) (p : Ptr) : Prop :=
  net.tcpPcbs.get i = some p ∧ (net.heap p).localPort = pkt.destPort ∧
    ((net.heap p).state = .listen ∨ (net.heap p).state = .closed ∧
      (net.heap p).remotePort = pkt.srcPort ∧ (net.heap p).remoteIp = pkt.srcIp)

/-- If there is a connection, one has no shadow before it. -/
def Unshadowed (net : NetState) (pkt : Packet) : Prop :=
  ∀ i p, LiveMatch net pkt i p →
    ∃ j q, LiveMatch net pkt j q ∧ ∀ m < j, ∀ r, ¬Shadows net pkt m r

section Demux

variable {net : NetState} {pkt : Packet} {i : ℕ} {p : Ptr}

theorem slotMatches_iff (hslot : net.tcpPcbs.get i = some p) :
    slotMatches net pkt i ↔ LiveMatch net pkt i p ∨ Shadows net pkt i p := by
  rw [slotMatches, hslot]
  dsimp only
  rw [decide_eq_true_iff]
  constructor
  · rintro ⟨hport, hlisten | ⟨hremote, hip⟩⟩
    · exact .inr ⟨hslot, hport, .inl hlisten⟩
    · by_cases hstate : (net.heap p).state = .listen ∨ (net.heap p).state = .closed
      · exact .inr ⟨hslot, hport, hstate.imp_right fun h => ⟨h, hremote, hip⟩⟩
      · exact .inl ⟨hslot, hport, hremote, hip, not_or.mp hstate⟩
  · rintro (h | ⟨-, hport, hlisten | ⟨-, hremote, hip⟩⟩)
    · exact ⟨h.localPort, .inr ⟨h.remotePort, h.remoteIp⟩⟩
    · exact ⟨hport, .inl hlisten⟩
    · exact ⟨hport, .inr ⟨hremote, hip⟩⟩

theorem LiveMatch.not_shadows (h : LiveMatch net pkt i p) : ¬Shadows net pkt i p := by
  rintro ⟨-, -, hlisten | ⟨hclosed, -⟩⟩
  · exact h.state.1 hlisten
  · exact h.state.2 hclosed

theorem LiveMatch.lt (h : LiveMatch net pkt i p) : i < 16 := by
  by_contra hi
  have hslot := h.slot
  rw [Table.get_of_le _ (Nat.le_of_not_lt hi)] at hslot
  cases hslot

/-- The lookup finds a connection exactly when one has no shadow before it. -/
theorem lookup_live_iff :
    (∃ i p, LiveMatch net pkt i p ∧ tcpLookup net pkt = some i) ↔
      ∃ i p, LiveMatch net pkt i p ∧ ∀ j < i, ∀ q, ¬Shadows net pkt j q := by
  constructor
  · rintro ⟨i, p, hlive, hlookup⟩
    obtain ⟨-, -, hfirst⟩ := List.find?_range_eq_some.mp hlookup
    refine ⟨i, p, hlive, fun j hj q hshadow => ?_⟩
    have hmatch := (slotMatches_iff hshadow.1).mpr (.inr hshadow)
    simpa [hmatch] using hfirst j hj
  · rintro ⟨i, p, hlive, hclear⟩
    have hmatch := (slotMatches_iff hlive.slot).mpr (.inl hlive)
    cases hlookup : tcpLookup net pkt with
    | none =>
      have hnone := List.find?_range_eq_none.mp hlookup i hlive.lt
      simp [hmatch] at hnone
    | some j =>
      obtain ⟨hj, -, hfirst⟩ := List.find?_range_eq_some.mp hlookup
      obtain ⟨-, q, hq⟩ := tcpLookup_slot hlookup
      have hle : j ≤ i := by
        by_contra hlt
        simpa [hmatch] using hfirst i (Nat.lt_of_not_le hlt)
      rcases (slotMatches_iff hq).mp hj with hlive' | hshadow
      · exact ⟨j, q, hlive', rfl⟩
      · rcases hle.lt_or_eq with hlt | rfl
        · exact absurd hshadow (hclear j hlt q)
        · obtain rfl := Option.some_inj.mp (hq.symm.trans hlive.slot)
          exact absurd hshadow hlive.not_shadows

theorem LiveMatch.handled (h : LiveMatch net pkt i p) (hlookup : tcpLookup net pkt = some i) :
    Handled net pkt i p := by
  have hprocess := tcpInput_eq hlookup h.slot
  exact ⟨hlookup, hprocess, hprocess ▸ tcpProcess_touches net i p pkt⟩

theorem demuxed_iff (net : NetState) (pkt : Packet) : Demuxed net pkt ↔ Unshadowed net pkt := by
  constructor
  · intro h i p hlive
    obtain ⟨j, q, hlive', hhandled⟩ := h.live i p hlive
    exact lookup_live_iff.mp ⟨j, q, hlive', hhandled.lookup⟩
  · intro h
    have hfind (i : ℕ) (p : Ptr) (hlive : LiveMatch net pkt i p) :
        ∃ j q, LiveMatch net pkt j q ∧ tcpLookup net pkt = some j :=
      lookup_live_iff.mpr (h i p hlive)
    constructor
    · intro i p hlive
      obtain ⟨j, q, hlive', hlookup⟩ := hfind i p hlive
      exact ⟨j, q, hlive', hlive'.handled hlookup⟩
    · intro i p hlookup hslot hlisten j q hlive
      obtain ⟨j', q', hlive', hlookup'⟩ := hfind j q hlive
      obtain rfl := Option.some_inj.mp (hlookup.symm.trans hlookup')
      obtain rfl := Option.some_inj.mp (hslot.symm.trans hlive'.slot)
      exact hlive'.state.1 hlisten

/-- **Demultiplexing**: in every reachable state, a segment goes to its connection exactly when no
listener on its port and no closed control block with its addresses stands in an earlier slot. -/
theorem segments_demuxed (myIp : Word) (heap : Ptr → Pcb) (ops : List NetOp) (pkt : Packet) :
    Demuxed (ops.foldl NetState.step (.init myIp heap)) pkt ↔
      Unshadowed (ops.foldl NetState.step (.init myIp heap)) pkt :=
  demuxed_iff _ _

end Demux

/-- A segment of the peer at `ip`, without data, to port 80. -/
def bareSegment (ip : Word) (flags : Byte) : Packet where
  srcIp := ip
  srcPort := 5000#16
  destPort := 80#16
  seqNum := 0#32
  ackNum := 0#32
  dataOffset := 5#4
  flags := flags
  len := 20#16
  bytes := fun _ => 0#8

/-- Two sockets listen on port 80, each is reached by a peer, and the first listens again. -/
def twoListeners : List NetOp :=
  [.create 2#32 sockStream 0#32, .bind 0 80#16 0#32, .listen 0 4096#32,
    .create 2#32 sockStream 0#32, .bind 1 80#16 0#32, .listen 1 8192#32,
    .packet (bareSegment 7#32 tcpSyn), .packet (bareSegment 8#32 tcpSyn), .listen 0 12288#32]

/-- The second peer's segments go to the first socket. -/
theorem listener_shadows : ¬Demuxed (twoListeners.foldl NetState.step (.init 1#32 fun _ => newPcb))
    (bareSegment 8#32 tcpAck) := by
  intro h
  obtain ⟨j, q, hlive, hhandled⟩ := h.live 1 8192#32
    ⟨by decide +kernel, by decide +kernel, by decide +kernel, by decide +kernel, by decide +kernel⟩
  have hlookup : tcpLookup (twoListeners.foldl NetState.step (.init 1#32 fun _ => newPcb))
      (bareSegment 8#32 tcpAck) = some 0 := by decide +kernel
  obtain rfl := Option.some_inj.mp (hlookup.symm.trans hhandled.lookup)
  have hslot : (twoListeners.foldl NetState.step (.init 1#32 fun _ => newPcb)).tcpPcbs.get 0 =
      some 4096#32 := by decide +kernel
  obtain rfl := Option.some_inj.mp (hslot.symm.trans hlive.slot)
  exact hlive.state.1 (by decide +kernel)

end PekerOS.Net
