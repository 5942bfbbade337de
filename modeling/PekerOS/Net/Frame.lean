import PekerOS.Net.Socket

/-!
# What a step leaves alone

Every function of `tcp.c` and `socket.c` is a sequence of assignments to one control block and one
socket. `Touches i p` says what a packet for the control block `p` in slot `i` may change: that slot,
that block, and the buffer and the waiting task of the socket it points to.

## Main definitions

* `Touches i p net net'`: the frame of the packet handler
* `nextState`: the state machine on states alone

## Main results

* `tcpProcess_touches`: the handler keeps to its frame
* `tcpProcess_state`: the handler follows the state machine
-/

namespace PekerOS.Net

section Fields

variable (net : NetState) (p q : Ptr) (k j : ℕ) (f : Pcb → Pcb) (g : Socket → Socket)

@[simp] theorem editPcb_tcpPcbs : (net.editPcb p f).tcpPcbs = net.tcpPcbs := rfl
@[simp] theorem editPcb_sockets : (net.editPcb p f).sockets = net.sockets := rfl
@[simp] theorem editPcb_connecting : (net.editPcb p f).connecting = net.connecting := rfl
@[simp] theorem editPcb_halted : (net.editPcb p f).halted = net.halted := rfl
@[simp] theorem editPcb_sent : (net.editPcb p f).sent = net.sent := rfl

@[simp] theorem editPcb_heap_self : (net.editPcb p f).heap p = f (net.heap p) :=
  Function.update_self _ _ _

theorem editPcb_heap_ne (h : q ≠ p) : (net.editPcb p f).heap q = net.heap q :=
  Function.update_of_ne h _ _

@[simp] theorem editSocket_tcpPcbs : (net.editSocket k g).tcpPcbs = net.tcpPcbs := rfl
@[simp] theorem editSocket_heap : (net.editSocket k g).heap = net.heap := rfl
@[simp] theorem editSocket_connecting : (net.editSocket k g).connecting = net.connecting := rfl
@[simp] theorem editSocket_halted : (net.editSocket k g).halted = net.halted := rfl
@[simp] theorem editSocket_sent : (net.editSocket k g).sent = net.sent := rfl

theorem editSocket_get_self (h : k < 32) :
    (net.editSocket k g).sockets.get k = g (net.sockets.get k) :=
  Table.get_set_self _ h _

theorem editSocket_get_ne (h : j ≠ k) : (net.editSocket k g).sockets.get j = net.sockets.get j :=
  Table.get_set_ne _ h _

/-- A field of the control blocks after an assignment to one of them. -/
theorem editPcb_field {β : Type*} (φ : Pcb → β) :
    φ ((net.editPcb p f).heap q) =
      Function.update (fun q => φ (net.heap q)) p (φ (f (net.heap p))) q := by
  by_cases hq : q = p
  · subst hq
    rw [Function.update_self, editPcb_heap_self]
  · rw [Function.update_of_ne hq, editPcb_heap_ne _ _ _ _ hq]

/-- An assignment that leaves a field. -/
theorem editPcb_same {β : Type*} (φ : Pcb → β) (hf : φ (f (net.heap p)) = φ (net.heap p)) :
    φ ((net.editPcb p f).heap q) = φ (net.heap q) := by
  rw [editPcb_field net p q f φ, hf]
  exact congrFun (Function.update_eq_self p fun q => φ (net.heap q)) q

/-- A field of the sockets after an assignment to one of them. -/
theorem editSocket_field {β : Type*} (φ : Socket → β) (hk : k < 32) :
    φ ((net.editSocket k g).sockets.get j) =
      Function.update (fun j => φ (net.sockets.get j)) k (φ (g (net.sockets.get k))) j := by
  by_cases hj : j = k
  · subst hj
    rw [Function.update_self, editSocket_get_self _ _ _ hk]
  · rw [Function.update_of_ne hj, editSocket_get_ne _ _ _ _ hj]

theorem editSocket_same {β : Type*} (φ : Socket → β) {g : Socket → Socket}
    (hg : φ (g (net.sockets.get k)) = φ (net.sockets.get k)) :
    φ ((net.editSocket k g).sockets.get j) = φ (net.sockets.get j) := by
  by_cases hj : j = k
  · subst hj
    by_cases hlt : j < 32
    · rw [editSocket_get_self _ _ _ hlt, hg]
    · rw [Table.get_of_le _ (Nat.le_of_not_lt hlt), Table.get_of_le _ (Nat.le_of_not_lt hlt)]
  · rw [editSocket_get_ne _ _ _ _ hj]

theorem editSocket_type {g : Socket → Socket}
    (hg : (g (net.sockets.get k)).type = (net.sockets.get k).type) :
    ((net.editSocket k g).sockets.get j).type = (net.sockets.get j).type :=
  editSocket_same net k j Socket.type hg

@[simp] theorem wake_tcpPcbs : (net.wake k).tcpPcbs = net.tcpPcbs := by
  rw [NetState.wake]
  split <;> rfl

@[simp] theorem wake_heap : (net.wake k).heap = net.heap := by
  rw [NetState.wake]
  split <;> rfl

@[simp] theorem wake_connecting : (net.wake k).connecting = net.connecting := by
  rw [NetState.wake]
  split <;> rfl

@[simp] theorem wake_halted : (net.wake k).halted = net.halted := by
  rw [NetState.wake]
  split <;> rfl

@[simp] theorem wake_sent : (net.wake k).sent = net.sent := by
  rw [NetState.wake]
  split <;> rfl

theorem wake_get_ne (h : j ≠ k) : (net.wake k).sockets.get j = net.sockets.get j := by
  rw [NetState.wake]
  split
  · rfl
  · exact Table.get_set_ne _ h _

/-- Waking a task changes nothing of the socket but its `waiting_task`. -/
theorem wake_get : ∃ w, (net.wake k).sockets.get j = { net.sockets.get j with waitingTask := w } := by
  by_cases hj : j = k
  · subst hj
    rw [NetState.wake]
    split
    · exact ⟨_, rfl⟩
    · by_cases hlt : j < 32
      · exact ⟨none, Table.get_set_self _ hlt _⟩
      · refine ⟨(net.sockets.get j).waitingTask, ?_⟩
        rw [Table.get_of_le _ (Nat.le_of_not_lt hlt), Table.get_of_le _ (Nat.le_of_not_lt hlt)]
  · exact ⟨_, wake_get_ne net k j hj⟩

@[simp] theorem tcpSendSegment_tcpPcbs (flags : Byte) (data : List Byte) :
    (tcpSendSegment net p flags data).tcpPcbs = net.tcpPcbs := rfl

@[simp] theorem tcpSendSegment_sockets (flags : Byte) (data : List Byte) :
    (tcpSendSegment net p flags data).sockets = net.sockets := rfl

@[simp] theorem tcpSendSegment_connecting (flags : Byte) (data : List Byte) :
    (tcpSendSegment net p flags data).connecting = net.connecting := rfl

@[simp] theorem tcpSendSegment_halted (flags : Byte) (data : List Byte) :
    (tcpSendSegment net p flags data).halted = net.halted := rfl

theorem tcpSendSegment_heap_ne (flags : Byte) (data : List Byte) (h : q ≠ p) :
    (tcpSendSegment net p flags data).heap q = net.heap q :=
  Function.update_of_ne h _ _

/-- Sending a segment changes nothing of the control block but `snd_nxt`. -/
theorem tcpSendSegment_heap_self (flags : Byte) (data : List Byte) :
    ∃ n, (tcpSendSegment net p flags data).heap p = { net.heap p with sndNxt := n } :=
  ⟨_, Function.update_self _ _ _⟩

end Fields

/-! ## The frame of the packet handler -/

/-- What a packet for the control block `p` in slot `i` may change. -/
structure Touches (i : ℕ) (p : Ptr) (net net' : NetState) : Prop where
  slot : ∀ j, j ≠ i → net'.tcpPcbs.get j = net.tcpPcbs.get j
  pcb : ∀ q, q ≠ p → net'.heap q = net.heap q
  socketField : (net'.heap p).socket = (net.heap p).socket
  other : ∀ k, (net.heap p).socket ≠ some k → net'.sockets.get k = net.sockets.get k
  own : ∀ k, ∃ r w, net'.sockets.get k = { net.sockets.get k with ring := r, waitingTask := w }
  connecting : net'.connecting = net.connecting
  halted : net'.halted = net.halted

namespace Touches

variable {i k : ℕ} {p : Ptr} {net net' net'' : NetState} {f : Pcb → Pcb}

theorem refl (i : ℕ) (p : Ptr) (net : NetState) : Touches i p net net where
  slot _ _ := rfl
  pcb _ _ := rfl
  socketField := rfl
  other _ _ := rfl
  own _ := ⟨_, _, rfl⟩
  connecting := rfl
  halted := rfl

theorem trans (h : Touches i p net net') (h' : Touches i p net' net'') : Touches i p net net'' where
  slot j hj := (h'.slot j hj).trans (h.slot j hj)
  pcb q hq := (h'.pcb q hq).trans (h.pcb q hq)
  socketField := h'.socketField.trans h.socketField
  other k hk := (h'.other k (h.socketField ▸ hk)).trans (h.other k hk)
  own k := by
    obtain ⟨r, w, hk⟩ := h.own k
    obtain ⟨r', w', hk'⟩ := h'.own k
    exact ⟨r', w', by rw [hk', hk]⟩
  connecting := h'.connecting.trans h.connecting
  halted := h'.halted.trans h.halted

theorem editPcb (hf : (f (net.heap p)).socket = (net.heap p).socket) :
    Touches i p net (net.editPcb p f) where
  slot _ _ := rfl
  pcb q hq := editPcb_heap_ne net p q f hq
  socketField := by rw [editPcb_heap_self, hf]
  other _ _ := rfl
  own _ := ⟨_, _, rfl⟩
  connecting := rfl
  halted := rfl

theorem send (flags : Byte) (data : List Byte) :
    Touches i p net (tcpSendSegment net p flags data) where
  slot _ _ := rfl
  pcb q hq := tcpSendSegment_heap_ne net p q flags data hq
  socketField := by
    obtain ⟨n, hn⟩ := tcpSendSegment_heap_self net p flags data
    rw [hn]
  other _ _ := rfl
  own _ := ⟨_, _, rfl⟩
  connecting := rfl
  halted := rfl

theorem wake (hk : (net.heap p).socket = some k) : Touches i p net (net.wake k) where
  slot j _ := by rw [wake_tcpPcbs]
  pcb q _ := by rw [wake_heap]
  socketField := by rw [wake_heap]
  other j hj := wake_get_ne net k j fun heq => hj (heq ▸ hk)
  own j := by
    obtain ⟨w, hw⟩ := wake_get net k j
    exact ⟨_, w, hw⟩
  connecting := wake_connecting net k
  halted := wake_halted net k

theorem editRing (hk : (net.heap p).socket = some k)
    (r : RingBuffer socketBufferSize Byte) :
    Touches i p net (net.editSocket k fun s => { s with ring := r }) where
  slot _ _ := rfl
  pcb _ _ := rfl
  socketField := rfl
  other j hj := editSocket_get_ne net k j _ fun heq => hj (heq ▸ hk)
  own j := by
    by_cases hj : j = k
    · subst hj
      by_cases hlt : j < 32
      · exact ⟨r, _, editSocket_get_self net j _ hlt⟩
      · refine ⟨(net.sockets.get j).ring, (net.sockets.get j).waitingTask, ?_⟩
        rw [Table.get_of_le _ (Nat.le_of_not_lt hlt), Table.get_of_le _ (Nat.le_of_not_lt hlt)]
    · exact ⟨_, _, editSocket_get_ne net k j _ hj⟩
  connecting := rfl
  halted := rfl

theorem ackNext (pkt : Packet) (state : TcpState) (flags : Byte) :
    Touches i p net (Net.ackNext net p pkt state flags) :=
  trans (editPcb rfl) (send flags [])

theorem wakeSocket : Touches i p net (Net.wakeSocket net p) := by
  rw [Net.wakeSocket]
  split
  · exact refl i p net
  · next hk => exact wake hk

theorem release : Touches i p net (releasePcb net i p) where
  slot j hj := Table.get_set_ne _ hj _
  pcb q hq := Function.update_of_ne hq _ _
  socketField := by simp [releasePcb]
  other _ _ := rfl
  own _ := ⟨_, _, rfl⟩
  connecting := rfl
  halted := rfl

theorem acceptData (pkt : Packet) : Touches i p net (Net.acceptData net p pkt) := by
  rw [Net.acceptData]
  split
  · exact refl i p net
  · next k hk =>
    dsimp only
    split
    · have hring := editRing (i := i) hk
        { (net.sockets.get k).ring.stores pkt.data with
          len := ((net.sockets.get k).ring.len + pkt.dataLen) % 2 ^ 32 }
      refine (hring.trans (editPcb rfl)).trans ((send tcpAck []).trans (wake ?_))
      rw [(hring.trans ((editPcb rfl).trans (send tcpAck []))).socketField, hk]
    · exact refl i p net

end Touches

/-- The handler keeps to its frame. -/
theorem tcpProcess_touches (net : NetState) (i : ℕ) (p : Ptr) (pkt : Packet) :
    Touches i p net (tcpProcess net i p pkt) := by
  have hrefl := Touches.refl i p net
  rw [tcpProcess]
  split
  · split
    · exact (Touches.editPcb rfl).trans (.ackNext pkt _ _)
    · exact hrefl
  · split
    · exact (Touches.ackNext pkt _ _).trans .wakeSocket
    · exact hrefl
  · split
    · exact .editPcb rfl
    · exact hrefl
  · split
    · exact (Touches.ackNext pkt _ _).trans .wakeSocket
    · split
      · exact .acceptData pkt
      · exact hrefl
  · dsimp only
    split
    · exact .ackNext pkt _ _
    · exact .editPcb rfl
  · split
    · exact (Touches.ackNext pkt _ _).trans .release
    · exact hrefl
  · split
    · exact .release
    · exact hrefl
  all_goals exact hrefl

/-! ## The state machine -/

/-- The state after a packet; `none` if the control block is freed. -/
def nextState (state : TcpState) (flags : Byte) : Option TcpState :=
  match state with
  | .listen => some (if hasFlag flags tcpSyn then .synReceived else .listen)
  | .synSent => some (if hasFlag flags tcpSyn ∧ hasFlag flags tcpAck then .established else .synSent)
  | .synReceived => some (if hasFlag flags tcpAck then .established else .synReceived)
  | .established => some (if hasFlag flags tcpFin then .closeWait else .established)
  | .finWait1 =>
    if hasFlag flags tcpFin then some (if hasFlag flags tcpAck then .timeWait else .closing)
    else some (if hasFlag flags tcpAck then .finWait2 else .finWait1)
  | .finWait2 => if hasFlag flags tcpFin then none else some .finWait2
  | .lastAck => if hasFlag flags tcpAck then none else some .lastAck
  | .closed => some .closed
  | .closeWait => some .closeWait
  | .closing => some .closing
  | .timeWait => some .timeWait

section States

variable (net : NetState) (i : ℕ) (p : Ptr) (pkt : Packet)

@[simp] theorem wakeSocket_heap : (wakeSocket net p).heap = net.heap := by
  rw [wakeSocket]
  split
  · rfl
  · exact wake_heap _ _

@[simp] theorem wakeSocket_tcpPcbs : (wakeSocket net p).tcpPcbs = net.tcpPcbs := by
  rw [wakeSocket]
  split
  · rfl
  · exact wake_tcpPcbs _ _

@[simp] theorem ackNext_tcpPcbs (state : TcpState) (flags : Byte) :
    (ackNext net p pkt state flags).tcpPcbs = net.tcpPcbs := rfl

@[simp] theorem ackNext_state (state : TcpState) (flags : Byte) :
    ((ackNext net p pkt state flags).heap p).state = state := by
  simp [ackNext, tcpSendSegment]

@[simp] theorem acceptData_tcpPcbs : (acceptData net p pkt).tcpPcbs = net.tcpPcbs := by
  rw [acceptData]
  split
  · rfl
  · dsimp only
    split
    · exact wake_tcpPcbs _ _
    · rfl

@[simp] theorem acceptData_state : ((acceptData net p pkt).heap p).state = (net.heap p).state := by
  rw [acceptData]
  split
  · rfl
  · dsimp only
    split
    · simp [tcpSendSegment]
    · rfl

/-- The handler follows the state machine. -/
theorem tcpProcess_state {st : TcpState} (hslot : net.tcpPcbs.get i = some p)
    (hnext : nextState (net.heap p).state pkt.flags = some st) :
    (tcpProcess net i p pkt).tcpPcbs.get i = some p ∧
      ((tcpProcess net i p pkt).heap p).state = st := by
  -- one case for each state, as `tcp_process` has them
  cases hstate : (net.heap p).state with
  | listen =>
    rw [hstate, nextState, Option.some_inj] at hnext
    rw [tcpProcess, hstate, ← hnext]
    dsimp only
    split <;> simp [hslot, hstate]
  | synSent =>
    rw [hstate, nextState, Option.some_inj] at hnext
    rw [tcpProcess, hstate, ← hnext]
    dsimp only
    split <;> simp [hslot, hstate]
  | synReceived =>
    rw [hstate, nextState, Option.some_inj] at hnext
    rw [tcpProcess, hstate, ← hnext]
    dsimp only
    split <;> simp [hslot, hstate]
  | established =>
    rw [hstate, nextState, Option.some_inj] at hnext
    rw [tcpProcess, hstate, ← hnext]
    dsimp only
    split
    · simp [hslot]
    · split <;> simp [hslot, hstate]
  | finWait1 =>
    rw [hstate, nextState] at hnext
    rw [tcpProcess, hstate]
    dsimp only
    split at hnext
    · next hfin =>
      rw [if_pos hfin]
      refine ⟨hslot, ?_⟩
      rw [ackNext_state, ← Option.some_inj.mp hnext]
      split <;> rfl
    · next hfin =>
      rw [if_neg hfin]
      exact ⟨hslot, by rw [editPcb_heap_self, ← Option.some_inj.mp hnext]⟩
  | finWait2 =>
    rw [hstate, nextState] at hnext
    rw [tcpProcess, hstate]
    dsimp only
    split at hnext
    · -- a FIN here releases the control block
      cases hnext
    · next hfin =>
      rw [if_neg hfin, hstate]
      exact ⟨hslot, Option.some_inj.mp hnext⟩
  | lastAck =>
    rw [hstate, nextState] at hnext
    rw [tcpProcess, hstate]
    dsimp only
    split at hnext
    · -- and so does the last acknowledgement
      cases hnext
    · next hack =>
      rw [if_neg hack, hstate]
      exact ⟨hslot, Option.some_inj.mp hnext⟩
  | _ =>
    rw [hstate, nextState, Option.some_inj] at hnext
    rw [tcpProcess, hstate]
    exact ⟨hslot, hstate.trans hnext⟩

/-- A control block is freed when the state machine ends. -/
theorem tcpProcess_freed (hi : i < 16) (hnext : nextState (net.heap p).state pkt.flags = none) :
    (tcpProcess net i p pkt).tcpPcbs.get i = none := by
  cases hstate : (net.heap p).state with
  | finWait1 =>
    rw [hstate, nextState] at hnext
    split at hnext <;> cases hnext
  | finWait2 =>
    rw [hstate, nextState] at hnext
    rw [tcpProcess, hstate]
    dsimp only
    split at hnext
    · next hfin =>
      rw [if_pos hfin]
      exact Table.get_set_self _ hi _
    · cases hnext
  | lastAck =>
    rw [hstate, nextState] at hnext
    rw [tcpProcess, hstate]
    dsimp only
    split at hnext
    · next hack =>
      rw [if_pos hack]
      exact Table.get_set_self _ hi _
    · cases hnext
  | _ => rw [hstate] at hnext; cases hnext

end States

end PekerOS.Net
