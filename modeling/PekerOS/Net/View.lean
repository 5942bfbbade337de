import PekerOS.Net.Frame

/-!
# Who refers to whom

The part of the state that control blocks and sockets live and die by: which blocks are in the table,
the state of each and the socket it points to, which sockets are in use, of what kind, and the block
each points to. Ports, sequence numbers and buffers are left out. Each operation of the code is one of
a few operations on this view, or none, so that an invariant about lifetimes has few cases.

## Main definitions

* `View`, `NetState.view`: the view of a state
* `View.setState`, `View.attach`, `View.create`, `View.close`, `View.free`: the operations
* `NetState.callee`: the control block whose state a call sets

## Main results

* `view_listen`, `view_close`, `view_tcpProcess`, …: what each operation of the code does to the view
* `StepView`, `step_view`: the operations of the code refine those of the view
-/

namespace PekerOS.Net

structure View where
  slots : Table 16 (Option Ptr)
  state : Ptr → TcpState
  socket : Ptr → Option ℕ
  inUse : ℕ → Bool
  stream : ℕ → Bool
  ref : ℕ → Option Ptr

/-- The view of a state. -/
def NetState.view (net : NetState) : View where
  slots := net.tcpPcbs
  state p := (net.heap p).state
  socket p := (net.heap p).socket
  inUse k := (net.sockets.get k).inUse
  stream k := (net.sockets.get k).type = sockStream
  ref k := (net.sockets.get k).tcpPcb

/-- The state `tcp_close` leaves a control block in. -/
def closeState : TcpState → TcpState
  | .established => .finWait1
  | .closeWait => .lastAck
  | _ => .closed

namespace View

def setState (v : View) (p : Ptr) (st : TcpState) : View :=
  { v with state := Function.update v.state p st }

/-- A new control block in slot `i`, for socket `k`. -/
def attach (v : View) (i k : ℕ) (p : Ptr) (st : TcpState) : View :=
  { v with
    slots := v.slots.set i (some p)
    state := Function.update v.state p st
    socket := Function.update v.socket p (some k)
    ref := Function.update v.ref k (some p) }

def create (v : View) (k : ℕ) (stream : Bool) : View :=
  { v with inUse := Function.update v.inUse k true, stream := Function.update v.stream k stream }

/-- A socket is closed, and with it the connection of a stream socket. -/
def close (v : View) (k : ℕ) : View :=
  let v' := match v.stream k, v.ref k with
    | true, some p => v.setState p (closeState (v.state p))
    | _, _ => v
  { v' with inUse := Function.update v.inUse k false }

/-- The control block in slot `i` is freed. -/
def free (v : View) (i : ℕ) : View := { v with slots := v.slots.set i none }

section Fields

variable (v : View) (i k : ℕ) (p : Ptr) (st : TcpState)

@[simp] theorem setState_slots : (v.setState p st).slots = v.slots := rfl
@[simp] theorem setState_socket : (v.setState p st).socket = v.socket := rfl
@[simp] theorem setState_inUse : (v.setState p st).inUse = v.inUse := rfl
@[simp] theorem setState_ref : (v.setState p st).ref = v.ref := rfl
@[simp] theorem free_state : (v.free i).state = v.state := rfl
@[simp] theorem free_socket : (v.free i).socket = v.socket := rfl
@[simp] theorem free_inUse : (v.free i).inUse = v.inUse := rfl
@[simp] theorem free_ref : (v.free i).ref = v.ref := rfl
@[simp] theorem attach_inUse : (v.attach i k p st).inUse = v.inUse := rfl

@[simp] theorem setState_state_self : (v.setState p st).state p = st := Function.update_self _ _ _
@[simp] theorem attach_state_self : (v.attach i k p st).state p = st := Function.update_self _ _ _
@[simp] theorem attach_socket_self : (v.attach i k p st).socket p = some k := Function.update_self _ _ _
@[simp] theorem attach_ref_self : (v.attach i k p st).ref k = some p := Function.update_self _ _ _

variable {k p} {j : ℕ} {q : Ptr}

theorem setState_state_ne (h : q ≠ p) : (v.setState p st).state q = v.state q :=
  Function.update_of_ne h _ _

theorem attach_state_ne (h : q ≠ p) : (v.attach i k p st).state q = v.state q :=
  Function.update_of_ne h _ _

theorem attach_socket_ne (h : q ≠ p) : (v.attach i k p st).socket q = v.socket q :=
  Function.update_of_ne h _ _

theorem attach_ref_ne (h : j ≠ k) : (v.attach i k p st).ref j = v.ref j := Function.update_of_ne h _ _

end Fields

theorem ext_fields {v v' : View} (hslots : v.slots = v'.slots) (hstate : ∀ p, v.state p = v'.state p)
    (hsocket : ∀ p, v.socket p = v'.socket p) (hinUse : ∀ k, v.inUse k = v'.inUse k)
    (hstream : ∀ k, v.stream k = v'.stream k) (href : ∀ k, v.ref k = v'.ref k) : v = v' := by
  cases v
  cases v'
  simp only [View.mk.injEq]
  exact ⟨hslots, funext hstate, funext hsocket, funext hinUse, funext hstream, funext href⟩

end View

@[simp] theorem View.close_slots (v : View) (k : ℕ) : (v.close k).slots = v.slots := by
  rw [View.close]
  dsimp only
  split <;> rfl

theorem View.close_inUse (v : View) (k : ℕ) : (v.close k).inUse = Function.update v.inUse k false := rfl

theorem View.close_ref (v : View) (k : ℕ) : (v.close k).ref = v.ref := by
  rw [View.close]
  dsimp only
  split <;> rfl

theorem View.close_socket (v : View) (k : ℕ) : (v.close k).socket = v.socket := by
  rw [View.close]
  dsimp only
  split <;> rfl

theorem View.close_stream (v : View) (k : ℕ) : (v.close k).stream = v.stream := by
  rw [View.close]
  dsimp only
  split <;> rfl

theorem init_inUse (myIp : Word) (heap : Ptr → Pcb) (k : ℕ) :
    (NetState.init myIp heap).view.inUse k = false :=
  congrArg Socket.inUse (Table.get_default k)

theorem inUse_lt {net : NetState} {k : ℕ} (h : net.view.inUse k = true) : k < 32 := by
  by_contra hk
  have hdefault : net.sockets.get k = default := Table.get_of_le _ (Nat.le_of_not_lt hk)
  simp only [NetState.view, hdefault] at h
  cases h

/-! ## Assignments -/

section Assign

variable (net : NetState) (p : Ptr) (k : ℕ) (f : Pcb → Pcb) (g : Socket → Socket)

/-- An assignment to a control block that leaves its socket. -/
theorem view_editPcb (hf : (f (net.heap p)).socket = (net.heap p).socket) :
    (net.editPcb p f).view = net.view.setState p (f (net.heap p)).state := by
  refine View.ext_fields rfl (fun q => ?_) (fun q => ?_) (fun _ => rfl) (fun _ => rfl) fun _ => rfl
  · exact editPcb_field net p q f Pcb.state
  · exact editPcb_same net p q f Pcb.socket hf

theorem View.setState_self (v : View) : v.setState p (v.state p) = v := by
  rw [View.setState, Function.update_eq_self]

/-- An assignment to a control block that leaves its socket and its state. -/
theorem view_editPcb_same (hf : (f (net.heap p)).socket = (net.heap p).socket)
    (hstate : (f (net.heap p)).state = (net.heap p).state) : (net.editPcb p f).view = net.view := by
  rw [view_editPcb net p f hf, hstate]
  exact View.setState_self p net.view

/-- An assignment to a socket that leaves what the view shows of it. -/
theorem view_editSocket_same (hg : (g (net.sockets.get k)).inUse = (net.sockets.get k).inUse ∧
      (g (net.sockets.get k)).type = (net.sockets.get k).type ∧
      (g (net.sockets.get k)).tcpPcb = (net.sockets.get k).tcpPcb) :
    (net.editSocket k g).view = net.view := by
  obtain ⟨hinUse, htype, href⟩ := hg
  refine View.ext_fields rfl (fun _ => rfl) (fun _ => rfl) (fun j => ?_) (fun j => ?_) fun j => ?_
  · exact editSocket_same net k j Socket.inUse hinUse
  · exact congrArg (fun type => decide (type = sockStream)) (editSocket_type net k j htype)
  · exact editSocket_same net k j Socket.tcpPcb href

theorem view_send (flags : Byte) (data : List Byte) :
    (tcpSendSegment net p flags data).view = net.view :=
  view_editPcb_same { net with sent := _ } p _ rfl rfl

theorem view_wake : (net.wake k).view = net.view := by
  rw [NetState.wake]
  split
  · rfl
  · exact view_editSocket_same net k (fun s => { s with waitingTask := none }) ⟨rfl, rfl, rfl⟩

theorem view_sleepOn (task : ℕ) : (sleepOn net k task).view = net.view :=
  view_editSocket_same net k (fun s => { s with waitingTask := some task }) ⟨rfl, rfl, rfl⟩

end Assign

/-! ## The operations of the code -/

section Operations

variable (net : NetState) (k : ℕ)

theorem view_create (domain type protocol : Word) :
    (net.exec (.create domain type protocol)).view = net.view ∧ freeSocket net = none ∨
      ∃ k, freeSocket net = some k ∧ k < 32 ∧ (net.sockets.get k).inUse = false ∧
        (net.exec (.create domain type protocol)).view = net.view.create k (type = sockStream) := by
  rw [NetState.exec, socketCreate]
  cases hfree : freeSocket net with
  | none => exact .inl ⟨rfl, rfl⟩
  | some k =>
    right
    obtain ⟨hfound, hmem, -⟩ := List.find?_range_eq_some.mp hfree
    have hlt := List.mem_range.mp hmem
    refine ⟨k, rfl, hlt, by simpa using hfound, ?_⟩
    refine View.ext_fields rfl (fun _ => rfl) (fun _ => rfl) (fun j => ?_) (fun j => ?_) fun j => ?_
    · exact editSocket_field net k j _ Socket.inUse hlt
    · exact editSocket_field net k j _ (fun s => decide (s.type = sockStream)) hlt
    · exact editSocket_same net k j Socket.tcpPcb rfl

theorem view_bind (port : Port) (addr : Word) : (socketBind net k port addr).view = net.view := by
  rw [socketBind]
  split
  · exact view_editSocket_same net k _ ⟨rfl, rfl, rfl⟩
  · exact (view_editPcb_same _ _ _ rfl rfl).trans (view_editSocket_same net k _ ⟨rfl, rfl, rfl⟩)

/-- A socket has its control block, or a new one is attached to it. -/
theorem view_ensurePcb {net' : NetState} {p ptr : Ptr} (hk : k < 32)
    (h : ensurePcb net k ptr = some (net', p)) :
    (net.sockets.get k).tcpPcb = some p ∧ net' = net ∨
      (net.sockets.get k).tcpPcb = none ∧ p = ptr ∧ ∃ i < 16, net.tcpPcbs.get i = none ∧
        net'.view = net.view.attach i k p .closed := by
  rw [ensurePcb] at h
  split at h
  · next hp =>
    -- the socket has its control block already
    simp only [Option.some_inj, Prod.mk.injEq] at h
    obtain ⟨rfl, rfl⟩ := h
    exact .inl ⟨hp, rfl⟩
  · next hp =>
    right
    obtain ⟨net₁, hnew, h⟩ := Option.map_eq_some_iff.mp h
    simp only [Prod.mk.injEq] at h
    obtain ⟨rfl, rfl⟩ := h
    rw [tcpNewPcb] at hnew
    split at hnew
    · cases hnew
    · -- a new one goes to the first slot that is empty
      obtain ⟨i, hi, rfl⟩ := Option.map_eq_some_iff.mp hnew
      obtain ⟨hfree, hmem, -⟩ := List.find?_range_eq_some.mp hi
      refine ⟨hp, rfl, i, List.mem_range.mp hmem, by simpa using hfree, ?_⟩
      refine View.ext_fields rfl (fun q => ?_) (fun q => ?_) (fun j => ?_) (fun j => ?_) fun j => ?_
      · by_cases hq : q = ptr
        · subst hq
          simp [NetState.view, View.attach, newPcb]
        · simp [NetState.view, View.attach, editPcb_heap_ne _ _ _ _ hq, hq]
      · by_cases hq : q = ptr
        · subst hq
          simp [NetState.view, View.attach]
        · simp [NetState.view, View.attach, editPcb_heap_ne _ _ _ _ hq, hq]
      · exact editSocket_same net k j (g := fun s => { s with tcpPcb := some ptr }) Socket.inUse rfl
      · exact congrArg (fun type => decide (type = sockStream))
          (editSocket_type net k j (g := fun s => { s with tcpPcb := some ptr }) rfl)
      · exact editSocket_field net k j (fun s => { s with tcpPcb := some ptr }) Socket.tcpPcb hk

/-- A new control block sends nothing. -/
theorem ensurePcb_keeps {net' : NetState} {p ptr : Ptr} (h : ensurePcb net k ptr = some (net', p)) :
    net'.sent = net.sent ∧ net'.halted = net.halted := by
  rw [ensurePcb] at h
  split at h
  · cases h
    exact ⟨rfl, rfl⟩
  · obtain ⟨net₁, hnew, h⟩ := Option.map_eq_some_iff.mp h
    cases h
    rw [tcpNewPcb] at hnew
    split at hnew
    · cases hnew
    · obtain ⟨i, -, rfl⟩ := Option.map_eq_some_iff.mp hnew
      exact ⟨rfl, rfl⟩

theorem recvfrom_keeps (length : Word) (task : ℕ) :
    (socketRecvfrom net k length task).1.sent = net.sent ∧
      (socketRecvfrom net k length task).1.halted = net.halted := by
  rw [socketRecvfrom]
  dsimp only
  split
  · exact ⟨rfl, rfl⟩
  · split <;> exact ⟨rfl, rfl⟩

theorem dispatch_keeps (d : Datagram) :
    (socketDispatchUdp net d).sent = net.sent ∧ (socketDispatchUdp net d).halted = net.halted := by
  rw [socketDispatchUdp]
  split
  · exact ⟨rfl, rfl⟩
  · dsimp only
    split
    · exact ⟨wake_sent _ _, wake_halted _ _⟩
    · exact ⟨rfl, rfl⟩

theorem View.setState_attach (v : View) (i k : ℕ) (p : Ptr) (st st' : TcpState) :
    (v.attach i k p st).setState p st' = v.attach i k p st' := by
  simp [View.attach, View.setState]

/-- `socket_listen`: nothing, on a fault or for other sockets; a listening control block, the socket's
own or a new one. -/
theorem view_listen (ptr : Ptr) (hk : k < 32) :
    streamPcb net k = none ∧ (socketListen net k ptr).view = net.view ∨
      (∃ p, streamPcb net k = some p ∧
        (socketListen net k ptr).view = net.view.setState p .listen) ∨
      (net.sockets.get k).tcpPcb = none ∧ ∃ i < 16, net.tcpPcbs.get i = none ∧
        (socketListen net k ptr).view = net.view.attach i k ptr .listen := by
  rw [socketListen, streamPcb]
  split
  · cases hensure : ensurePcb net k ptr with
    | none =>
      refine .inl ⟨?_, rfl⟩
      rw [ensurePcb] at hensure
      split at hensure
      · cases hensure
      · assumption
    | some r =>
      obtain ⟨net', p⟩ := r
      dsimp only
      rw [view_editPcb _ _ _ rfl]
      rcases view_ensurePcb net k hk hensure with ⟨hp, rfl⟩ | ⟨hp, rfl, i, hi, hslot, hview⟩
      · exact .inr (.inl ⟨p, hp, rfl⟩)
      · exact .inr (.inr ⟨hp, i, hi, hslot, by rw [hview, View.setState_attach]⟩)
  · exact .inl ⟨rfl, rfl⟩

theorem view_connect (addr : Word) (port : Port) (ptr : Ptr) (hk : k < 32) :
    (socketConnect net k addr port ptr).view = net.view ∨
      (net.sockets.get k).tcpPcb = none ∧ ∃ i < 16, net.tcpPcbs.get i = none ∧
        (socketConnect net k addr port ptr).view = net.view.attach i k ptr .closed := by
  rw [socketConnect]
  dsimp only
  have hsame := view_editSocket_same net k (fun s => { s with remoteAddr := addr, remotePort := port })
    ⟨rfl, rfl, rfl⟩
  have href := congrArg (fun v => v.ref k) hsame
  split
  · split
    · exact .inl hsame
    · next net' p hensure =>
      have hview := view_editPcb_same (tcpGetFreePort net').1 p
        (fun pcb =>
          { pcb with
            localPort := (tcpGetFreePort net').2
            localIp := (tcpGetFreePort net').1.myIp
            remotePort := port
            remoteIp := addr }) rfl rfl
      change _ = net'.view at hview
      rw [← hsame]
      rcases view_ensurePcb _ k hk hensure with ⟨-, rfl⟩ | ⟨hp, rfl, i, hi, hslot, hattach⟩
      · exact .inl hview
      · exact .inr ⟨href.symm.trans hp, i, hi, hslot, hview.trans hattach⟩
  · exact .inl hsame

/-- The control block of a socket that is in the middle of `socket_connect`. -/
def connectPcb (net : NetState) (k : ℕ) : Option Ptr :=
  if net.connecting.get k then (net.sockets.get k).tcpPcb else none

theorem view_connectSyn (task : ℕ) :
    connectPcb net k = none ∧ (socketConnectSyn net k task).view = net.view ∨
      ∃ p, connectPcb net k = some p ∧
        (socketConnectSyn net k task).view = net.view.setState p .synSent := by
  rw [socketConnectSyn]
  split
  · next p hconnecting hp =>
    refine .inr ⟨p, by rw [connectPcb, if_pos hconnecting, hp], ?_⟩
    have hwait := view_sleepOn (tcpSendSegment
      (net.editPcb p fun pcb => { pcb with state := .synSent, sndNxt := 100#32 }) p tcpSyn []) k task
    exact hwait.trans ((view_send _ _ _ _).trans (view_editPcb net p _ rfl))
  · next hnot =>
    refine .inl ⟨?_, rfl⟩
    rw [connectPcb]
    split
    · next hconnecting =>
      cases hp : (net.sockets.get k).tcpPcb with
      | none => rfl
      | some p => exact absurd hp (hnot p hconnecting)
    · rfl

theorem view_accept (task : ℕ) : (socketAccept net k task).view = net.view := by
  rw [socketAccept]
  split
  · split
    · rfl
    · split
      · rfl
      · exact view_sleepOn net k task
  · rfl

theorem view_sendto (message : List Byte) : (socketSendto net k message).view = net.view := by
  rw [socketSendto]
  split
  · rfl
  · split
    · exact view_send _ _ _ _
    · rfl

theorem view_recvfrom (length : Word) (task : ℕ) :
    (socketRecvfrom net k length task).1.view = net.view := by
  rw [socketRecvfrom]
  dsimp only
  split
  · exact view_sleepOn net k task
  · split
    · exact view_editSocket_same net k _ ⟨rfl, rfl, rfl⟩
    · exact view_editSocket_same net k _ ⟨rfl, rfl, rfl⟩

theorem view_datagram (d : Datagram) : (socketDispatchUdp net d).view = net.view := by
  rw [socketDispatchUdp]
  split
  · rfl
  · dsimp only
    split
    · exact (view_wake _ _).trans (view_editSocket_same net _ _ ⟨rfl, rfl, rfl⟩)
    · rfl

theorem view_tcpClose (p : Ptr) :
    (tcpClose net p).view = net.view.setState p (closeState (net.heap p).state) := by
  rw [tcpClose]
  split
  · next h =>
    rw [h, view_editPcb _ _ _ rfl, view_send]
    rfl
  · next h =>
    rw [h, view_editPcb _ _ _ rfl, view_send]
    rfl
  · next h₁ h₂ =>
    rw [view_editPcb _ _ _ rfl]
    congr 1
    cases hstate : (net.heap p).state <;> first | rfl | exact absurd hstate h₁ | exact absurd hstate h₂

theorem view_close (hk : k < 32) : (socketClose net k).view = net.view.close k := by
  have hinUse (net' : NetState) :
      (net'.editSocket k fun s => { s with inUse := false }).view =
        { net'.view with inUse := Function.update net'.view.inUse k false } := by
    refine View.ext_fields rfl (fun _ => rfl) (fun _ => rfl) (fun j => ?_) (fun j => ?_) fun j => ?_
    · exact editSocket_field net' k j _ Socket.inUse hk
    · exact congrArg (fun type => decide (type = sockStream)) (editSocket_type net' k j rfl)
    · exact editSocket_same net' k j Socket.tcpPcb rfl
  rw [socketClose, hinUse, View.close]
  by_cases hstream : (net.sockets.get k).type = sockStream
  · cases hp : (net.sockets.get k).tcpPcb with
    | none => simp [streamPcb, hstream, hp, NetState.view]
    | some p =>
      have hcloseView := view_tcpClose net p
      simp only [streamPcb, hstream, hp, if_true]
      rw [hcloseView]
      simp [NetState.view, hstream, hp, View.setState]
  · simp [streamPcb, hstream, NetState.view]

/-- A packet for the control block `p` in slot `i`. -/
theorem view_tcpProcess {i : ℕ} {p : Ptr} (pkt : Packet) (hi : i < 16)
    (hslot : net.tcpPcbs.get i = some p) :
    (tcpProcess net i p pkt).view =
      match nextState (net.heap p).state pkt.flags with
      | some st => net.view.setState p st
      | none => (net.view.setState p ((tcpProcess net i p pkt).heap p).state).free i := by
  have ht := tcpProcess_touches net i p pkt
  -- whatever the branch, the view changes in the slot and the state at most
  have hview : (tcpProcess net i p pkt).view =
      { net.view.setState p ((tcpProcess net i p pkt).heap p).state with
        slots := net.view.slots.set i ((tcpProcess net i p pkt).tcpPcbs.get i) } := by
    refine View.ext_fields ?_ (fun q => ?_) (fun q => ?_) (fun k => ?_) (fun k => ?_) fun k => ?_
    · refine Table.ext_get fun j hj => ?_
      by_cases hji : j = i
      · subst hji
        rw [Table.get_set_self _ hi]
        rfl
      · rw [Table.get_set_ne _ hji]
        exact ht.slot j hji
    · by_cases hq : q = p
      · subst hq
        simp [NetState.view, View.setState]
      · simp [NetState.view, View.setState, ht.pcb q hq, hq]
    · by_cases hq : q = p
      · subst hq
        exact ht.socketField
      · exact congrArg Pcb.socket (ht.pcb q hq)
    all_goals
      obtain ⟨r, w, hk⟩ := ht.own k
      simp only [NetState.view, hk]
      rfl
  rw [hview]
  cases hnext : nextState (net.heap p).state pkt.flags with
  | none =>
    rw [tcpProcess_freed net i p pkt hi hnext]
    rfl
  | some st =>
    obtain ⟨hkeep, hstate⟩ := tcpProcess_state net i p pkt hslot hnext
    rw [hkeep, hstate, ← hslot]
    exact congrArg (fun slots => { net.view.setState p st with slots := slots })
      (Table.set_get net.tcpPcbs i)

end Operations

/-! ## Steps -/

/-- The control block, already there, whose state a call sets. -/
def NetState.callee (net : NetState) : NetOp → Option Ptr
  | .listen k _ => streamPcb net k
  | .connectSyn k _ => connectPcb net k
  | .close k => streamPcb net k
  | _ => none

/-- A call on a socket other than `socket_close`, or a datagram. -/
def NetOp.Plain : NetOp → Prop
  | .create _ _ _ => False
  | .close _ => False
  | .packet _ => False
  | _ => True

/-- What a step can do to the view. -/
inductive StepView (net : NetState) : NetOp → View → Prop
  | idle {op : NetOp} (h : net.halted || !op.valid net) : StepView net op net.view
  | quiet {op : NetOp} (hop : op.Plain) (hcallee : net.callee op = none) : StepView net op net.view
  | full {domain type protocol : Word} (hfree : freeSocket net = none) :
      StepView net (.create domain type protocol) net.view
  | create {domain type protocol : Word} {k : ℕ} (hfree : freeSocket net = some k) (hk : k < 32)
      (hunused : net.view.inUse k = false) :
      StepView net (.create domain type protocol) (net.view.create k (type = sockStream))
  | setState {op : NetOp} {k : ℕ} {p : Ptr} {st : TcpState} (hop : op.Plain)
      (hcallee : net.callee op = some p) (huse : net.view.inUse k) (href : net.view.ref k = some p)
      (hst : st = .listen ∨ st = .synSent) : StepView net op (net.view.setState p st)
  | attach {op : NetOp} {i k : ℕ} {p : Ptr} {st : TcpState} (hop : op.Plain)
      (hcallee : net.callee op = none) (hi : i < 16) (hslot : net.view.slots.get i = none)
      (hfresh : ∀ j, net.view.slots.get j ≠ some p) (huse : net.view.inUse k)
      (href : net.view.ref k = none) (hst : st = .listen ∨ st = .closed) :
      StepView net op (net.view.attach i k p st)
  | close {k : ℕ} (h : net.halted = false) (huse : net.view.inUse k) :
      StepView net (.close k) (net.view.close k)
  | lost {pkt : Packet} (hlookup : tcpLookup net pkt = none) : StepView net (.packet pkt) net.view
  | packet {pkt : Packet} {i : ℕ} {p : Ptr} (h : net.halted = false)
      (hlookup : tcpLookup net pkt = some i) (hi : i < 16) (hslot : net.view.slots.get i = some p) :
      StepView net (.packet pkt) (tcpProcess net i p pkt).view

section Step

variable {net : NetState} {op : NetOp} {k : ℕ} {ptr : Ptr}

theorem NetOp.valid_socket (h : op.valid net) (hk : op.socket? = some k) :
    k < 32 ∧ net.view.inUse k := by
  rw [NetOp.valid, hk, Bool.and_eq_true] at h
  simpa [NetState.view] using h.1

theorem NetOp.valid_ptr (h : op.valid net) (hptr : op.ptr? = some ptr) (j : ℕ) :
    net.view.slots.get j ≠ some ptr := by
  rw [NetOp.valid, hptr, Bool.and_eq_true] at h
  by_cases hj : j < 16
  · have hne := List.all_eq_true.mp h.2 j (List.mem_range.mpr hj)
    simpa [NetState.view] using hne
  · rw [Table.get_of_le _ (Nat.le_of_not_lt hj)]
    exact nofun

theorem tcpLookup_slot {pkt : Packet} {i : ℕ} (h : tcpLookup net pkt = some i) :
    i < 16 ∧ ∃ p, net.tcpPcbs.get i = some p := by
  obtain ⟨hmatch, hmem, -⟩ := List.find?_range_eq_some.mp h
  refine ⟨List.mem_range.mp hmem, ?_⟩
  rw [slotMatches] at hmatch
  split at hmatch
  · cases hmatch
  · next p hp => exact ⟨p, hp⟩

theorem tcpInput_eq {pkt : Packet} {i : ℕ} {p : Ptr} (h : tcpLookup net pkt = some i)
    (hslot : net.tcpPcbs.get i = some p) : tcpInput net pkt = tcpProcess net i p pkt := by
  rw [tcpInput, h]
  dsimp only
  rw [hslot]

theorem streamPcb_ref {p : Ptr} (h : streamPcb net k = some p) : net.view.ref k = some p := by
  rw [streamPcb] at h
  split at h
  · exact h
  · cases h

theorem connectPcb_ref {p : Ptr} (h : connectPcb net k = some p) : net.view.ref k = some p := by
  rw [connectPcb] at h
  split at h
  · exact h
  · cases h

theorem close_state_of_none (h : streamPcb net k = none) : (net.view.close k).state = net.view.state := by
  rw [View.close]
  dsimp only
  split
  · next p hstream hp =>
    rw [streamPcb, if_pos (by simpa [NetState.view] using hstream)] at h
    exact absurd (h.symm.trans hp) nofun
  · rfl

theorem close_state_of_some {p : Ptr} (h : streamPcb net k = some p) :
    (net.view.close k).state = Function.update net.view.state p (closeState (net.view.state p)) := by
  have href := streamPcb_ref h
  have hstream : net.view.stream k = true := by
    rw [streamPcb] at h
    split at h
    · simpa [NetState.view]
    · cases h
  rw [View.close, hstream, href]
  rfl

theorem step_of_idle (h : (net.halted || !op.valid net) = true) : net.step op = net := by
  rw [NetState.step, if_pos h]

/-- A step of the code is a step of the view. -/
theorem step_view (net : NetState) (op : NetOp) : StepView net op (net.step op).view := by
  rw [NetState.step]
  split
  · next h => exact .idle h
  · next h =>
    rw [Bool.not_eq_true, Bool.or_eq_false_iff, Bool.not_eq_false'] at h
    obtain ⟨hhalted, hvalid⟩ := h
    cases op with
    | create domain type protocol =>
      rcases view_create net domain type protocol with ⟨hview, hfree⟩ | ⟨k, hfree, hk, hunused, hview⟩
      · exact hview ▸ .full hfree
      · exact hview ▸ .create hfree hk hunused
    | bind k port addr => exact view_bind net k port addr ▸ .quiet trivial rfl
    | listen k ptr =>
      obtain ⟨hk, huse⟩ := NetOp.valid_socket hvalid rfl
      rcases view_listen net k ptr hk with ⟨hnone, hview⟩ | ⟨p, hp, hview⟩ | ⟨hnone, i, hi, hslot, hview⟩
      · exact hview ▸ .quiet trivial hnone
      · exact hview ▸ .setState trivial hp huse (streamPcb_ref hp) (.inl rfl)
      · -- the socket had no control block, so none is referenced twice
        have hcallee : streamPcb net k = none := by rw [streamPcb, hnone, ite_self]
        exact hview ▸ .attach trivial hcallee hi hslot (NetOp.valid_ptr hvalid rfl) huse hnone (.inl rfl)
    | connect k addr port ptr =>
      obtain ⟨hk, huse⟩ := NetOp.valid_socket hvalid rfl
      rcases view_connect net k addr port ptr hk with hview | ⟨hnone, i, hi, hslot, hview⟩
      · exact hview ▸ .quiet trivial rfl
      · exact hview ▸ .attach trivial rfl hi hslot (NetOp.valid_ptr hvalid rfl) huse hnone (.inr rfl)
    | connectSyn k task =>
      obtain ⟨hk, huse⟩ := NetOp.valid_socket hvalid rfl
      rcases view_connectSyn net k task with ⟨hnone, hview⟩ | ⟨p, hp, hview⟩
      · exact hview ▸ .quiet trivial hnone
      · exact hview ▸ .setState trivial hp huse (connectPcb_ref hp) (.inr rfl)
    | accept k task => exact view_accept net k task ▸ .quiet trivial rfl
    | sendto k message => exact view_sendto net k message ▸ .quiet trivial rfl
    | recvfrom k length task => exact view_recvfrom net k length task ▸ .quiet trivial rfl
    | close k =>
      obtain ⟨hk, huse⟩ := NetOp.valid_socket hvalid rfl
      exact view_close net k hk ▸ .close hhalted huse
    | packet pkt =>
      cases hlookup : tcpLookup net pkt with
      | none =>
        -- a segment for no control block changes nothing
        have heq : tcpInput net pkt = net := by rw [tcpInput, hlookup]
        rw [NetState.exec, heq]
        exact .lost hlookup
      | some i =>
        obtain ⟨hi, p, hslot⟩ := tcpLookup_slot hlookup
        rw [NetState.exec, tcpInput_eq hlookup hslot]
        exact .packet hhalted hlookup hi hslot
    | datagram d => exact view_datagram net d ▸ .quiet trivial rfl

end Step

end PekerOS.Net
