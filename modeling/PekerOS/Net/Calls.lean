import PekerOS.Net.View

/-!
# Calls without a control block

A stream socket has no control block until `socket_listen` or `socket_connect` makes one, for which
there must be a free slot. `socket_bind`, `socket_sendto` and `socket_close` ask whether there is one,
`socket_accept` does not; `socket_listen` and `socket_connect` do not ask whether they got one; and
`socket_recvfrom` waits for data that cannot come.

## Main definitions

* `Reply`, `NetState.reply`: what a call on a stream socket returns
* `TooEarly`, `TableFull`: calls made before the block exists, or when it cannot be made
* `Refused`: the call returns -1 and leaves the socket as it was
* `BlockReady`: the condition on a step

## Main results

* `halted_iff`: the calls that use a null pointer
* `calls_refused`: runs in which no null pointer is used and the calls that cannot be served are refused
-/

namespace PekerOS.Net

/-- What a call gives to the task that made it: a value in `eax`, the node of a socket, or nothing, as
the task sleeps or the kernel has faulted. -/
inductive Reply
  | value (v : Word)
  | node
  | waits
  | faults
deriving DecidableEq

/-- `-1` -/
abbrev failure : Word := 0xFFFFFFFF#32

def listenReply (net : NetState) (k : ℕ) (ptr : Ptr) : Reply :=
  if (net.sockets.get k).type = sockStream then
    match ensurePcb net k ptr with
    | none => .faults
    | some _ => .value 0#32
  else .value failure

/-- The first part of `socket_connect` only ends in the loop that lets other tasks run. -/
def connectReply (net : NetState) (k : ℕ) (ptr : Ptr) : Reply :=
  if (net.sockets.get k).type = sockStream then
    match ensurePcb net k ptr with
    | none => .faults
    | some _ => .waits
  else .value 0#32

def acceptReply (net : NetState) (k : ℕ) : Reply :=
  if (net.sockets.get k).type = sockStream then
    match (net.sockets.get k).tcpPcb with
    | none => .faults
    | some p => if (net.heap p).state = .established then .node else .waits
  else .value failure

/-- For a stream socket. -/
def sendtoReply (net : NetState) (k : ℕ) (message : List Byte) : Reply :=
  match streamPcb net k with
  | none => .value failure
  | some p =>
    if (net.heap p).state = .established then .value (BitVec.ofNat 32 message.length)
    else .value failure

def recvfromReply (net : NetState) (k : ℕ) (length : Word) (task : ℕ) : Reply :=
  match (socketRecvfrom net k length task).2 with
  | none => .waits
  | some bytes => .value (BitVec.ofNat 32 bytes.length)

/-- What a call on a stream socket returns. -/
def NetState.reply (net : NetState) : NetOp → Reply
  | .create _ _ _ =>
    match freeSocket net with
    | none => .value failure
    | some _ => .node
  | .listen k ptr => listenReply net k ptr
  | .connect k _ _ ptr => connectReply net k ptr
  | .connectSyn _ _ => .waits
  | .accept k _ => acceptReply net k
  | .sendto k message => sendtoReply net k message
  | .recvfrom k length task => recvfromReply net k length task
  | _ => .value 0#32

/-- A stream socket without a control block. -/
def NoBlock (net : NetState) (k : ℕ) : Prop :=
  (net.sockets.get k).type = sockStream ∧ (net.sockets.get k).tcpPcb = none

/-- A call for which the control block should have been made before. -/
def TooEarly (net : NetState) : NetOp → Prop
  | .accept k _ => NoBlock net k
  | .sendto k _ => NoBlock net k
  | .recvfrom k _ _ => NoBlock net k
  | _ => False

/-- A call that has to make the control block when all slots are taken. -/
def TableFull (net : NetState) : NetOp → Prop
  | .listen k _ => NoBlock net k ∧ freeSlot net = none
  | .connect k _ _ _ => NoBlock net k ∧ freeSlot net = none
  | _ => False

/-- The call returns -1 and leaves the socket it is made on as it was. -/
def Refused (net : NetState) (op : NetOp) : Prop :=
  net.reply op = .value failure ∧
    ∀ k, op.socket? = some k → (net.exec op).sockets.get k = net.sockets.get k

/-- Calls made too early or with a full table are refused. -/
def Refuses (net : NetState) (op : NetOp) : Prop :=
  op.valid net → TooEarly net op ∨ TableFull net op → Refused net op

/-- `socket_accept` and `socket_recvfrom` find a control block, and `socket_listen` and
`socket_connect` find one or make one, in a free slot and with memory for it. -/
def BlockReady (net : NetState) (op : NetOp) : Prop :=
  op.valid net →
    match op with
    | .accept k _ => ¬NoBlock net k
    | .recvfrom k _ _ => ¬NoBlock net k
    | .listen k ptr => NoBlock net k → freeSlot net ≠ none ∧ ptr ≠ 0#32
    | .connect k _ _ ptr => NoBlock net k → freeSlot net ≠ none ∧ ptr ≠ 0#32
    | _ => True

/-! ## Null pointers -/

section Calls

variable {net net' : NetState} {op : NetOp} {k : ℕ} {p ptr : Ptr}

theorem ensurePcb_none :
    ensurePcb net k ptr = none ↔
      (net.sockets.get k).tcpPcb = none ∧ (freeSlot net = none ∨ ptr = 0#32) := by
  rw [ensurePcb]
  split
  · next q hq => simp [hq]
  · next hq =>
    rw [Option.map_eq_none_iff, tcpNewPcb]
    split
    · next hptr => simp [hq, hptr]
    · next hptr => simp [hq, hptr]

/-- `socket_connect` records the peer before it asks for the control block. -/
theorem ensurePcb_peer (addr : Word) (port : Port) :
    ensurePcb (net.editSocket k fun s => { s with remoteAddr := addr, remotePort := port }) k ptr = none ↔
      ensurePcb net k ptr = none := by
  have href := congrArg (fun v => v.ref k) (view_editSocket_same net k
    (fun s => { s with remoteAddr := addr, remotePort := port }) ⟨rfl, rfl, rfl⟩)
  rw [ensurePcb_none, ensurePcb_none]
  exact and_congr (iff_of_eq (congrArg (· = none) href)) Iff.rfl

theorem tcpClose_halted (net : NetState) (p : Ptr) : (tcpClose net p).halted = net.halted := by
  rw [tcpClose]
  split <;> rfl

theorem tcpInput_halted (net : NetState) (pkt : Packet) : (tcpInput net pkt).halted = net.halted := by
  rw [tcpInput]
  split
  · rfl
  · split
    · rfl
    · exact (tcpProcess_touches net _ _ pkt).halted

/-- The kernel faults in the calls that use a null pointer. -/
theorem halted_iff (hhalted : net.halted = false) :
    (net.exec op).halted = false ↔ net.reply op ≠ .faults := by
  cases op with
  | create domain type protocol =>
    rw [NetState.exec, NetState.reply, socketCreate]
    cases freeSocket net with
    | none => exact iff_of_true hhalted (by rintro ⟨⟩)
    | some k => exact iff_of_true hhalted (by rintro ⟨⟩)
  | bind k port addr =>
    refine iff_of_true ?_ (by rintro ⟨⟩)
    rw [NetState.exec, socketBind]
    split <;> exact hhalted
  | listen k ptr =>
    rw [NetState.exec, NetState.reply, socketListen, listenReply]
    split
    · -- the call faults exactly when it finds no slot for a control block
      cases hensure : ensurePcb net k ptr with
      | none => exact iff_of_false (by rintro ⟨⟩) (absurd rfl)
      | some r =>
        obtain ⟨net', p⟩ := r
        exact iff_of_true ((ensurePcb_keeps net k hensure).2.trans hhalted) (by rintro ⟨⟩)
    · exact iff_of_true hhalted (by rintro ⟨⟩)
  | connect k addr port ptr =>
    -- the peer is stored before the control block is looked for, and the search does not read it
    have hpeer : ensurePcb (net.editSocket k fun s => { s with remoteAddr := addr, remotePort := port })
        k ptr = none ↔ ensurePcb net k ptr = none := ensurePcb_peer addr port
    rw [NetState.exec, NetState.reply, socketConnect, connectReply]
    dsimp only
    rw [editSocket_type (g := fun s => { s with remoteAddr := addr, remotePort := port }) net k k rfl]
    split
    · cases hensure : ensurePcb (net.editSocket k fun s =>
          { s with remoteAddr := addr, remotePort := port }) k ptr with
      | none =>
        rw [hpeer.mp hensure]
        exact iff_of_false (by rintro ⟨⟩) (absurd rfl)
      | some r =>
        obtain ⟨net', p⟩ := r
        refine iff_of_true ((ensurePcb_keeps _ k hensure).2.trans hhalted) ?_
        -- the reply is read off the state before the peer is stored
        cases hplain : ensurePcb net k ptr with
        | none => exact absurd (hensure.symm.trans (hpeer.mpr hplain)) (by rintro ⟨⟩)
        | some r => rintro ⟨⟩
    · exact iff_of_true hhalted (by rintro ⟨⟩)
  | connectSyn k task =>
    refine iff_of_true ?_ (by rintro ⟨⟩)
    rw [NetState.exec, socketConnectSyn]
    split <;> exact hhalted
  | accept k task =>
    rw [NetState.exec, NetState.reply, socketAccept, acceptReply]
    split
    · -- without a control block the queue is looked for behind a null pointer
      cases (net.sockets.get k).tcpPcb with
      | none => exact iff_of_false (by rintro ⟨⟩) (absurd rfl)
      | some p =>
        dsimp only
        split
        · exact iff_of_true hhalted (by rintro ⟨⟩)
        · exact iff_of_true hhalted (by rintro ⟨⟩)
    · exact iff_of_true hhalted (by rintro ⟨⟩)
  | sendto k message =>
    refine iff_of_true ?_ ?_
    · rw [NetState.exec, socketSendto]
      split
      · exact hhalted
      · split <;> exact hhalted
    · rw [NetState.reply, sendtoReply]
      split
      · rintro ⟨⟩
      · split <;> rintro ⟨⟩
  | recvfrom k length task =>
    refine iff_of_true ((recvfrom_keeps net k length task).2.trans hhalted) ?_
    rw [NetState.reply, recvfromReply]
    split <;> rintro ⟨⟩
  | close k =>
    refine iff_of_true ?_ (by rintro ⟨⟩)
    rw [NetState.exec, socketClose]
    split
    · exact hhalted
    · exact (tcpClose_halted net _).trans hhalted
  | packet pkt => exact iff_of_true ((tcpInput_halted net pkt).trans hhalted) (by rintro ⟨⟩)
  | datagram d => exact iff_of_true ((dispatch_keeps net d).2.trans hhalted) (by rintro ⟨⟩)

/-! ## Refusals -/

/-- A receive from a stream socket takes bytes or waits; it is never refused. -/
theorem recvfrom_not_refused {length : Word} {task : ℕ} (hk : k < 32)
    (hstream : (net.sockets.get k).type = sockStream) : ¬Refused net (.recvfrom k length task) := by
  rintro ⟨hreply, hsame⟩
  have hsame := congrArg (fun s => s.ring.len) (hsame k rfl)
  rw [NetState.reply, recvfromReply] at hreply
  rw [NetState.exec] at hsame
  by_cases hempty : (net.sockets.get k).ring.len = 0
  · rw [socketRecvfrom] at hreply
    dsimp only at hreply
    rw [if_pos hempty] at hreply
    cases hreply
  · rw [socketRecvfrom] at hreply hsame
    dsimp only at hreply hsame
    rw [if_neg hempty, if_neg (by rw [hstream]; decide)] at hreply hsame
    dsimp only at hreply hsame
    rw [editSocket_get_self _ _ _ hk] at hsame
    dsimp only at hsame
    have hnone : min length.toNat (net.sockets.get k).ring.len = 0 := by omega
    rw [hnone, RingBuffer.loads] at hreply
    cases hreply

theorem listenReply_faults :
    listenReply net k ptr = .faults ↔ NoBlock net k ∧ (freeSlot net = none ∨ ptr = 0#32) := by
  rw [listenReply, NoBlock, and_assoc, ← ensurePcb_none]
  split
  · next hstream =>
    rw [and_iff_right hstream]
    cases ensurePcb net k ptr with
    | none => exact iff_of_true rfl rfl
    | some r => exact iff_of_false nofun nofun
  · next hstream => exact iff_of_false nofun fun h => hstream h.1

theorem connectReply_faults :
    connectReply net k ptr = .faults ↔ NoBlock net k ∧ (freeSlot net = none ∨ ptr = 0#32) := by
  rw [connectReply, NoBlock, and_assoc, ← ensurePcb_none]
  split
  · next hstream =>
    rw [and_iff_right hstream]
    cases ensurePcb net k ptr with
    | none => exact iff_of_true rfl rfl
    | some r => exact iff_of_false nofun nofun
  · next hstream => exact iff_of_false nofun fun h => hstream h.1

theorem acceptReply_faults : acceptReply net k = .faults ↔ NoBlock net k := by
  rw [acceptReply, NoBlock]
  split
  · next hstream =>
    rw [and_iff_right hstream]
    cases (net.sockets.get k).tcpPcb with
    | none => exact iff_of_true rfl rfl
    | some p =>
      dsimp only
      split
      · exact iff_of_false nofun nofun
      · exact iff_of_false nofun nofun
  · next hstream => exact iff_of_false nofun fun h => hstream h.1

/-- `socket_sendto` asks for the control block. -/
theorem sendto_refused {message : List Byte} (h : NoBlock net k) : Refused net (.sendto k message) := by
  have hnone : streamPcb net k = none := by rw [streamPcb, if_pos h.1, h.2]
  refine ⟨by rw [NetState.reply, sendtoReply, hnone], fun j _ => ?_⟩
  rw [NetState.exec, socketSendto, hnone]

/-- A call that makes a control block faults if it cannot; so it is never refused. -/
theorem make_iff (hfaults : net.reply op = .faults ↔ NoBlock net k ∧ (freeSlot net = none ∨ ptr = 0#32))
    (hfull : TooEarly net op ∨ TableFull net op → NoBlock net k ∧ freeSlot net = none) :
    net.reply op ≠ .faults ∧ (TooEarly net op ∨ TableFull net op → Refused net op) ↔
      (NoBlock net k → freeSlot net ≠ none ∧ ptr ≠ 0#32) := by
  rw [Ne, hfaults]
  constructor
  · rintro ⟨hfault, -⟩ hblock
    exact ⟨fun hslot => hfault ⟨hblock, .inl hslot⟩, fun hptr => hfault ⟨hblock, .inr hptr⟩⟩
  · intro h
    refine ⟨?_, fun hcall => ?_⟩
    · rintro ⟨hblock, hslot | hptr⟩
      · exact (h hblock).1 hslot
      · exact (h hblock).2 hptr
    · obtain ⟨hblock, hslot⟩ := hfull hcall
      exact absurd hslot (h hblock).1

/-- What a step has to do, not fault and refuse the calls that cannot be served, it does if the
control blocks are there. -/
theorem step_refuses_iff (hhalted : net.halted = false) :
    (net.step op).halted = false ∧ Refuses net op ↔ BlockReady net op := by
  by_cases hvalid : op.valid net = true
  -- an operation that is not valid does nothing
  swap
  · have hidle : (net.halted || !op.valid net) = true := by simp [hvalid]
    rw [step_of_idle hidle]
    exact iff_of_true ⟨hhalted, fun h => absurd h hvalid⟩ fun h => absurd h hvalid
  have hstep : net.step op = net.exec op := by
    rw [NetState.step, if_neg (by simp [hhalted, hvalid])]
  unfold Refuses BlockReady
  rw [hstep, halted_iff hhalted, imp_iff_right hvalid, imp_iff_right hvalid]
  cases op with
  | listen k ptr =>
    exact make_iff listenReply_faults fun h => h.resolve_left id
  | connect k addr port ptr =>
    exact make_iff connectReply_faults fun h => h.resolve_left id
  | accept k task =>
    rw [NetState.reply, Ne, acceptReply_faults]
    refine and_iff_left_of_imp fun hblock => ?_
    rintro (hearly | hfull)
    · exact absurd hearly hblock
    · exact absurd hfull id
  | recvfrom k length task =>
    have hk := (NetOp.valid_socket hvalid rfl).1
    constructor
    · rintro ⟨-, hrefuse⟩ hblock
      exact recvfrom_not_refused hk hblock.1 (hrefuse (.inl hblock))
    · intro hblock
      refine ⟨?_, ?_⟩
      · rw [NetState.reply, recvfromReply]
        split <;> rintro ⟨⟩
      · rintro (hearly | hfull)
        · exact absurd hearly hblock
        · exact absurd hfull id
  | sendto k message =>
    refine iff_of_true ⟨?_, ?_⟩ trivial
    · rw [NetState.reply, sendtoReply]
      split
      · rintro ⟨⟩
      · split <;> rintro ⟨⟩
    · rintro (hearly | hfull)
      · exact sendto_refused hearly
      · exact absurd hfull id
  | create domain type protocol =>
    refine iff_of_true ⟨?_, ?_⟩ trivial
    · rw [NetState.reply]
      split <;> rintro ⟨⟩
    · rintro (hearly | hfull)
      · exact absurd hearly id
      · exact absurd hfull id
  | _ =>
    refine iff_of_true ⟨by rintro ⟨⟩, ?_⟩ trivial
    rintro (hearly | hfull)
    · exact absurd hearly id
    · exact absurd hfull id

/-- **Calls**: in a run of calls, segments and datagrams in any order no null control block is used, and
the calls made before there is a control block or when none can be made return -1 and leave their
socket alone, exactly if `socket_accept` and `socket_recvfrom` are called when there is one, and
`socket_listen` and `socket_connect` when there is one or a free slot and memory for one. -/
theorem calls_refused (myIp : Word) (heap : Ptr → Pcb) (ops : List NetOp) :
    Along NetState.step (fun net => net.halted = false) (.init myIp heap) ops ∧
        Steps NetState.step Refuses (.init myIp heap) ops ↔
      Steps NetState.step BlockReady (.init myIp heap) ops :=
  along_and_steps_iff step_refuses_iff rfl

/-- A stream socket is accepted on before it listens. -/
def acceptFirst : List NetOp := [.create 2#32 sockStream 0#32, .bind 0 80#16 0#32, .accept 0 1]

/-- The control block is a null pointer. -/
theorem accept_faults : ¬(Along NetState.step (fun net => net.halted = false)
    (.init 1#32 fun _ => newPcb) acceptFirst ∧
      Steps NetState.step Refuses (.init 1#32 fun _ => newPcb) acceptFirst) := by
  rintro ⟨halong, -⟩
  have hlast := along_iff_take.mp halong 3
  exact absurd hlast (by decide +kernel)

end Calls

end PekerOS.Net
