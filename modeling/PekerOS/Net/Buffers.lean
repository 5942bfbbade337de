import PekerOS.Net.View

/-!
# Socket buffers

What a step does to the buffer of a stream socket. Calls leave buffers and `rcv_nxt` alone, but for
`socket_recvfrom`, which takes bytes from the front; the data of a segment and whole datagrams with
their headers are appended.

## Main definitions

* `NetState.buffer`: the bytes in the buffer of a socket
* `taken`, `accepted`, `deposited`: what a step takes from a buffer, and what TCP and UDP put there

## Main results

* `Steady`, `exec_steady`: calls that leave all buffers alone
* `buffer_step`: what is taken and what remains is what was there and what is appended
* `StreamRings.step`: the buffers of stream sockets stay well formed
-/

namespace PekerOS.Net

def NetState.ring (net : NetState) (k : ℕ) : RingBuffer socketBufferSize Byte := (net.sockets.get k).ring

/-- The bytes in the buffer of a socket, oldest first. -/
def NetState.buffer (net : NetState) (k : ℕ) : List Byte := (net.ring k).contents

/-! ## Calls that leave buffers alone -/

def InTable (net : NetState) (p : Ptr) : Prop := ∃ i, net.tcpPcbs.get i = some p

/-- Buffers are as they were, and so is what the control blocks in the table have received. -/
structure Steady (net net' : NetState) : Prop where
  ring : ∀ k, net'.ring k = net.ring k
  table : ∀ p, InTable net p → InTable net' p
  rcvNxt : ∀ p, InTable net p → (net'.heap p).rcvNxt = (net.heap p).rcvNxt

namespace Steady

variable {net net' net'' : NetState}

theorem refl (net : NetState) : Steady net net := ⟨fun _ => rfl, fun _ => id, fun _ _ => rfl⟩

theorem trans (h : Steady net net') (h' : Steady net' net'') : Steady net net'' where
  ring k := (h'.ring k).trans (h.ring k)
  table p hp := h'.table p (h.table p hp)
  rcvNxt p hp := (h'.rcvNxt p (h.table p hp)).trans (h.rcvNxt p hp)

theorem editPcb (net : NetState) (p : Ptr) (f : Pcb → Pcb)
    (hf : (f (net.heap p)).rcvNxt = (net.heap p).rcvNxt) : Steady net (net.editPcb p f) where
  ring _ := rfl
  table _ := id
  rcvNxt q _ := by
    by_cases hq : q = p
    · subst hq
      rw [editPcb_heap_self, hf]
    · rw [editPcb_heap_ne _ _ _ _ hq]

theorem editSocket (net : NetState) (k : ℕ) (g : Socket → Socket)
    (hg : (g (net.sockets.get k)).ring = (net.sockets.get k).ring) : Steady net (net.editSocket k g) where
  ring j := editSocket_same net k j Socket.ring hg
  table _ := id
  rcvNxt _ _ := rfl

/-- Fields that say nothing of buffers and control blocks. -/
theorem congr (h : Steady net net') (hslots : net''.tcpPcbs = net'.tcpPcbs)
    (hheap : net''.heap = net'.heap) (hsockets : net''.sockets = net'.sockets) : Steady net net'' where
  ring k := by rw [NetState.ring, hsockets, ← h.ring k, NetState.ring]
  table p hp := by rw [InTable, hslots]; exact h.table p hp
  rcvNxt p hp := by rw [hheap, h.rcvNxt p hp]

theorem send (net : NetState) (p : Ptr) (flags : Byte) (data : List Byte) :
    Steady net (tcpSendSegment net p flags data) := by
  rw [tcpSendSegment]
  refine trans ?_ (editPcb _ p _ rfl)
  exact (refl net).congr rfl rfl rfl

theorem wake (net : NetState) (k : ℕ) : Steady net (net.wake k) := by
  rw [NetState.wake]
  split
  · exact refl net
  · exact (editSocket net k (fun s => { s with waitingTask := none }) rfl).congr rfl rfl rfl

theorem sleepOn (net : NetState) (k task : ℕ) : Steady net (Net.sleepOn net k task) :=
  (editSocket net k (fun s => { s with waitingTask := some task }) rfl).congr rfl rfl rfl

/-- A new control block is not in the table yet. -/
theorem ensurePcb {k : ℕ} {ptr p : Ptr} (hfresh : ∀ j, net.tcpPcbs.get j ≠ some ptr)
    (h : Net.ensurePcb net k ptr = some (net', p)) : Steady net net' := by
  rw [Net.ensurePcb] at h
  split at h
  · simp only [Option.some_inj, Prod.mk.injEq] at h
    exact h.1 ▸ refl net
  · obtain ⟨net₁, hnew, h⟩ := Option.map_eq_some_iff.mp h
    simp only [Prod.mk.injEq] at h
    obtain ⟨rfl, rfl⟩ := h
    rw [tcpNewPcb] at hnew
    split at hnew
    · cases hnew
    · obtain ⟨i, hi, rfl⟩ := Option.map_eq_some_iff.mp hnew
      have hfree : net.tcpPcbs.get i = none := by simpa using (List.find?_range_eq_some.mp hi).1
      refine trans ?_ ((editSocket _ k _ rfl).trans (editPcb _ ptr _ rfl))
      refine ⟨fun _ => rfl, fun q hq => ?_, fun q hq => ?_⟩
      · obtain ⟨j, hj⟩ := hq
        have hji : j ≠ i := by
          rintro rfl
          exact absurd (hfree.symm.trans hj) (by simp)
        exact ⟨j, (Table.get_set_ne _ hji _).trans hj⟩
      · obtain ⟨j, hj⟩ := hq
        have hne : q ≠ ptr := by
          rintro rfl
          exact hfresh j hj
        exact congrArg Pcb.rcvNxt (Function.update_of_ne hne _ _)

theorem close (net : NetState) (k : ℕ) : Steady net (socketClose net k) := by
  rw [socketClose]
  refine trans ?_ (editSocket _ k _ rfl)
  split
  · exact refl net
  · rw [tcpClose]
    split
    · exact (send net _ _ _).trans (editPcb _ _ _ rfl)
    · exact (send net _ _ _).trans (editPcb _ _ _ rfl)
    · exact editPcb _ _ _ rfl

end Steady

/-- A call that neither makes a socket nor reads from one. -/
def NetOp.LeavesBuffers : NetOp → Prop
  | .create _ _ _ => False
  | .recvfrom _ _ _ => False
  | .packet _ => False
  | .datagram _ => False
  | _ => True

theorem exec_steady {net : NetState} {op : NetOp} (hvalid : op.valid net) (hop : op.LeavesBuffers) :
    Steady net (net.exec op) := by
  cases op with
  | bind k port addr =>
    rw [NetState.exec, socketBind]
    split
    · exact .editSocket net k _ rfl
    · exact (Steady.editSocket net k _ rfl).trans (.editPcb _ _ _ rfl)
  | listen k ptr =>
    rw [NetState.exec, socketListen]
    split
    · split
      · exact (Steady.refl net).congr rfl rfl rfl
      · next hensure =>
        exact (Steady.ensurePcb (NetOp.valid_ptr hvalid rfl) hensure).trans (.editPcb _ _ _ rfl)
    · exact .refl net
  | connect k addr port ptr =>
    rw [NetState.exec, socketConnect]
    dsimp only
    have hpeer := Steady.editSocket net k (fun s => { s with remoteAddr := addr, remotePort := port }) rfl
    split
    · split
      · exact hpeer.congr rfl rfl rfl
      · next net' p hensure =>
        -- the counter of ports is no part of what is kept steady
        have hport : Steady net (tcpGetFreePort net').1 :=
          (hpeer.trans (.ensurePcb (NetOp.valid_ptr hvalid rfl) hensure)).congr rfl rfl rfl
        have hpcb := Steady.editPcb (tcpGetFreePort net').1 p
          (fun pcb =>
            { pcb with
              localPort := (tcpGetFreePort net').2
              localIp := (tcpGetFreePort net').1.myIp
              remotePort := port
              remoteIp := addr }) rfl
        exact (hport.trans hpcb).congr rfl rfl rfl
    · exact hpeer
  | connectSyn k task =>
    rw [NetState.exec, socketConnectSyn]
    split
    · next p _ _ =>
      have hsyn := Steady.editPcb net p (fun pcb => { pcb with state := .synSent, sndNxt := 100#32 }) rfl
      have hwait := hsyn.trans ((Steady.send _ p tcpSyn []).trans (.sleepOn _ k task))
      exact hwait.congr rfl rfl rfl
    · exact .refl net
  | accept k task =>
    rw [NetState.exec, socketAccept]
    split
    · split
      · exact (Steady.refl net).congr rfl rfl rfl
      · split
        · exact .refl net
        · exact .sleepOn net k task
    · exact .refl net
  | sendto k message =>
    rw [NetState.exec, socketSendto]
    split
    · exact .refl net
    · split
      · exact .send net _ _ _
      · exact .refl net
  | close k => exact .close net k
  | create _ _ _ => exact absurd hop id
  | recvfrom _ _ _ => exact absurd hop id
  | packet _ => exact absurd hop id
  | datagram _ => exact absurd hop id

/-! ## What a step takes and appends -/

/-- The bytes that a step returns from the buffer of socket `k`. -/
def taken (net : NetState) (op : NetOp) (k : ℕ) : List Byte :=
  match op with
  | .recvfrom j length task =>
    if net.halted || !op.valid net then []
    else if j = k then (socketRecvfrom net k length task).2.getD [] else []
  | _ => []

/-- The control block that takes the data of a packet: one with an established connection. -/
def dataPcb (net : NetState) (pkt : Packet) : Option Ptr :=
  match tcpLookup net pkt with
  | none => none
  | some i =>
    (net.tcpPcbs.get i).filter fun p =>
      (net.heap p).state = .established ∧ hasFlag pkt.flags tcpFin = false ∧ pkt.headerLen < pkt.len.toNat

/-- The socket that `tcp_input` accepts the data of a packet for: that of the control block, if its
buffer has room. -/
def acceptingSocket (net : NetState) (pkt : Packet) : Option ℕ :=
  match dataPcb net pkt with
  | none => none
  | some p =>
    (net.heap p).socket.filter fun k => ((net.ring k).len + pkt.dataLen) % 2 ^ 32 ≤ socketBufferSize

/-- The payload that a step accepts for socket `k`. -/
def accepted (net : NetState) (op : NetOp) (k : ℕ) : List Byte :=
  match op with
  | .packet pkt => if net.halted then [] else if acceptingSocket net pkt = some k then pkt.data else []
  | _ => []

/-- A datagram is stored in the buffer of socket `k`. -/
def Deposits (net : NetState) (d : Datagram) (k : ℕ) : Prop :=
  udpTarget net d.destPort = some k ∧
    ((net.ring k).len + (8 + d.data.length)) % 2 ^ 32 ≤ socketBufferSize

instance (net : NetState) (d : Datagram) (k : ℕ) : Decidable (Deposits net d k) :=
  inferInstanceAs (Decidable (_ ∧ _))

/-- The datagram that a step stores in the buffer of socket `k`, with its header. -/
def deposited (net : NetState) (op : NetOp) (k : ℕ) : List Byte :=
  match op with
  | .datagram d => if net.halted then [] else if Deposits net d k then d.bytes else []
  | _ => []

theorem Datagram.length_bytes (d : Datagram) : d.bytes.length = 8 + d.data.length := by
  simp [Datagram.bytes]
  omega

section Ring

variable (net : NetState) (p : Ptr) (i j k : ℕ) (pkt : Packet)

@[simp] theorem ring_editPcb (f : Pcb → Pcb) : (net.editPcb p f).ring k = net.ring k := rfl

@[simp] theorem ring_send (flags : Byte) (data : List Byte) :
    (tcpSendSegment net p flags data).ring k = net.ring k := rfl

@[simp] theorem ring_ackNext (st : TcpState) (flags : Byte) :
    (ackNext net p pkt st flags).ring k = net.ring k := rfl

@[simp] theorem ring_release : (releasePcb net i p).ring k = net.ring k := rfl

@[simp] theorem ring_wake : (net.wake j).ring k = net.ring k := (Steady.wake net j).ring k

@[simp] theorem ring_wakeSocket : (wakeSocket net p).ring k = net.ring k := by
  rw [wakeSocket]
  split
  · rfl
  · exact ring_wake _ _ _

theorem ring_editSocket_self (r : RingBuffer socketBufferSize Byte) (hk : k < 32) :
    (net.editSocket k fun s => { s with ring := r }).ring k = r := by
  rw [NetState.ring, editSocket_get_self _ _ _ hk]

theorem ring_editSocket_ne (g : Socket → Socket) (h : k ≠ j) :
    (net.editSocket j g).ring k = net.ring k := by
  rw [NetState.ring, editSocket_get_ne _ _ _ _ h]
  rfl

/-- A segment without data for an established connection leaves all buffers alone. -/
theorem tcpProcess_ring (h : ¬((net.heap p).state = .established ∧ hasFlag pkt.flags tcpFin = false ∧
    pkt.headerLen < pkt.len.toNat)) : (tcpProcess net i p pkt).ring k = net.ring k := by
  rw [tcpProcess]
  split
  · split <;> simp
  · split <;> simp
  · split <;> simp
  · next hst =>
    split
    · simp
    · next hfin =>
      rw [if_neg fun hlen => h ⟨hst, by simpa using hfin, hlen⟩]
  · dsimp only
    split <;> simp
  · split <;> simp
  · split <;> simp
  all_goals rfl

theorem tcpProcess_data (h : (net.heap p).state = .established ∧ hasFlag pkt.flags tcpFin = false ∧
    pkt.headerLen < pkt.len.toNat) : tcpProcess net i p pkt = acceptData net p pkt := by
  rw [tcpProcess, h.1]
  dsimp only
  rw [if_neg (by simp [h.2.1]), if_pos h.2.2]

theorem acceptData_ring (hk : k < 32) (hsocket : (net.heap p).socket = some k)
    (hroom : ((net.ring k).len + pkt.dataLen) % 2 ^ 32 ≤ socketBufferSize) :
    (acceptData net p pkt).ring k =
      { (net.ring k).stores pkt.data with len := ((net.ring k).len + pkt.dataLen) % 2 ^ 32 } := by
  rw [NetState.ring] at hroom
  rw [acceptData, hsocket]
  dsimp only
  rw [if_pos hroom, ring_wake, ring_send, ring_editPcb]
  exact ring_editSocket_self _ _ _ hk

theorem acceptData_ring_ne (h : ∀ j, (net.heap p).socket = some j →
    ((net.ring j).len + pkt.dataLen) % 2 ^ 32 ≤ socketBufferSize → k ≠ j) :
    (acceptData net p pkt).ring k = net.ring k := by
  rw [acceptData]
  split
  · rfl
  · next j hj =>
    dsimp only
    split
    · next hroom =>
      rw [ring_wake, ring_send, ring_editPcb]
      exact ring_editSocket_ne _ _ _ _ (h j hj hroom)
    · rfl

theorem dispatch_ring {d : Datagram} (hk : k < 32) (h : Deposits net d k) :
    (socketDispatchUdp net d).ring k =
      { (net.ring k).stores d.bytes with len := ((net.ring k).len + (8 + d.data.length)) % 2 ^ 32 } := by
  rw [socketDispatchUdp, h.1]
  dsimp only
  have hroom := h.2
  rw [NetState.ring] at hroom
  rw [if_pos hroom, ring_wake]
  exact ring_editSocket_self _ _ _ hk

theorem dispatch_ring_ne {d : Datagram} (h : ¬Deposits net d k) :
    (socketDispatchUdp net d).ring k = net.ring k := by
  rw [socketDispatchUdp]
  split
  · rfl
  · next j hj =>
    dsimp only
    split
    · next hroom =>
      have hne : k ≠ j := by
        rintro rfl
        exact h ⟨hj, hroom⟩
      rw [ring_wake]
      exact ring_editSocket_ne _ _ _ _ hne
    · rfl

end Ring

section Contents

variable {net : NetState} {op : NetOp} {k : ℕ}

/-- Bytes that fit are appended. -/
theorem contents_append {r : RingBuffer socketBufferSize Byte} {as : List Byte} (hok : r.Ok)
    (hshort : as.length < 2 ^ 17) (hroom : (r.len + as.length) % 2 ^ 32 ≤ socketBufferSize) :
    { r.stores as with len := (r.len + as.length) % 2 ^ 32 }.contents = r.contents ++ as ∧
      RingBuffer.Ok { r.stores as with len := (r.len + as.length) % 2 ^ 32 } := by
  have hlen : r.len ≤ 4096 := hok.len_le
  have hmod : (r.len + as.length) % 2 ^ 32 = r.len + as.length := Nat.mod_eq_of_lt (by omega)
  rw [hmod] at hroom ⊢
  exact RingBuffer.contents_stores hok hroom

theorem Packet.dataLen_lt (pkt : Packet) : pkt.dataLen < 2 ^ 16 :=
  (Nat.sub_le _ _).trans_lt pkt.len.isLt

theorem acceptingSocket_iff {i : ℕ} {p : Ptr} {pkt : Packet} (hlookup : tcpLookup net pkt = some i)
    (hslot : net.tcpPcbs.get i = some p) :
    acceptingSocket net pkt = some k ↔
      ((net.heap p).state = .established ∧ hasFlag pkt.flags tcpFin = false ∧
        pkt.headerLen < pkt.len.toNat) ∧
      (net.heap p).socket = some k ∧
        ((net.ring k).len + pkt.dataLen) % 2 ^ 32 ≤ socketBufferSize := by
  simp only [acceptingSocket, dataPcb, hlookup, hslot, Option.filter_some]
  by_cases hdata : (net.heap p).state = .established ∧ hasFlag pkt.flags tcpFin = false ∧
      pkt.headerLen < pkt.len.toNat
  · rw [if_pos (decide_eq_true hdata)]
    simp [hdata, Option.filter_eq_some_iff]
  · rw [if_neg (by simpa using hdata)]
    simp [hdata]

/-- A segment leaves the buffers of all other sockets alone. -/
theorem tcpProcess_ring_ne {i : ℕ} {p : Ptr} {pkt : Packet} (hlookup : tcpLookup net pkt = some i)
    (hslot : net.tcpPcbs.get i = some p) (hnot : acceptingSocket net pkt ≠ some k) :
    (tcpProcess net i p pkt).ring k = net.ring k := by
  by_cases hdata : (net.heap p).state = .established ∧ hasFlag pkt.flags tcpFin = false ∧
      pkt.headerLen < pkt.len.toNat
  · rw [tcpProcess_data _ _ _ _ hdata, acceptData_ring_ne]
    rintro j hj hroom rfl
    exact hnot ((acceptingSocket_iff hlookup hslot).mpr ⟨hdata, hj, hroom⟩)
  · exact tcpProcess_ring _ _ _ _ _ hdata

/-- The data of a segment goes to the accepting socket. -/
theorem buffer_packet {i : ℕ} {p : Ptr} {pkt : Packet} (hk : k < 32) (hok : (net.ring k).Ok)
    (hlookup : tcpLookup net pkt = some i) (hslot : net.tcpPcbs.get i = some p) :
    (tcpProcess net i p pkt).buffer k =
        net.buffer k ++ (if acceptingSocket net pkt = some k then pkt.data else []) ∧
      ((tcpProcess net i p pkt).ring k).Ok := by
  have hiff := acceptingSocket_iff (k := k) hlookup hslot
  rw [NetState.buffer, NetState.buffer]
  split
  · next haccept =>
    obtain ⟨hdata, hsocket, hroom⟩ := hiff.mp haccept
    rw [tcpProcess_data _ _ _ _ hdata, acceptData_ring _ _ _ _ hk hsocket hroom, ← pkt.length_data]
    refine contents_append hok ?_ (pkt.length_data ▸ hroom)
    have hlt := pkt.dataLen_lt
    rw [pkt.length_data]
    omega
  · next hnot =>
    rw [tcpProcess_ring_ne hlookup hslot hnot, List.append_nil]
    exact ⟨rfl, hok⟩

/-- A stream is read from the front of the buffer. -/
theorem buffer_recvfrom {length : Word} {task : ℕ} (hk : k < 32)
    (hstream : (net.sockets.get k).type = sockStream) (hok : (net.ring k).Ok) :
    (socketRecvfrom net k length task).2.getD [] ++ (socketRecvfrom net k length task).1.buffer k =
        net.buffer k ∧
      ((socketRecvfrom net k length task).1.ring k).Ok := by
  rw [socketRecvfrom]
  dsimp only
  split
  · rw [NetState.buffer, (Steady.sleepOn net k task).ring k]
    exact ⟨rfl, hok⟩
  · rw [if_neg (by rw [hstream]; decide)]
    dsimp only
    have hring := ring_editSocket_self net k
      { ((net.ring k).loads (min length.toNat (net.ring k).len)).1 with
        len := (net.ring k).len - min length.toNat (net.ring k).len } hk
    obtain ⟨hread, hrest, hok'⟩ := RingBuffer.contents_loads hok (Nat.min_le_right length.toNat _)
    rw [← hring] at hrest hok'
    refine ⟨?_, hok'⟩
    rw [NetState.buffer, NetState.buffer, Option.getD_some, ← List.take_append_drop _ (net.ring k).contents]
    exact congrArg₂ (· ++ ·) hread hrest

theorem recvfrom_ring_ne {j : ℕ} {length : Word} {task : ℕ} (h : k ≠ j) :
    (socketRecvfrom net j length task).1.ring k = net.ring k := by
  rw [socketRecvfrom]
  dsimp only
  split
  · exact (Steady.sleepOn net j task).ring k
  · split
    · exact ring_editSocket_ne _ _ _ _ h
    · exact ring_editSocket_ne _ _ _ _ h

/-- Nothing is taken or appended when nothing happens; packets and datagrams can always come. -/
theorem idle_quiet (hidle : (net.halted || !op.valid net) = true) :
    taken net op k = [] ∧ accepted net op k = [] ∧ deposited net op k = [] := by
  cases op with
  | recvfrom j length task => exact ⟨if_pos hidle, rfl, rfl⟩
  | packet pkt =>
    have hhalted : net.halted = true := by simpa [NetOp.valid, NetOp.socket?, NetOp.ptr?] using hidle
    exact ⟨rfl, if_pos hhalted, rfl⟩
  | datagram d =>
    have hhalted : net.halted = true := by simpa [NetOp.valid, NetOp.socket?, NetOp.ptr?] using hidle
    exact ⟨rfl, rfl, if_pos hhalted⟩
  | _ => exact ⟨rfl, rfl, rfl⟩

theorem leavesBuffers_quiet (hop : op.LeavesBuffers) :
    taken net op k = [] ∧ accepted net op k = [] ∧ deposited net op k = [] := by
  cases op <;> first | exact ⟨rfl, rfl, rfl⟩ | exact absurd hop id

/-- What a step takes from the buffer of a stream socket and what remains is what was there before and
what is appended. -/
theorem buffer_step (huse : net.view.inUse k = true) (hstream : (net.sockets.get k).type = sockStream)
    (hok : (net.ring k).Ok) :
    taken net op k ++ (net.step op).buffer k =
        net.buffer k ++ accepted net op k ++ deposited net op k ∧
      ((net.step op).ring k).Ok := by
  have hk := inUse_lt huse
  -- a step that leaves the ring alone and puts nothing in
  have hsame (hring : (net.step op).ring k = net.ring k)
      (hquiet : taken net op k = [] ∧ accepted net op k = [] ∧ deposited net op k = []) :
      taken net op k ++ (net.step op).buffer k =
          net.buffer k ++ accepted net op k ++ deposited net op k ∧
        ((net.step op).ring k).Ok := by
    rw [hquiet.1, hquiet.2.1, hquiet.2.2, NetState.buffer, hring]
    exact ⟨by simp [NetState.buffer], hok⟩
  by_cases hidle : (net.halted || !op.valid net) = true
  · exact hsame (by rw [step_of_idle hidle]) (idle_quiet hidle)
  have hstep : net.step op = net.exec op := by rw [NetState.step, if_neg hidle]
  obtain ⟨hhalted, hvalid⟩ : ¬net.halted = true ∧ op.valid net = true := by simpa using hidle
  by_cases hop : op.LeavesBuffers
  · exact hsame (by rw [hstep, (exec_steady hvalid hop).ring k]) (leavesBuffers_quiet hop)
  rw [hstep] at hsame ⊢
  cases op with
  | create domain type protocol =>
    refine hsame ?_ ⟨rfl, rfl, rfl⟩
    rw [NetState.exec, socketCreate]
    cases hfree : freeSocket net with
    | none => rfl
    | some j =>
      -- this socket is in use, so it is not the one that is taken
      have hne : k ≠ j := by
        rintro rfl
        have hunused := (List.find?_range_eq_some.mp hfree).1
        rw [show (net.sockets.get k).inUse = true from huse] at hunused
        cases hunused
      exact ring_editSocket_ne _ _ _ _ hne
  | recvfrom j length task =>
    -- only a read of this very socket takes bytes out
    by_cases hj : j = k
    · subst hj
      obtain ⟨hbuffer, hok'⟩ := buffer_recvfrom hk hstream hok
      have htaken : taken net (.recvfrom j length task) j =
          (socketRecvfrom net j length task).2.getD [] := by
        rw [taken, if_neg hidle, if_pos rfl]
      rw [htaken]
      exact ⟨by simpa [accepted, deposited, NetState.exec] using hbuffer, hok'⟩
    · exact hsame (recvfrom_ring_ne (Ne.symm hj)) ⟨by rw [taken, if_neg hidle, if_neg hj], rfl, rfl⟩
  | packet pkt =>
    cases hlookup : tcpLookup net pkt with
    | none =>
      refine hsame (by rw [NetState.exec, tcpInput, hlookup]) ⟨rfl, ?_, rfl⟩
      rw [accepted, if_neg hhalted]
      exact if_neg (by simp [acceptingSocket, dataPcb, hlookup])
    | some i =>
      obtain ⟨-, p, hslot⟩ := tcpLookup_slot hlookup
      obtain ⟨hbuffer, hok'⟩ := buffer_packet hk hok hlookup hslot
      rw [NetState.exec, tcpInput_eq hlookup hslot, accepted, if_neg hhalted]
      exact ⟨by simpa [taken, deposited] using hbuffer, hok'⟩
  | datagram d =>
    -- the whole datagram fits behind what is buffered, or it is dropped
    by_cases hdep : Deposits net d k
    · have hshort : d.bytes.length < 2 ^ 17 := by
        have := d.short
        rw [d.length_bytes]
        omega
      have hstored := contents_append hok hshort (d.length_bytes ▸ hdep.2)
      rw [d.length_bytes, ← dispatch_ring net k hk hdep] at hstored
      rw [deposited, if_neg hhalted, if_pos hdep]
      exact ⟨by simpa [taken, accepted, NetState.exec, NetState.buffer] using hstored.1, hstored.2⟩
    · refine hsame (dispatch_ring_ne net k hdep) ⟨rfl, rfl, ?_⟩
      rw [deposited, if_neg hhalted, if_neg hdep]
  | _ => exact absurd trivial hop

end Contents

/-! ## All stream sockets -/

/-- The buffers of the stream sockets in use are well formed. -/
def StreamRings (net : NetState) : Prop :=
  ∀ k, net.view.inUse k = true → net.view.stream k = true → (net.ring k).Ok

section Sockets

variable {net : NetState} {op : NetOp} {k : ℕ}

/-- The socket that a step makes. -/
def NetState.created (net : NetState) : NetOp → Option ℕ
  | .create _ _ _ => if net.halted then none else freeSocket net
  | _ => none

/-- A stream socket in use after a step was one before it, or is new. -/
theorem stream_before (huse : (net.step op).view.inUse k = true)
    (hstream : (net.step op).view.stream k = true) (hnew : net.created op ≠ some k) :
    net.view.inUse k = true ∧ net.view.stream k = true := by
  by_cases hidle : (net.halted || !op.valid net) = true
  · rw [step_of_idle hidle] at huse hstream
    exact ⟨huse, hstream⟩
  have hhalted : ¬net.halted = true := fun h => hidle (by rw [h, Bool.true_or])
  have hview := step_view net op
  generalize (net.step op).view = v' at hview huse hstream
  cases hview with
  | @create _ _ _ j hfree hj hunused =>
    -- the socket asked about is not the one made
    have hne : k ≠ j := by
      rintro rfl
      exact hnew (by rw [NetState.created, if_neg hhalted, hfree])
    exact ⟨(Function.update_of_ne hne _ _).symm.trans huse,
      (Function.update_of_ne hne _ _).symm.trans hstream⟩
  | @close j _ _ =>
    rw [View.close_inUse] at huse
    rw [View.close_stream] at hstream
    -- nor the one closed, which is not in use any more
    have hne : k ≠ j := by
      rintro rfl
      rw [Function.update_self] at huse
      cases huse
    exact ⟨(Function.update_of_ne hne _ _).symm.trans huse, hstream⟩
  | @packet pkt i p _ _ hi hslot =>
    obtain ⟨r, w, hsocket⟩ := (tcpProcess_touches net i p pkt).own k
    simp only [NetState.view, hsocket] at huse hstream
    exact ⟨huse, hstream⟩
  | _ => exact ⟨huse, hstream⟩

/-- A new socket has an empty buffer. -/
theorem created_ring (h : net.created op = some k) :
    (net.step op).buffer k = [] ∧ ((net.step op).ring k).Ok := by
  cases op with
  | create domain type protocol =>
    rw [NetState.created] at h
    split at h
    · cases h
    · next hhalted =>
      have hk := List.mem_range.mp (List.mem_of_find?_eq_some h)
      have hidle : ¬(net.halted || !NetOp.valid net (.create domain type protocol)) = true := by
        simpa [NetOp.valid, NetOp.socket?, NetOp.ptr?] using hhalted
      have hring : (net.step (.create domain type protocol)).ring k =
          { net.ring k with head := 0, tail := 0, len := 0 } := by
        rw [NetState.step, if_neg hidle, NetState.exec, socketCreate, h]
        dsimp only [Option.map_some]
        rw [NetState.ring, editSocket_get_self _ _ _ hk]
        rfl
      rw [NetState.buffer, hring]
      exact ⟨rfl, ⟨Nat.zero_le _, show 0 < 4096 by decide, rfl⟩⟩
  | _ => cases h

theorem StreamRings.step (h : StreamRings net) : StreamRings (net.step op) := by
  intro k huse hstream
  by_cases hnew : net.created op = some k
  · exact (created_ring hnew).2
  · obtain ⟨huse', hstream'⟩ := stream_before huse hstream hnew
    exact (buffer_step huse' (by simpa [NetState.view] using hstream') (h k huse' hstream')).2

theorem init_streamRings (myIp : Word) (heap : Ptr → Pcb) : StreamRings (.init myIp heap) := by
  intro k huse
  exact absurd ((init_inUse myIp heap k).symm.trans huse) nofun

end Sockets

end PekerOS.Net
