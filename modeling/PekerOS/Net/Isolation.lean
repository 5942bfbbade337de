import PekerOS.Net.Buffers

/-!
# Streams and datagrams

What `socket_recvfrom` returns from a stream socket, in runs with datagrams. A datagram goes to the
first socket on its port, of whatever type, so a stream socket that is not bound gets the datagrams to
port 0. As long as none is stored for a stream socket, a run cannot be told from the same run without
datagrams by reading from stream sockets.

## Main definitions

* `Trace`: a state, with what was accepted for each socket and returned from it since it was made
* `Similar`: states that stream sockets do not tell apart
* `streamReads`: the results of the reads from stream sockets in a run

## Main results

* `Similar.exec`: a call or a segment keeps states similar
* `streams_isolated`: streams carry TCP data exactly when no datagram is stored for a stream socket
-/

namespace PekerOS.Net

/-! ## States that stream sockets do not tell apart -/

/-- Control blocks that differ in `rcv_nxt` at most. -/
def SamePcb (a b : Pcb) : Prop := { a with rcvNxt := b.rcvNxt } = b

/-- Well-formed buffers with the same bytes in them, wherever they lie. -/
def SameBytes (r r' : RingBuffer socketBufferSize Byte) : Prop := r.Ok ∧ r'.Ok ∧ r.contents = r'.contents

/-- Sockets that differ in the buffer and the waiting task at most; the buffers of streams hold the same
bytes. -/
def SameSocket (s t : Socket) : Prop :=
  { s with ring := t.ring, waitingTask := t.waitingTask } = t ∧
    (t.type = sockStream → SameBytes s.ring t.ring)

/-- States that look the same through stream sockets. A state looks like itself if the buffers of its
stream sockets are well formed. -/
structure Similar (net net' : NetState) : Prop where
  slots : net.tcpPcbs = net'.tcpPcbs
  pcb : ∀ p, SamePcb (net.heap p) (net'.heap p)
  socket : ∀ k, SameSocket (net.sockets.get k) (net'.sockets.get k)
  nextPort : net.nextPort = net'.nextPort
  myIp : net.myIp = net'.myIp
  connecting : net.connecting = net'.connecting
  halted : net.halted = net'.halted

section Same

variable {a b c : Pcb} {r r' r'' : RingBuffer socketBufferSize Byte} {s t u : Socket}

theorem SamePcb.refl (a : Pcb) : SamePcb a a := rfl

theorem SamePcb.symm (h : SamePcb a b) : SamePcb b a := by
  rw [SamePcb] at h ⊢
  rw [← h]

theorem SamePcb.trans (h : SamePcb a b) (h' : SamePcb b c) : SamePcb a c := by
  rw [SamePcb] at h h' ⊢
  rw [← h', ← h]

theorem SamePcb.rcvNxt (a : Pcb) (n : Word) : SamePcb a { a with rcvNxt := n } := rfl

theorem SameBytes.symm (h : SameBytes r r') : SameBytes r' r := ⟨h.2.1, h.1, h.2.2.symm⟩

theorem SameBytes.trans (h : SameBytes r r') (h' : SameBytes r' r'') : SameBytes r r'' :=
  ⟨h.1, h'.2.1, h.2.2.trans h'.2.2⟩

theorem SameBytes.len (h : SameBytes r r') : r.len = r'.len := by
  rw [← r.length_contents, ← r'.length_contents, h.2.2]

/-- The same bytes are appended. -/
theorem SameBytes.append (h : SameBytes r r') {as : List Byte} (hshort : as.length < 2 ^ 17)
    (hroom : (r.len + as.length) % 2 ^ 32 ≤ socketBufferSize) :
    SameBytes { r.stores as with len := (r.len + as.length) % 2 ^ 32 }
      { r'.stores as with len := (r'.len + as.length) % 2 ^ 32 } := by
  obtain ⟨hcontents, hok⟩ := contents_append h.1 hshort hroom
  obtain ⟨hcontents', hok'⟩ := contents_append h.2.1 hshort (h.len ▸ hroom)
  exact ⟨hok, hok', by rw [hcontents, hcontents', h.2.2]⟩

theorem SameSocket.type (h : SameSocket s t) : s.type = t.type := by rw [← h.1]

theorem SameSocket.inUse (h : SameSocket s t) : s.inUse = t.inUse := by rw [← h.1]

theorem SameSocket.tcpPcb (h : SameSocket s t) : s.tcpPcb = t.tcpPcb := by rw [← h.1]

theorem SameSocket.symm (h : SameSocket s t) : SameSocket t s := by
  refine ⟨?_, fun hs => (h.2 (h.type ▸ hs)).symm⟩
  rw [← h.1]

theorem SameSocket.trans (h : SameSocket s t) (h' : SameSocket t u) : SameSocket s u := by
  refine ⟨?_, fun hu => (h.2 (h'.type.trans hu)).trans (h'.2 hu)⟩
  rw [← h'.1, ← h.1]

/-- An assignment to other fields. -/
theorem SameSocket.map (h : SameSocket s t) (f : Socket → Socket)
    (hf : ∀ s r w, f { s with ring := r, waitingTask := w } =
      { f s with ring := r, waitingTask := w, type := s.type }) : SameSocket (f s) (f t) := by
  have hs := hf s s.ring s.waitingTask
  have ht := hf s t.ring t.waitingTask
  rw [h.1] at ht
  rw [SameSocket, ht]
  refine ⟨?_, fun htype => ?_⟩
  · rw [show f s = { f s with ring := s.ring, waitingTask := s.waitingTask, type := s.type } from hs]
  · rw [show f s = { f s with ring := s.ring, waitingTask := s.waitingTask, type := s.type } from hs]
    exact h.2 (h.type ▸ htype)

theorem SameSocket.setWaiting (h : SameSocket s t) (w w' : Option ℕ) :
    SameSocket { s with waitingTask := w } { t with waitingTask := w' } := by
  refine ⟨?_, h.2⟩
  rw [← h.1]

theorem SameSocket.setRing (h : SameSocket s t) (hr : t.type = sockStream → SameBytes r r') :
    SameSocket { s with ring := r } { t with ring := r' } := by
  refine ⟨?_, hr⟩
  rw [← h.1]

end Same

namespace Similar

variable {net net' net'' : NetState}

theorem symm (h : Similar net net') : Similar net' net :=
  ⟨h.slots.symm, fun p => (h.pcb p).symm, fun k => (h.socket k).symm, h.nextPort.symm, h.myIp.symm,
    h.connecting.symm, h.halted.symm⟩

theorem trans (h : Similar net net') (h' : Similar net' net'') : Similar net net'' :=
  ⟨h.slots.trans h'.slots, fun p => (h.pcb p).trans (h'.pcb p),
    fun k => (h.socket k).trans (h'.socket k), h.nextPort.trans h'.nextPort, h.myIp.trans h'.myIp,
    h.connecting.trans h'.connecting, h.halted.trans h'.halted⟩

theorem editPcb (h : Similar net net') (p : Ptr) {f g : Pcb → Pcb}
    (hfg : SamePcb (f (net.heap p)) (g (net'.heap p))) :
    Similar (net.editPcb p f) (net'.editPcb p g) where
  slots := h.slots
  pcb q := by
    by_cases hq : q = p
    · subst hq
      rwa [editPcb_heap_self, editPcb_heap_self]
    · rw [editPcb_heap_ne _ _ _ _ hq, editPcb_heap_ne _ _ _ _ hq]
      exact h.pcb q
  socket := h.socket
  nextPort := h.nextPort
  myIp := h.myIp
  connecting := h.connecting
  halted := h.halted

/-- An assignment to a control block that does not look at `rcv_nxt`. -/
theorem mapPcb (h : Similar net net') (p : Ptr) (f : Pcb → Pcb)
    (hf : ∀ a n, SamePcb (f a) (f { a with rcvNxt := n })) :
    Similar (net.editPcb p f) (net'.editPcb p f) := by
  refine h.editPcb p ?_
  have hp := h.pcb p
  rw [SamePcb] at hp
  exact hp ▸ hf _ _

theorem editSocket (h : Similar net net') (k : ℕ) {f g : Socket → Socket}
    (hfg : SameSocket (f (net.sockets.get k)) (g (net'.sockets.get k))) :
    Similar (net.editSocket k f) (net'.editSocket k g) where
  slots := h.slots
  pcb := h.pcb
  socket j := by
    by_cases hj : j = k
    · subst hj
      by_cases hlt : j < 32
      · rwa [editSocket_get_self _ _ _ hlt, editSocket_get_self _ _ _ hlt]
      · have hsame := h.socket j
        rwa [Table.get_of_le _ (Nat.le_of_not_lt hlt), Table.get_of_le _ (Nat.le_of_not_lt hlt)] at hsame ⊢
    · rw [editSocket_get_ne _ _ _ _ hj, editSocket_get_ne _ _ _ _ hj]
      exact h.socket j
  nextPort := h.nextPort
  myIp := h.myIp
  connecting := h.connecting
  halted := h.halted

/-- An assignment to a socket that looks at neither the buffer nor the waiting task. -/
theorem mapSocket (h : Similar net net') (k : ℕ) (f : Socket → Socket)
    (hf : ∀ s r w, f { s with ring := r, waitingTask := w } =
      { f s with ring := r, waitingTask := w, type := s.type }) :
    Similar (net.editSocket k f) (net'.editSocket k f) :=
  h.editSocket k ((h.socket k).map f hf)

/-- A change of a control block on one side, which does not show. -/
theorem editPcb_right (h : Similar net net') (p : Ptr) (g : Pcb → Pcb)
    (hg : SamePcb (net'.heap p) (g (net'.heap p))) : Similar net (net'.editPcb p g) := by
  have hid : net.editPcb p id = net := by rw [NetState.editPcb, id, Function.update_eq_self]
  exact hid ▸ h.editPcb p ((h.pcb p).trans hg)

/-- A change of a socket on one side, which does not show. -/
theorem editSocket_right (h : Similar net net') (k : ℕ) (g : Socket → Socket)
    (hg : SameSocket (net.sockets.get k) (g (net'.sockets.get k))) :
    Similar net (net'.editSocket k g) := by
  have hid : net.editSocket k id = net := by rw [NetState.editSocket, id, Table.set_get]
  have hsame := h.editSocket k (f := id) hg
  rwa [hid] at hsame

/-- Tasks and sent segments do not count. -/
theorem congr (h : Similar net net') (tasks tasks' : ℕ → TaskState) (sent sent' : List Sent) :
    Similar { net with tasks := tasks, sent := sent } { net' with tasks := tasks', sent := sent' } :=
  ⟨h.slots, h.pcb, h.socket, h.nextPort, h.myIp, h.connecting, h.halted⟩

theorem send (h : Similar net net') (p : Ptr) (flags : Byte) (data : List Byte) :
    Similar (tcpSendSegment net p flags data) (tcpSendSegment net' p flags data) := by
  rw [tcpSendSegment, tcpSendSegment]
  refine mapPcb (h.congr net.tasks net'.tasks _ _) p _ ?_
  exact fun _ _ => rfl

/-- An acknowledgement without data leaves `snd_nxt`. -/
theorem send_ack (h : Similar net net') (p : Ptr) : Similar net (tcpSendSegment net' p tcpAck []) := by
  have hflag : hasFlag tcpAck (tcpSyn ||| tcpFin) = false := by decide
  rw [tcpSendSegment]
  refine editPcb_right (h.congr net.tasks net'.tasks net.sent _) p _ ?_
  simp [hflag, SamePcb]

theorem sleepOn (h : Similar net net') (k task : ℕ) : Similar net (Net.sleepOn net' k task) := by
  have hsocket := h.editSocket_right k (fun s => { s with waitingTask := some task })
    ((h.socket k).setWaiting _ _)
  exact hsocket.congr net.tasks _ net.sent net'.sent

theorem wake (h : Similar net net') (k : ℕ) : Similar net (net'.wake k) := by
  rw [NetState.wake]
  split
  · exact h
  · have hsocket := h.editSocket_right k (fun s => { s with waitingTask := none })
      ((h.socket k).setWaiting _ _)
    exact hsocket.congr net.tasks _ net.sent net'.sent

theorem wakeSocket (h : Similar net net') (p : Ptr) :
    Similar (Net.wakeSocket net p) (Net.wakeSocket net' p) := by
  have hright {net net' : NetState} (h : Similar net net') : Similar net (Net.wakeSocket net' p) := by
    rw [Net.wakeSocket]
    split
    · exact h
    · exact h.wake _
  exact (hright (hright h).symm).symm

theorem ackNext (h : Similar net net') (p : Ptr) (pkt : Packet) (st : TcpState) (flags : Byte) :
    Similar (Net.ackNext net p pkt st flags) (Net.ackNext net' p pkt st flags) := by
  refine send (h.mapPcb p _ ?_) p flags []
  exact fun _ _ => rfl

theorem release (h : Similar net net') (i : ℕ) (p : Ptr) :
    Similar (releasePcb net i p) (releasePcb net' i p) := by
  have hpcb := h.mapPcb p (fun pcb => { pcb with state := .closed }) fun _ _ => rfl
  exact ⟨congrArg (fun slots => slots.set i none) h.slots, hpcb.pcb, hpcb.socket, h.nextPort, h.myIp,
    h.connecting, h.halted⟩

theorem state (h : Similar net net') (p : Ptr) : (net.heap p).state = (net'.heap p).state := by
  rw [← h.pcb p]

theorem socketField (h : Similar net net') (p : Ptr) : (net.heap p).socket = (net'.heap p).socket := by
  rw [← h.pcb p]

theorem stream (h : Similar net net') (k : ℕ) :
    (net.sockets.get k).type = (net'.sockets.get k).type :=
  (h.socket k).type

/-- Data for a socket that is no stream does not show. -/
theorem acceptData_right (h : Similar net net') (p : Ptr) (pkt : Packet)
    (hhidden : ∀ k, (net'.heap p).socket = some k → (net'.sockets.get k).type ≠ sockStream) :
    Similar net (Net.acceptData net' p pkt) := by
  rw [Net.acceptData]
  split
  · exact h
  · next k hk =>
    dsimp only
    split
    · refine wake (send_ack (editPcb_right (h.editSocket_right k _ ?_) p _ (.rcvNxt _ _)) p) k
      exact (h.socket k).setRing fun htype => absurd htype (hhidden k hk)
    · exact h

theorem acceptData (h : Similar net net') (p : Ptr) (pkt : Packet) :
    Similar (Net.acceptData net p pkt) (Net.acceptData net' p pkt) := by
  by_cases hstream : ∃ k, (net.heap p).socket = some k ∧ (net.sockets.get k).type = sockStream
  · obtain ⟨k, hk, htype⟩ := hstream
    have hbytes := (h.socket k).2 (h.stream k ▸ htype)
    have hshort : pkt.data.length < 2 ^ 17 := by
      have := pkt.dataLen_lt
      rw [pkt.length_data]
      omega
    rw [Net.acceptData, Net.acceptData, ← h.socketField p, hk]
    dsimp only
    rw [← hbytes.len]
    split
    · next hroom =>
      rw [← pkt.length_data] at hroom ⊢
      refine (wake (wake ?_ k).symm k).symm
      refine send (mapPcb (h.editSocket k ?_) p _ ?_) p tcpAck []
      · refine (h.socket k).setRing fun _ => ?_
        have happend := hbytes.append hshort hroom
        rwa [← hbytes.len] at happend
      · exact fun _ _ => rfl
    · exact h
  · have hhidden (k : ℕ) (hk : (net.heap p).socket = some k) : (net.sockets.get k).type ≠ sockStream :=
      fun htype => hstream ⟨k, hk, htype⟩
    have hright := h.acceptData_right p pkt fun k hk => by
      rw [← h.stream k]
      exact hhidden k (h.socketField p ▸ hk)
    exact (hright.symm.acceptData_right p pkt hhidden).symm

theorem tcpProcess (h : Similar net net') (i : ℕ) (p : Ptr) (pkt : Packet) :
    Similar (Net.tcpProcess net i p pkt) (Net.tcpProcess net' i p pkt) := by
  rw [Net.tcpProcess, Net.tcpProcess, ← h.state p]
  cases (net.heap p).state with
  | listen =>
    dsimp only
    split
    · refine ackNext (h.mapPcb p _ ?_) p pkt _ _
      exact fun _ _ => rfl
    · exact h
  | synSent =>
    dsimp only
    split
    · exact (h.ackNext p pkt _ _).wakeSocket p
    · exact h
  | synReceived =>
    dsimp only
    split
    · exact h.mapPcb p _ fun _ _ => rfl
    · exact h
  | established =>
    dsimp only
    split
    · exact (h.ackNext p pkt _ _).wakeSocket p
    · split
      · exact h.acceptData p pkt
      · exact h
  | finWait1 =>
    dsimp only
    split
    · exact h.ackNext p pkt _ _
    · exact h.mapPcb p _ fun _ _ => rfl
  | finWait2 =>
    dsimp only
    split
    · exact (h.ackNext p pkt _ _).release i p
    · exact h
  | lastAck =>
    dsimp only
    split
    · exact h.release i p
    · exact h
  | _ => exact h

theorem lookup (h : Similar net net') (pkt : Packet) : tcpLookup net pkt = tcpLookup net' pkt := by
  rw [tcpLookup, tcpLookup]
  congr 1
  funext i
  rw [slotMatches, slotMatches, ← h.slots]
  split
  · rfl
  · next p _ =>
    have hp := h.pcb p
    rw [SamePcb] at hp
    rw [← hp]

theorem tcpInput (h : Similar net net') (pkt : Packet) :
    Similar (Net.tcpInput net pkt) (Net.tcpInput net' pkt) := by
  rw [Net.tcpInput, Net.tcpInput, ← h.lookup pkt]
  split
  · exact h
  · rw [← h.slots]
    split
    · exact h
    · exact h.tcpProcess _ _ pkt

theorem streamPcb (h : Similar net net') (k : ℕ) : Net.streamPcb net k = Net.streamPcb net' k := by
  rw [Net.streamPcb, Net.streamPcb, h.stream k, (h.socket k).tcpPcb]

theorem fault (h : Similar net net') : Similar (Net.fault net) (Net.fault net') :=
  ⟨h.slots, h.pcb, h.socket, h.nextPort, h.myIp, h.connecting, rfl⟩

theorem freeSocket (h : Similar net net') : Net.freeSocket net = Net.freeSocket net' := by
  rw [Net.freeSocket, Net.freeSocket]
  congr 1
  funext k
  rw [(h.socket k).inUse]

theorem create (h : Similar net net') (domain type protocol : Word) :
    Similar (net.exec (.create domain type protocol)) (net'.exec (.create domain type protocol)) := by
  rw [NetState.exec, NetState.exec, socketCreate, socketCreate, ← h.freeSocket]
  cases Net.freeSocket net with
  | none => exact h
  | some k =>
    refine h.editSocket k ⟨?_, fun _ => ?_⟩
    · rw [← (h.socket k).1]
    · exact ⟨⟨Nat.zero_le _, show 0 < 4096 by decide, rfl⟩,
        ⟨Nat.zero_le _, show 0 < 4096 by decide, rfl⟩, rfl⟩

theorem bind (h : Similar net net') (k : ℕ) (port : Port) (addr : Word) :
    Similar (socketBind net k port addr) (socketBind net' k port addr) := by
  have hbound : Similar (net.editSocket k fun s => { s with localPort := port, localAddr := addr })
      (net'.editSocket k fun s => { s with localPort := port, localAddr := addr }) :=
    h.mapSocket k _ fun _ _ _ => rfl
  have hpcb := hbound.streamPcb k
  rw [socketBind, socketBind, ← hpcb]
  split
  · exact hbound
  · exact hbound.mapPcb _ _ fun _ _ => rfl

/-- Both calls fault, or neither does. -/
theorem ensurePcb (h : Similar net net') (k : ℕ) (ptr : Ptr) :
    Net.ensurePcb net k ptr = none ∧ Net.ensurePcb net' k ptr = none ∨
      ∃ net₁ net₁' p, Net.ensurePcb net k ptr = some (net₁, p) ∧
        Net.ensurePcb net' k ptr = some (net₁', p) ∧ Similar net₁ net₁' := by
  rw [Net.ensurePcb, Net.ensurePcb, ← (h.socket k).tcpPcb]
  cases (net.sockets.get k).tcpPcb with
  | some p => exact .inr ⟨net, net', p, rfl, rfl, h⟩
  | none =>
    dsimp only
    rw [tcpNewPcb, tcpNewPcb, freeSlot, freeSlot, ← h.slots]
    by_cases hptr : ptr = 0#32
    · rw [if_pos hptr, if_pos hptr]
      exact .inl ⟨rfl, rfl⟩
    · rw [if_neg hptr, if_neg hptr]
      cases (List.range 16).find? fun i => (net.tcpPcbs.get i).isNone with
      | none => exact .inl ⟨rfl, rfl⟩
      | some i =>
        have hnew : Similar { net with
              heap := Function.update net.heap ptr newPcb, tcpPcbs := net.tcpPcbs.set i (some ptr) }
            { net' with
              heap := Function.update net'.heap ptr newPcb, tcpPcbs := net.tcpPcbs.set i (some ptr) } := by
          refine ⟨rfl, fun q => ?_, h.socket, h.nextPort, h.myIp, h.connecting, h.halted⟩
          by_cases hq : q = ptr
          · subst hq
            simp [SamePcb]
          · simpa [hq] using h.pcb q
        refine .inr ⟨_, _, ptr, rfl, rfl, mapPcb (hnew.mapSocket k _ ?_) ptr _ ?_⟩
        · exact fun _ _ _ => rfl
        · exact fun _ _ => rfl

theorem listen (h : Similar net net') (k : ℕ) (ptr : Ptr) :
    Similar (socketListen net k ptr) (socketListen net' k ptr) := by
  rw [socketListen, socketListen, ← h.stream k]
  split
  · rcases h.ensurePcb k ptr with ⟨hnone, hnone'⟩ | ⟨net₁, net₁', p, hsome, hsome', h₁⟩
    · rw [hnone, hnone']
      exact h.fault
    · rw [hsome, hsome']
      dsimp only
      have hport : (net₁.sockets.get k).localPort = (net₁'.sockets.get k).localPort := by
        rw [← (h₁.socket k).1]
      rw [← hport]
      exact h₁.mapPcb p _ fun _ _ => rfl
  · exact h

theorem freePort (h : Similar net net') :
    Similar (tcpGetFreePort net).1 (tcpGetFreePort net').1 ∧
      (tcpGetFreePort net).2 = (tcpGetFreePort net').2 := by
  refine ⟨⟨h.slots, h.pcb, h.socket, ?_, h.myIp, h.connecting, h.halted⟩, h.nextPort⟩
  rw [tcpGetFreePort, tcpGetFreePort, h.nextPort]

theorem setConnecting (h : Similar net net') (k : ℕ) (b : Bool) :
    Similar { net with connecting := net.connecting.set k b }
      { net' with connecting := net'.connecting.set k b } :=
  ⟨h.slots, h.pcb, h.socket, h.nextPort, h.myIp, congrArg (fun t => t.set k b) h.connecting, h.halted⟩

theorem connect (h : Similar net net') (k : ℕ) (addr : Word) (port : Port) (ptr : Ptr) :
    Similar (socketConnect net k addr port ptr) (socketConnect net' k addr port ptr) := by
  have hpeer : Similar (net.editSocket k fun s => { s with remoteAddr := addr, remotePort := port })
      (net'.editSocket k fun s => { s with remoteAddr := addr, remotePort := port }) :=
    h.mapSocket k _ fun _ _ _ => rfl
  rw [socketConnect, socketConnect]
  dsimp only
  rw [← hpeer.stream k]
  split
  · rcases hpeer.ensurePcb k ptr with ⟨hnone, hnone'⟩ | ⟨net₁, net₁', p, hsome, hsome', h₁⟩
    · rw [hnone, hnone']
      exact hpeer.fault
    · rw [hsome, hsome']
      dsimp only
      obtain ⟨h₂, hport⟩ := h₁.freePort
      rw [← hport, ← h₂.myIp]
      refine setConnecting (h₂.mapPcb p _ ?_) k true
      exact fun _ _ => rfl
  · exact hpeer

theorem connectSyn (h : Similar net net') (k task : ℕ) :
    Similar (socketConnectSyn net k task) (socketConnectSyn net' k task) := by
  rw [socketConnectSyn, socketConnectSyn, ← h.connecting, ← (h.socket k).tcpPcb]
  split
  · next p _ _ =>
    have hsyn := (h.mapPcb p (fun pcb => { pcb with state := .synSent, sndNxt := 100#32 })
      fun _ _ => rfl).send p tcpSyn []
    have hwait := (hsyn.sleepOn k task).symm.sleepOn k task
    exact hwait.symm.setConnecting k false
  · exact h

theorem accept (h : Similar net net') (k task : ℕ) :
    Similar (socketAccept net k task) (socketAccept net' k task) := by
  rw [socketAccept, socketAccept, ← h.stream k, ← (h.socket k).tcpPcb]
  split
  · split
    · exact h.fault
    · next p _ =>
      rw [← h.state p]
      split
      · exact h
      · exact ((h.sleepOn k task).symm.sleepOn k task).symm
  · exact h

theorem sendto (h : Similar net net') (k : ℕ) (message : List Byte) :
    Similar (socketSendto net k message) (socketSendto net' k message) := by
  rw [socketSendto, socketSendto, ← h.streamPcb k]
  split
  · exact h
  · next p _ =>
    rw [← h.state p]
    split
    · exact h.send p _ _
    · exact h

theorem close (h : Similar net net') (k : ℕ) : Similar (socketClose net k) (socketClose net' k) := by
  rw [socketClose, socketClose, ← h.streamPcb k]
  refine mapSocket ?_ k _ fun _ _ _ => rfl
  split
  · exact h
  · next p _ =>
    rw [tcpClose, tcpClose, ← h.state p]
    split
    · exact (h.send p _ []).mapPcb p _ fun _ _ => rfl
    · exact (h.send p _ []).mapPcb p _ fun _ _ => rfl
    · exact h.mapPcb p _ fun _ _ => rfl

/-- A read from a socket that is no stream does not show. -/
theorem recvfrom_right (h : Similar net net') (k : ℕ) (length : Word) (task : ℕ)
    (htype : (net'.sockets.get k).type ≠ sockStream) :
    Similar net (socketRecvfrom net' k length task).1 := by
  have hring (r : RingBuffer socketBufferSize Byte) :
      Similar net (net'.editSocket k fun s => { s with ring := r }) :=
    h.editSocket_right k _ ((h.socket k).setRing fun hstream => absurd hstream htype)
  rw [socketRecvfrom]
  dsimp only
  split
  · exact h.sleepOn k task
  · split
    · exact hring _
    · exact hring _

/-- Reads from streams return the same bytes. -/
theorem recvfrom_stream (h : Similar net net') (k : ℕ) (length : Word) (task : ℕ)
    (htype : (net.sockets.get k).type = sockStream) :
    (socketRecvfrom net k length task).2 = (socketRecvfrom net' k length task).2 ∧
      Similar (socketRecvfrom net k length task).1 (socketRecvfrom net' k length task).1 := by
  have hbytes := (h.socket k).2 (h.stream k ▸ htype)
  rw [socketRecvfrom, socketRecvfrom]
  dsimp only
  rw [← h.stream k, ← hbytes.len]
  split
  · exact ⟨rfl, ((h.sleepOn k task).symm.sleepOn k task).symm⟩
  · have hne : ¬(net.sockets.get k).type = sockDgram := by
      rw [htype]
      decide
    rw [if_neg hne, if_neg hne]
    obtain ⟨hread, hrest, hok⟩ :=
      RingBuffer.contents_loads hbytes.1 (Nat.min_le_right length.toNat (net.sockets.get k).ring.len)
    obtain ⟨hread', hrest', hok'⟩ := RingBuffer.contents_loads hbytes.2.1
      ((Nat.min_le_right length.toNat (net.sockets.get k).ring.len).trans_eq hbytes.len)
    dsimp only
    refine ⟨by rw [hread, hread', hbytes.2.2], h.editSocket k ?_⟩
    refine (h.socket k).setRing fun _ => ⟨hok, hok', ?_⟩
    rw [hrest, hrest', hbytes.2.2]

theorem recvfrom (h : Similar net net') (k : ℕ) (length : Word) (task : ℕ) :
    Similar (socketRecvfrom net k length task).1 (socketRecvfrom net' k length task).1 := by
  by_cases htype : (net.sockets.get k).type = sockStream
  · exact (h.recvfrom_stream k length task htype).2
  · have hright := h.recvfrom_right k length task (h.stream k ▸ htype)
    exact (hright.symm.recvfrom_right k length task htype).symm

theorem valid (h : Similar net net') (op : NetOp) : op.valid net = op.valid net' := by
  rw [NetOp.valid, NetOp.valid, h.slots]
  congr 1
  split
  · rfl
  · next k _ => rw [(h.socket k).inUse]

/-- Calls and segments keep states similar. -/
theorem exec (h : Similar net net') {op : NetOp} (hop : ∀ d, op ≠ .datagram d) :
    Similar (net.exec op) (net'.exec op) := by
  cases op with
  | create domain type protocol => exact h.create domain type protocol
  | bind k port addr => exact h.bind k port addr
  | listen k ptr => exact h.listen k ptr
  | connect k addr port ptr => exact h.connect k addr port ptr
  | connectSyn k task => exact h.connectSyn k task
  | accept k task => exact h.accept k task
  | sendto k message => exact h.sendto k message
  | recvfrom k length task => exact h.recvfrom k length task
  | close k => exact h.close k
  | packet pkt => exact h.tcpInput pkt
  | datagram d => exact absurd rfl (hop d)

theorem step (h : Similar net net') {op : NetOp} (hop : ∀ d, op ≠ .datagram d) :
    Similar (net.step op) (net'.step op) := by
  rw [NetState.step, NetState.step, ← h.halted, ← h.valid op]
  split
  · exact h
  · exact h.exec hop

end Similar

/-! ## Reads from streams -/

/-- No datagram is stored in the buffer of a stream socket. -/
def NoDeposit (net : NetState) (op : NetOp) : Prop :=
  ∀ d k, op = .datagram d → net.halted = false → Deposits net d k → (net.sockets.get k).type ≠ sockStream

/-- A datagram that is not for a stream does not show. -/
theorem Similar.datagram_left {net net' : NetState} (h : Similar net net') {d : Datagram}
    (hd : NoDeposit net (.datagram d)) : Similar (net.step (.datagram d)) net' := by
  rw [NetState.step]
  split
  · exact h
  · next hrun =>
    have hhalted : net.halted = false := by
      by_contra hhalted
      exact hrun (by simp [Bool.eq_true_of_not_eq_false hhalted])
    rw [NetState.exec, socketDispatchUdp]
    split
    · exact h
    · next k hk =>
      dsimp only
      split
      · next hroom =>
        refine (h.symm.editSocket_right k _ ?_).wake k |>.symm
        exact (h.symm.socket k).setRing fun htype => absurd htype (hd d k rfl hhalted ⟨hk, hroom⟩)
      · exact h

/-- The results of the reads from stream sockets in a run. -/
def streamReads (net : NetState) : List NetOp → List (ℕ × Option (List Byte))
  | [] => []
  | op :: ops =>
    let rest := streamReads (net.step op) ops
    match op with
    | .recvfrom k length task =>
      if (net.halted || !op.valid net) = true ∨ (net.sockets.get k).type ≠ sockStream then rest
      else (k, (socketRecvfrom net k length task).2) :: rest
    | _ => rest

def NetOp.isDatagram : NetOp → Bool
  | .datagram _ => true
  | _ => false

/-- Without its datagrams a run returns the same from stream sockets. -/
theorem streamReads_filter {net net' : NetState} {ops : List NetOp} (h : Similar net net')
    (hops : Steps NetState.step NoDeposit net ops) :
    streamReads net ops = streamReads net' (ops.filter fun op => !op.isDatagram) := by
  induction ops generalizing net net' with
  | nil => rfl
  | cons op ops ih =>
    cases op with
    | datagram d => exact ih (h.datagram_left hops.1) hops.2
    | recvfrom k length task =>
      have hop (d : Datagram) : NetOp.recvfrom k length task ≠ .datagram d := nofun
      have hrest := ih (h.step hop) hops.2
      rw [List.filter_cons_of_pos rfl, streamReads, streamReads, ← h.halted, ← h.valid, ← h.stream k]
      split
      · exact hrest
      · next hnot =>
        have htype := not_not.mp (not_or.mp hnot).2
        rw [hrest, (h.recvfrom_stream k length task htype).1]
    | _ => exact ih (h.step nofun) hops.2

/-! ## Runs with their history -/

/-- A state, with the payload that was accepted for each socket and the bytes that were returned from
it, since it was made. -/
structure Trace where
  net : NetState
  accepted : ℕ → List Byte
  returned : ℕ → List Byte

def Trace.step (t : Trace) (op : NetOp) : Trace where
  net := t.net.step op
  accepted k := if t.net.created op = some k then [] else t.accepted k ++ Net.accepted t.net op k
  returned k := if t.net.created op = some k then [] else t.returned k ++ taken t.net op k

def Trace.init (myIp : Word) (heap : Ptr → Pcb) : Trace := ⟨.init myIp heap, fun _ => [], fun _ => []⟩

/-- What was accepted for a stream socket is what was returned from it and what is in its buffer. -/
def Exact (t : Trace) : Prop :=
  ∀ k, t.net.view.inUse k = true → t.net.view.stream k = true →
    t.accepted k = t.returned k ++ t.net.buffer k

section Exact

variable {t : Trace} {op : NetOp}

theorem stream_type {net : NetState} {k : ℕ} :
    net.view.stream k = true ↔ (net.sockets.get k).type = sockStream := by
  simp [NetState.view]

theorem Deposits.bytes_ne_nil {net : NetState} {d : Datagram} {k : ℕ} (hhalted : net.halted = false)
    (h : Deposits net d k) : deposited net (.datagram d) k ≠ [] := by
  rw [deposited, hhalted, if_neg (by simp), if_pos h]
  exact List.ne_nil_of_length_pos (by rw [d.length_bytes]; omega)

/-- The step adds to both sides the same, and the datagram to one. -/
theorem exact_step_iff {k : ℕ} (hrings : StreamRings t.net) (h : Exact t)
    (huse : t.net.view.inUse k = true) (hstream : t.net.view.stream k = true)
    (hnew : t.net.created op ≠ some k) :
    (t.step op).accepted k = (t.step op).returned k ++ (t.step op).net.buffer k ↔
      deposited t.net op k = [] := by
  have hbuffer : taken t.net op k ++ (t.net.step op).buffer k = _ :=
    (buffer_step huse (stream_type.mp hstream) (hrings k huse hstream)).1
  simp only [Trace.step, if_neg hnew]
  rw [List.append_assoc (t.returned k), hbuffer, h k huse hstream]
  simp only [List.append_assoc, List.append_cancel_left_eq]
  exact List.self_eq_append_right

theorem exact_step (hrings : StreamRings t.net) (h : Exact t) :
    Exact (t.step op) ↔ NoDeposit t.net op := by
  constructor
  · -- a deposited datagram puts bytes into the ring that no segment has brought
    rintro h' d k rfl hhalted hdep htype
    have huse : t.net.view.inUse k = true := by
      have hfound := (List.find?_range_eq_some.mp hdep.1).1
      rw [Bool.and_eq_true] at hfound
      exact hfound.1
    have hview : (t.step (.datagram d)).net.view = t.net.view := by
      show (t.net.step _).view = _
      rw [NetState.step]
      split
      · rfl
      · exact view_datagram t.net d
    have hstream := stream_type.mpr htype
    have hexact := h' k (hview ▸ huse) (hview ▸ hstream)
    have hnew : t.net.created (.datagram d) ≠ some k := by
      intro hnew
      cases hnew
    exact hdep.bytes_ne_nil hhalted ((exact_step_iff hrings h huse hstream hnew).mp hexact)
  · intro hd k huse hstream
    by_cases hnew : t.net.created op = some k
    · simp only [Trace.step, if_pos hnew]
      -- a new socket has an empty ring and no bytes due
      exact (created_ring hnew).1.symm
    · obtain ⟨huse', hstream'⟩ := stream_before huse hstream hnew
      refine (exact_step_iff hrings h huse' hstream' hnew).mpr ?_
      cases op with
      | datagram d =>
        rw [deposited]
        split
        · rfl
        · next hhalted =>
          refine if_neg fun hdep => ?_
          exact hd d k rfl (Bool.eq_false_of_not_eq_true hhalted) hdep (stream_type.mp hstream')
      | _ => rfl

theorem steps_trace {C : NetState → NetOp → Prop} {ops : List NetOp} :
    Steps Trace.step (fun t op => C t.net op) t ops ↔ Steps NetState.step C t.net ops := by
  induction ops generalizing t with
  | nil => exact Iff.rfl
  | cons op ops ih => exact and_congr Iff.rfl ih

/-- **Streams**: in every state of a run, what was accepted for each stream socket is what was returned
from it and what is in its buffer, and the reads return what they return without the datagrams, exactly
when no datagram is stored for a stream socket. -/
theorem streams_isolated (myIp : Word) (heap : Ptr → Pcb) (ops : List NetOp) :
    Along Trace.step Exact (.init myIp heap) ops ∧
        streamReads (.init myIp heap) ops =
          streamReads (.init myIp heap) (ops.filter fun op => !op.isDatagram) ↔
      Steps NetState.step NoDeposit (.init myIp heap) ops := by
  have hexact : Along Trace.step Exact (.init myIp heap) ops ↔
      Steps Trace.step (fun t op => NoDeposit t.net op) (.init myIp heap) ops := by
    refine along_iff_steps (I := fun t => StreamRings t.net) StreamRings.step exact_step ?_ ?_
    · exact init_streamRings myIp heap
    · intro k huse
      exact absurd ((init_inUse myIp heap k).symm.trans huse) nofun
  have hinit : Similar (.init myIp heap) (.init myIp heap) := by
    refine ⟨rfl, fun _ => .refl _, fun k => ⟨rfl, fun htype => ?_⟩, rfl, rfl, rfl, rfl⟩
    rw [show (NetState.init myIp heap).sockets.get k = default from Table.get_default k] at htype
    exact absurd htype (by decide)
  rw [hexact, steps_trace]
  exact and_iff_left_of_imp (streamReads_filter hinit)

end Exact

/-- A stream socket that is not bound, a datagram to port 0, and a read. -/
def strayOps : List NetOp :=
  [.create 2#32 sockStream 0#32, .datagram ⟨0#16, 5000#16, 7#32, [1#8], by decide⟩, .recvfrom 0 100#32 1]

/-- The read returns the datagram, with its header. -/
theorem stray_datagram_returned :
    ¬(Along Trace.step Exact (.init 1#32 fun _ => newPcb) strayOps ∧
      streamReads (.init 1#32 fun _ => newPcb) strayOps =
        streamReads (.init 1#32 fun _ => newPcb) (strayOps.filter fun op => !op.isDatagram)) := by
  rintro ⟨-, h⟩
  exact absurd h (by decide +kernel)

end PekerOS.Net
