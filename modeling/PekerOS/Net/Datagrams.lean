import PekerOS.Net.Buffers

/-!
# Queues of datagrams

The buffer of a datagram socket holds datagrams one after another, each behind a header with its source
and its length. `socket_dispatch_udp` appends one or drops it, and `socket_recvfrom` parses the header
at the front and takes the datagram behind it, of which the caller gets as much as it has room for.

## Main definitions

* `SockaddrIn`, `recvfromAddress`: the address that `socket_recvfrom` fills in
* `Receipt`, `receipt`, `arrival`: what a step gives to the caller, and what it stores
* `QueueOf`: the buffer of a datagram socket is that of a list of datagrams

## Main results

* `QueueOf.dispatch`, `QueueOf.recvfrom`: the two calls append to the list and take from its front
* `datagrams_fifo`: receives return what was stored, in the order it was stored
-/

namespace PekerOS.Net

/-- `AF_INET` -/
abbrev afInet : BitVec 16 := 2#16

/-- `struct sockaddr_in` -/
structure SockaddrIn where
  sinFamily : BitVec 16
  sinPort : BitVec 16
  sinAddr : Word
deriving DecidableEq

/-- `htons` -/
def htons (v : BitVec 16) : BitVec 16 := v >>> 8 ||| v <<< 8

/-- The address that `socket_recvfrom` fills in, from the header at the front of the buffer of a
datagram socket; `addressLen` is `*address_len`, if the caller has given both pointers. -/
def recvfromAddress (net : NetState) (k : ℕ) (addressLen : Option Word) : Option SockaddrIn :=
  let s := net.sockets.get k
  if s.ring.len ≠ 0 ∧ s.type = sockDgram then
    let header := (s.ring.loads 8).2
    match addressLen with
    | none => none
    | some n =>
      if 16 ≤ n.toNat then
        some ⟨afInet, htons (BitVec.ofNat 16 (u16At header 4)), wordOfBytes fun i => header.getD i 0#8⟩
      else none
  else none

/-- What a completed `socket_recvfrom` gives to a caller with a buffer of `length` bytes: bytes, and an
address for each value of `*address_len`. -/
structure Receipt where
  length : Word
  bytes : List Byte
  address : Option Word → Option SockaddrIn

/-- The receive on socket `k` that a step completes. -/
def receipt (k : ℕ) (net : NetState) : NetOp → Option Receipt
  | .recvfrom j length task =>
    if (net.halted || !NetOp.valid net (.recvfrom j length task)) ∨ j ≠ k then none
    else (socketRecvfrom net j length task).2.map fun bytes => ⟨length, bytes, recvfromAddress net j⟩
  | _ => none

/-- The datagram that a step stores for socket `k`. -/
def arrival (k : ℕ) (net : NetState) : NetOp → Option Datagram
  | .datagram d => if net.halted = false ∧ Deposits net d k then some d else none
  | _ => none

/-- What the steps of a run produce, in order. -/
def produced {α : Type} (f : NetState → NetOp → Option α) : NetState → List NetOp → List α
  | _, [] => []
  | net, op :: ops => (f net op).toList ++ produced f (net.step op) ops

/-- A delivery or a receive. -/
def NetOp.Queues : NetOp → Prop
  | .datagram _ => True
  | .recvfrom _ _ _ => True
  | _ => False

/-- The caller gets what it has room for of the datagram, and its source if it has room for that. -/
structure Receipt.Returns (r : Receipt) (d : Datagram) : Prop where
  bytes : r.bytes = d.data.take (min r.length.toNat d.data.length)
  address : ∀ n : Word, 16 ≤ n.toNat → r.address (some n) = some ⟨afInet, htons d.srcPort, d.srcIp⟩

/-! ## The header -/

section Header

variable (d : Datagram)

/-- The header of a stored datagram. -/
def Datagram.header : List Byte :=
  (List.range 4).map (wordByte d.srcIp) ++
    [d.srcPort.setWidth 8, (d.srcPort >>> 8).setWidth 8,
      BitVec.ofNat 8 d.data.length, BitVec.ofNat 8 (d.data.length / 256)]

theorem Datagram.bytes_eq : d.bytes = d.header ++ d.data := rfl

theorem Datagram.length_header : d.header.length = 8 := rfl

theorem header_dataLen : u16At d.header 6 = d.data.length := by
  have hshort := d.short
  show (BitVec.ofNat 8 d.data.length).toNat + 256 * (BitVec.ofNat 8 (d.data.length / 256)).toNat = _
  rw [BitVec.toNat_ofNat, BitVec.toNat_ofNat]
  omega

theorem header_srcPort : BitVec.ofNat 16 (u16At d.header 4) = d.srcPort := by
  show BitVec.ofNat 16 ((d.srcPort.setWidth 8).toNat + 256 * ((d.srcPort >>> 8).setWidth 8).toNat) = _
  apply BitVec.eq_of_toNat_eq
  have hlt := d.srcPort.isLt
  rw [BitVec.toNat_ofNat, BitVec.toNat_setWidth, BitVec.toNat_setWidth, BitVec.toNat_ushiftRight,
    Nat.shiftRight_eq_div_pow]
  omega

theorem header_srcIp : (wordOfBytes fun i => d.header.getD i 0#8) = d.srcIp := by
  rw [← wordOfBytes_wordByte d.srcIp]
  refine wordOfBytes_congr fun i hi => ?_
  interval_cases i <;> rfl

end Header

/-! ## The kind of a socket -/

section Kinds

variable (net : NetState) (k j : ℕ)

theorem sleepOn_type (task : ℕ) : ((sleepOn net k task).sockets.get j).type = (net.sockets.get j).type :=
  editSocket_type net k j (g := fun s => { s with waitingTask := some task }) rfl

theorem recvfrom_type (length : Word) (task : ℕ) :
    ((socketRecvfrom net k length task).1.sockets.get j).type = (net.sockets.get j).type := by
  rw [socketRecvfrom]
  dsimp only
  split
  · exact sleepOn_type net k j task
  · split
    · exact editSocket_type net k j rfl
    · exact editSocket_type net k j rfl

theorem dispatch_type (d : Datagram) :
    ((socketDispatchUdp net d).sockets.get j).type = (net.sockets.get j).type := by
  rw [socketDispatchUdp]
  split
  · rfl
  · dsimp only
    split
    · obtain ⟨w, hw⟩ := wake_get (net.editSocket _ _) _ j
      rw [hw]
      exact editSocket_type net _ j rfl
    · rfl

end Kinds

/-! ## The queue -/

/-- Socket `k` is a datagram socket, and its buffer is that of `ds`. -/
structure QueueOf (k : ℕ) (net : NetState) (ds : List Datagram) : Prop where
  dgram : (net.sockets.get k).type = sockDgram
  ok : (net.ring k).Ok
  buffer : net.buffer k = ds.flatMap Datagram.bytes

namespace QueueOf

variable {net net' : NetState} {k : ℕ} {ds : List Datagram} {d : Datagram}

theorem congr (h : QueueOf k net ds) (htype : (net'.sockets.get k).type = (net.sockets.get k).type)
    (hring : net'.ring k = net.ring k) : QueueOf k net' ds :=
  ⟨htype.trans h.dgram, hring ▸ h.ok, by rw [NetState.buffer, hring]; exact h.buffer⟩

theorem len (h : QueueOf k net ds) : (net.ring k).len = (ds.flatMap Datagram.bytes).length := by
  rw [← h.buffer, NetState.buffer, RingBuffer.length_contents]

/-- The header and the data of the first datagram are at the front. -/
theorem contents_cons (h : QueueOf k net (d :: ds)) :
    (net.ring k).contents = d.header ++ (d.data ++ ds.flatMap Datagram.bytes) := by
  rw [← NetState.buffer, h.buffer, List.flatMap_cons, d.bytes_eq, List.append_assoc]

/-- The header at the front says how long the datagram behind it is; both are loaded, and what remains
is the rest of the queue. -/
theorem loads_cons (h : QueueOf k net (d :: ds)) :
    ((net.ring k).loads 8).2 = d.header ∧ (((net.ring k).loads 8).1.loads d.data.length).2 = d.data ∧
      8 + d.data.length ≤ (net.ring k).len ∧
      { (((net.ring k).loads 8).1.loads d.data.length).1 with
          len := (net.ring k).len - (8 + d.data.length) }.contents = ds.flatMap Datagram.bytes ∧
      RingBuffer.Ok { (((net.ring k).loads 8).1.loads d.data.length).1 with
        len := (net.ring k).len - (8 + d.data.length) } := by
  have hlen : 8 + d.data.length ≤ (net.ring k).len := by
    rw [h.len, List.flatMap_cons, List.length_append, d.length_bytes]
    exact Nat.le_add_right _ _
  obtain ⟨hheader, hdata, hrest, hok⟩ := RingBuffer.contents_loads_loads h.ok hlen
  rw [h.contents_cons] at hheader hdata hrest
  refine ⟨?_, ?_, hlen, ?_, hok⟩
  · rw [hheader, ← d.length_header, List.take_left']
    rfl
  · rw [hdata, ← d.length_header, List.drop_left, List.take_left]
  · rw [hrest, ← List.append_assoc, ← d.length_header, ← List.length_append, List.drop_left]

theorem recvfrom (h : QueueOf k net (d :: ds)) (hk : k < 32) (length : Word) (task : ℕ) :
    (socketRecvfrom net k length task).2 = some (d.data.take (min length.toNat d.data.length)) ∧
      QueueOf k (socketRecvfrom net k length task).1 ds := by
  obtain ⟨hheader, hdata, hle, hrest, hok⟩ := h.loads_cons
  have hlen : (net.ring k).len ≤ 4096 := h.ok.len_le
  have hcount : ((net.ring k).len + 2 ^ 32 - (8 + d.data.length) % 2 ^ 32) % 2 ^ 32 =
      (net.ring k).len - (8 + d.data.length) := by omega
  have hpos : (net.ring k).len ≠ 0 := by omega
  rw [NetState.ring] at hheader hdata hcount hpos
  rw [socketRecvfrom]
  dsimp only
  rw [if_neg hpos, if_pos h.dgram]
  simp only [hheader, header_dataLen, hdata, hcount]
  refine ⟨trivial, ?_, ?_, ?_⟩
  · rw [editSocket_get_self _ _ _ hk]
    exact h.dgram
  · rw [ring_editSocket_self _ _ _ hk]
    exact hok
  · rw [NetState.buffer, ring_editSocket_self _ _ _ hk]
    exact hrest

/-- A receiver waits for the first datagram. -/
theorem recvfrom_nil (h : QueueOf k net []) (length : Word) (task : ℕ) :
    (socketRecvfrom net k length task).2 = none ∧
      QueueOf k (socketRecvfrom net k length task).1 [] := by
  have hlen : (net.ring k).len = 0 := h.len
  have hwait : socketRecvfrom net k length task = (sleepOn net k task, none) := if_pos hlen
  rw [hwait]
  exact ⟨rfl, h.congr (sleepOn_type net k k task) ((Steady.sleepOn net k task).ring k)⟩

theorem address (h : QueueOf k net (d :: ds)) {n : Word} (hn : 16 ≤ n.toNat) :
    recvfromAddress net k (some n) = some ⟨afInet, htons d.srcPort, d.srcIp⟩ := by
  obtain ⟨hheader, -, hle, -, -⟩ := h.loads_cons
  have hlen : (net.sockets.get k).ring.len ≠ 0 := by
    have hpos : 8 + d.data.length ≤ (net.sockets.get k).ring.len := hle
    omega
  rw [recvfromAddress]
  dsimp only
  rw [if_pos ⟨hlen, h.dgram⟩, if_pos hn, ← NetState.ring, hheader, header_srcPort, header_srcIp]

theorem dispatch (h : QueueOf k net ds) (hk : k < 32) (hdep : Deposits net d k) :
    QueueOf k (socketDispatchUdp net d) (ds ++ [d]) := by
  have hshort : d.bytes.length < 2 ^ 17 := by
    have := d.short
    rw [d.length_bytes]
    omega
  have hstored := contents_append h.ok hshort (d.length_bytes ▸ hdep.2)
  rw [d.length_bytes, ← dispatch_ring net k hk hdep] at hstored
  refine ⟨(dispatch_type net k d).trans h.dgram, hstored.2, ?_⟩
  rw [NetState.buffer, hstored.1, ← NetState.buffer, h.buffer, List.flatMap_append,
    List.flatMap_singleton]

end QueueOf

/-! ## Runs -/

section Runs

variable {net : NetState} {k : ℕ} {ds : List Datagram} {op : NetOp} {ops : List NetOp}

/-- What a step takes from the queue it gives to the caller, and what it stores comes at the end. -/
theorem QueueOf.step (h : QueueOf k net ds) (hk : k < 32) (hop : op.Queues) :
    ∃ out ds', QueueOf k (net.step op) ds' ∧
      List.Forall₂ Receipt.Returns (receipt k net op).toList out ∧
      out ++ ds' = ds ++ (arrival k net op).toList := by
  -- a step that leaves the socket alone
  have hquiet {net' : NetState} (htype : (net'.sockets.get k).type = (net.sockets.get k).type)
      (hring : net'.ring k = net.ring k) (hstep : net.step op = net') (hrec : receipt k net op = none)
      (harr : arrival k net op = none) :
      ∃ out ds', QueueOf k (net.step op) ds' ∧
        List.Forall₂ Receipt.Returns (receipt k net op).toList out ∧
        out ++ ds' = ds ++ (arrival k net op).toList := by
    rw [hstep, hrec, harr]
    exact ⟨[], ds, h.congr htype hring, .nil, (List.append_nil ds).symm⟩
  by_cases hidle : (net.halted || !op.valid net) = true
  · refine hquiet rfl rfl (step_of_idle hidle) ?_ ?_
    · cases op with
      | recvfrom j length task => exact if_pos (.inl hidle)
      | _ => rfl
    · cases op with
      | datagram d =>
        refine if_neg fun hd => ?_
        simp [hd.1, NetOp.valid, NetOp.socket?, NetOp.ptr?] at hidle
      | _ => rfl
  have hstep : net.step op = net.exec op := if_neg hidle
  cases op with
  | recvfrom j length task =>
    by_cases hj : j = k
    · subst hj
      have hrec : receipt j net (.recvfrom j length task) =
          (socketRecvfrom net j length task).2.map fun bytes => ⟨length, bytes, recvfromAddress net j⟩ :=
        if_neg (by simpa using hidle)
      rw [hstep, hrec]
      cases ds with
      | nil =>
        obtain ⟨hnone, hq⟩ := h.recvfrom_nil length task
        rw [hnone]
        exact ⟨[], [], hq, .nil, rfl⟩
      | cons d ds =>
        obtain ⟨hsome, hq⟩ := h.recvfrom hk length task
        rw [hsome]
        refine ⟨[d], ds, hq, .cons ⟨rfl, fun n hn => h.address hn⟩ .nil, ?_⟩
        exact (List.append_nil (d :: ds)).symm
    · exact hquiet (recvfrom_type net j k length task) (recvfrom_ring_ne (Ne.symm hj)) hstep
        (if_pos (.inr hj)) rfl
  | datagram d =>
    have hhalted : net.halted = false := by
      simpa [NetOp.valid, NetOp.socket?, NetOp.ptr?] using hidle
    by_cases hdep : Deposits net d k
    · rw [hstep, show arrival k net (.datagram d) = some d from if_pos ⟨hhalted, hdep⟩]
      exact ⟨[], ds ++ [d], h.dispatch hk hdep, .nil, rfl⟩
    · exact hquiet (dispatch_type net k d) (dispatch_ring_ne net k hdep) hstep rfl
        (if_neg fun hd => hdep hd.2)
  | _ => exact absurd hop id

/-- What is given to callers and what is left in the queue is what was there and what was stored. -/
theorem QueueOf.run (h : QueueOf k net ds) (hk : k < 32) (hops : ∀ op ∈ ops, op.Queues) :
    ∃ out ds', QueueOf k (ops.foldl NetState.step net) ds' ∧
      List.Forall₂ Receipt.Returns (produced (receipt k) net ops) out ∧
      out ++ ds' = ds ++ produced (arrival k) net ops := by
  induction ops generalizing net ds with
  | nil => exact ⟨[], ds, h, .nil, (List.append_nil ds).symm⟩
  | cons op ops ih =>
    obtain ⟨out, ds₁, hq, hout, happend⟩ := h.step hk (hops op List.mem_cons_self)
    obtain ⟨out', ds', hq', hout', happend'⟩ := ih hq fun o ho => hops o (List.mem_cons_of_mem op ho)
    refine ⟨out ++ out', ds', hq', List.rel_append hout hout', ?_⟩
    rw [produced, List.append_assoc, happend', ← List.append_assoc, happend, List.append_assoc]

theorem step_datagram {d : Datagram} (hhalted : net.halted = false) :
    net.step (.datagram d) = socketDispatchUdp net d := by
  rw [NetState.step, if_neg (by simp [hhalted, NetOp.valid, NetOp.socket?, NetOp.ptr?]), NetState.exec]

/-- A datagram is appended if it fits, and otherwise it is as if it had not come. -/
theorem QueueOf.deliver {d : Datagram} (h : QueueOf k net ds) (hk : k < 32) (hhalted : net.halted = false)
    (htarget : udpTarget net d.destPort = some k) :
    if (net.ring k).len + 8 + d.data.length > 4096 then
      net.step (.datagram d) = net ∧ arrival k net (.datagram d) = none
    else
      (net.step (.datagram d)).buffer k = net.buffer k ++ d.bytes ∧
        arrival k net (.datagram d) = some d := by
  have hlen : (net.ring k).len ≤ 4096 := h.ok.len_le
  have hshort := d.short
  -- the sum does not wrap, so the code compares what it means to
  have hroom : ((net.ring k).len + (8 + d.data.length)) % 2 ^ 32 =
      (net.ring k).len + 8 + d.data.length := by omega
  rw [step_datagram hhalted]
  split
  · next hfull =>
    have hdep : ¬Deposits net d k := fun hdep => absurd (hroom ▸ hdep.2) (Nat.not_le_of_gt hfull)
    refine ⟨?_, if_neg fun hd => hdep hd.2⟩
    rw [socketDispatchUdp, htarget]
    exact if_neg fun hle => hdep ⟨htarget, hle⟩
  · next hfits =>
    have hdep : Deposits net d k := ⟨htarget, hroom ▸ Nat.le_of_not_lt hfits⟩
    refine ⟨?_, if_pos ⟨hhalted, hdep⟩⟩
    rw [(h.dispatch hk hdep).buffer, h.buffer, List.flatMap_append, List.flatMap_singleton]

/-- **Datagrams**: whatever deliveries and receives are made on a datagram socket with an empty buffer,
the completed receives return the stored datagrams in order, each with its source and cut to the
caller's buffer; the other stored datagrams are in the buffer; and a datagram is dropped whole exactly
if it does not fit behind them with its header. -/
theorem datagrams_fifo (net : NetState) (k : ℕ) (ops : List NetOp) (hk : k < 32)
    (hdgram : (net.sockets.get k).type = sockDgram) (hok : (net.ring k).Ok)
    (hempty : (net.ring k).len = 0) (hops : ∀ op ∈ ops, op.Queues) :
    let net' := ops.foldl NetState.step net
    let arrivals := produced (arrival k) net ops
    let receipts := produced (receipt k) net ops
    List.Forall₂ Receipt.Returns receipts (arrivals.take receipts.length) ∧
      net'.buffer k = (arrivals.drop receipts.length).flatMap Datagram.bytes ∧
      (net'.ring k).len ≤ 4096 ∧
      (net'.ring k).head = ((net'.ring k).tail + (net'.ring k).len) % 4096 ∧
      ∀ d : Datagram, net'.halted = false → udpTarget net' d.destPort = some k →
        if (net'.ring k).len + 8 + d.data.length > 4096 then
          net'.step (.datagram d) = net' ∧ arrival k net' (.datagram d) = none
        else
          (net'.step (.datagram d)).buffer k = net'.buffer k ++ d.bytes ∧
            arrival k net' (.datagram d) = some d := by
  -- the queue is empty at first, and the run keeps what it holds as datagrams
  have hstart : QueueOf k net [] := by
    refine ⟨hdgram, hok, List.eq_nil_of_length_eq_zero ?_⟩
    rw [NetState.buffer, RingBuffer.length_contents, hempty]
  obtain ⟨out, ds, hq, hout, happend⟩ := hstart.run hk hops
  rw [List.nil_append] at happend
  intro net' arrivals receipts
  have hlen : receipts.length = out.length := hout.length_eq
  refine ⟨?_, ?_, hq.ok.len_le, hq.ok.head, fun d hhalted htarget => hq.deliver hk hhalted htarget⟩
  · rw [hlen, show arrivals = out ++ ds from happend.symm, List.take_left]
    exact hout
  · rw [hlen, show arrivals = out ++ ds from happend.symm, List.drop_left]
    exact hq.buffer

/-- A datagram socket that has just been made and bound. -/
def boundNet : NetState :=
  [NetOp.create 2#32 sockDgram 0#32, .bind 0 5000#16 0#32].foldl NetState.step (.init 1#32 fun _ => newPcb)

/-- A datagram of two bytes, and a receive into a buffer of one. -/
def shortReceive : List NetOp :=
  [.datagram ⟨5000#16, 9#16, 7#32, [1#8, 2#8], by decide⟩, .recvfrom 0 1#32 1]

theorem datagrams_fifo_short :
    (produced (receipt 0) boundNet shortReceive).length = 1 ∧
      List.Forall₂ Receipt.Returns (produced (receipt 0) boundNet shortReceive)
        ((produced (arrival 0) boundNet shortReceive).take
          (produced (receipt 0) boundNet shortReceive).length) :=
  ⟨rfl, (datagrams_fifo boundNet 0 shortReceive (by decide) rfl ⟨Nat.zero_le _, by decide, rfl⟩ rfl
    (by simp [shortReceive, NetOp.Queues])).1⟩

end Runs

end PekerOS.Net
