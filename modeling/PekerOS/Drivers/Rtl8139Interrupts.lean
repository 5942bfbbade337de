import PekerOS.Drivers.Rtl8139

/-!
# Interrupts of the RTL8139

The card has one status bit for all the packets that it has received, and the handler clears the bit
before it looks at the ring. It passes one packet on, where the handler of the E1000 goes on until it
finds a descriptor that is not done; what arrives with another packet waits for the next interrupt. Here
packets arrive between any two steps of the handler.

## Main definitions

* `acknowledge`, `receive`: the two halves of `rtl8139_handler`
* `Machine`, `Signal`, `Machine.step`: the card, the handler on its way, and what happens next
* `Drained`: what had arrived before the acknowledgement has been passed on
* `Apart`: at most one packet arrives between an acknowledgement and the next reading of the status

## Main results

* `rtl8139Handler_eq`: the two halves are the handler
* `ring_drained`: runs in which every packet has an interrupt of its own
-/

namespace PekerOS.Drivers.Rtl8139

/-- `rtl8139_handler` up to the write of the status. -/
def acknowledge (status : BitVec 16) (s : Driver) : Driver := { s with isr := status }

/-- `rtl8139_handler` from there on. -/
def receive (mem : Word → Byte) (status : BitVec 16) (s : Driver) : Driver :=
  if status &&& 0x01#16 ≠ 0#16 then
    let rx := rxBufferVirt + s.currentRxPtr
    let packetLength := (readU16 mem (rx + 2#32)).setWidth 32
    let packetData := rxBufferVirt + s.currentRxPtr + 4#32
    let realLength := packetLength - 4#32
    let ptr := (s.currentRxPtr + packetLength + 4#32 + 3#32) &&& ~~~3#32
    let ptr := if ptr > 8192#32 then ptr - 8192#32 else ptr
    { s with
      handled := s.handled ++ [(packetData, realLength)]
      currentRxPtr := ptr
      capr := (ptr - 16#32).setWidth 16 }
  else s

theorem rtl8139Handler_eq (mem : Word → Byte) (status : BitVec 16) (s : Driver) :
    rtl8139Handler mem status s = receive mem status (acknowledge status s) := rfl

/-! ## The card and the handler -/

/-- What the packet takes of the ring. -/
def Packet.span (p : Packet) : ℕ := (4 + p.bytes.length + 3) / 4 * 4

/-- The packet without its checksum. -/
def Packet.payload (p : Packet) : List Byte := p.bytes.take (p.bytes.length - 4)

/-- How far the handler has come. -/
inductive Phase
  | idle
  | read (status : BitVec 16)
  | acknowledged (status : BitVec 16)
deriving DecidableEq

/-- The card with its interrupt status, the handler, the packets in the order of their arrival, how many
of them the last acknowledgement found, and what `net_handle_packet` has been given. -/
structure Machine extends System where
  isr : BitVec 16
  phase : Phase
  arrived : List Packet
  before : ℕ
  passed : List (List Byte)

/-- The bytes that the card takes for unread: from `CAPR` to its own offset. -/
def Machine.used (s : Machine) : ℕ :=
  (s.offset + (8192 - (s.driver.capr + 16#16).toNat % 8192)) % 8192

/-- The bytes of a call `net_handle_packet(packet, length)`. -/
def packetBytes (mem : Word → Byte) (call : Word × Word) : List Byte :=
  (List.range call.2.toNat).map fun i => mem (call.1 + BitVec.ofNat 32 i)

/-- A packet comes in, the card gets another cause for an interrupt, or the handler goes on. -/
inductive Signal
  | arrive (p : Packet) (whole : 4 ≤ p.bytes.length)
  | cause (bits : BitVec 16) (unrelated : bits &&& 0x01#16 = 0#16)
  | handler

/-- A packet for which the ring has no room is missed, with the bit `RXOVW`. -/
def Machine.step (s : Machine) : Signal → Machine
  | .arrive p _ =>
    if s.used + p.span < 8192 then
      { s with toSystem := s.write p, isr := s.isr ||| 0x01#16, arrived := s.arrived ++ [p] }
    -- no room: the packet is lost, with `RX_OVERFLOW`
    else { s with isr := s.isr ||| 0x10#16 }
  | .cause bits _ => { s with isr := s.isr ||| bits }
  | .handler =>
    match s.phase with
    | .idle => { s with phase := .read s.isr }
    | .read status =>
      { s with
        isr := s.isr &&& ~~~status
        driver := acknowledge status s.driver
        before := s.arrived.length
        phase := .acknowledged status }
    | .acknowledged status =>
      -- one packet, however many have come
      let driver := receive s.mem status s.driver
      { s with
        driver := driver
        passed := s.passed ++ (driver.handled.drop s.driver.handled.length).map (packetBytes s.mem)
        phase := .idle }

/-- After `init_rtl8139`, with the `CAPR` of a card that has been reset. -/
def Machine.init (mem : Word → Byte) : Machine :=
  ⟨⟨mem, 0, ⟨0#32, 0#16, 0xFFF0#16, []⟩⟩, 0#16, .idle, [], 0, []⟩

/-- When the handler has returned, `net_handle_packet` has been given the packets that had arrived before
the acknowledgement, each once and in their order. -/
def Drained (s : Machine) : Prop :=
  s.phase = .idle → s.passed = (s.arrived.take s.before).map Packet.payload

/-- A packet that the ring has room for is the first one since the last acknowledgement, it does not come
between the reading of the status and the acknowledgement, and it does not end, rounded up, at the end of the
ring. -/
def Apart (s : Machine) : Signal → Prop
  | .arrive p _ => s.used + p.span < 8192 →
      s.arrived.length = s.before ∧ (∀ status, s.phase ≠ .read status) ∧
        (s.offset + 4 + p.bytes.length + 3) / 4 * 4 ≠ 8192
  | _ => True

/-! ## Packets behind one another -/

/-- The packets lie one behind the other in the ring, from an offset up to another. -/
def Laid (mem : Word → Byte) : ℕ → List Packet → ℕ → Prop
  | o, [], e => o = e
  | o, p :: ps, e =>
    (∀ i, (h : i < p.stored.length) → mem (rxBufferVirt + BitVec.ofNat 32 (o + i)) = p.stored[i]) ∧
      o + p.span ≠ 8192 ∧ Laid mem ((o + p.span) % 8192) ps e

section Laid

variable {mem : Word → Byte} {o e x : ℕ} {p : Packet} {ps : List Packet} {bytes : List Byte}

theorem Packet.stored_length (p : Packet) : p.stored.length = p.bytes.length + 4 := rfl

theorem Packet.le_span (p : Packet) : p.stored.length ≤ p.span := by
  rw [Packet.stored_length, Packet.span]
  omega

theorem Packet.span_mod (p : Packet) : p.span % 4 = 0 := Nat.mul_mod_left _ _

/-- At a multiple of four the end of a packet is rounded up by its span. -/
theorem round_up (p : Packet) (ho : o % 4 = 0) : (o + 4 + p.bytes.length + 3) / 4 * 4 = o + p.span := by
  rw [Packet.span]
  omega

theorem addr_sub (hx : x < 2 ^ 20) (he : e < 2 ^ 20) :
    (rxBufferVirt + BitVec.ofNat 32 x - (rxBufferVirt + BitVec.ofNat 32 e)).toNat =
      if e ≤ x then x - e else 2 ^ 32 - (e - x) := by
  rw [add_sub_add_left_eq_sub, BitVec.toNat_sub, BitVec.toNat_ofNat, BitVec.toNat_ofNat]
  split <;> omega

theorem writeBytes_apply (hx : x < 2 ^ 20) (he : e ≤ x) (h : x - e < bytes.length) :
    writeBytes mem (rxBufferVirt + BitVec.ofNat 32 e) bytes (rxBufferVirt + BitVec.ofNat 32 x) =
      bytes[x - e] := by
  rw [writeBytes, addr_sub hx (by omega), if_pos he, List.getElem?_eq_getElem h, Option.getD_some]

theorem writeBytes_other (hx : x < 2 ^ 20) (he : e < 2 ^ 20) (hlen : bytes.length < 2 ^ 20)
    (h : x < e ∨ e + bytes.length ≤ x) :
    writeBytes mem (rxBufferVirt + BitVec.ofNat 32 e) bytes (rxBufferVirt + BitVec.ofNat 32 x) =
      mem (rxBufferVirt + BitVec.ofNat 32 x) := by
  have hout : bytes.length ≤
      (rxBufferVirt + BitVec.ofNat 32 x - (rxBufferVirt + BitVec.ofNat 32 e)).toNat := by
    rw [addr_sub hx he]
    split <;> omega
  rw [writeBytes, List.getElem?_eq_none hout, Option.getD_none]

/-- What the packets take leads from one offset to the other. -/
theorem Laid.end_eq (h : Laid mem o ps e) (ho : o < 8192) : e = (o + (ps.map Packet.span).sum) % 8192 := by
  induction ps generalizing o with
  | nil =>
    obtain rfl : o = e := h
    exact (Nat.mod_eq_of_lt ho).symm
  | cons p ps ih =>
    obtain ⟨-, -, hrest⟩ := h
    rw [ih hrest (Nat.mod_lt _ (by decide)), List.map_cons, List.sum_cons]
    omega

/-- A packet behind them, while the ring has room, leaves them where they are. -/
theorem Laid.write (h : Laid mem o ps e) (ho : o < 8192)
    (hroom : (ps.map Packet.span).sum + p.span < 8192) (hend : e + p.span ≠ 8192) :
    Laid (writeBytes mem (rxBufferVirt + BitVec.ofNat 32 e) p.stored) o (ps ++ [p])
      ((e + p.span) % 8192) := by
  have hle := p.le_span
  induction ps generalizing o with
  | nil =>
    obtain rfl : o = e := h
    refine ⟨fun i hi => ?_, hend, rfl⟩
    rw [writeBytes_apply (by omega) (by omega) (by omega)]
    congr 1
    omega
  | cons q ps ih =>
    have he := h.end_eq ho
    obtain ⟨hq, hne, hrest⟩ := h
    rw [List.map_cons, List.sum_cons] at hroom he
    refine ⟨fun i hi => ?_, hne, ih hrest (Nat.mod_lt _ (by decide)) (by omega)⟩
    -- the new packet begins behind the end of `q`, or a round later and ends before `q`
    have hqle := q.le_span
    rw [writeBytes_other (by omega) (by omega) (by omega) (by omega)]
    exact hq i hi

end Laid

/-! ## One step of the handler -/

section Receive

variable {mem : Word → Byte} {status : BitVec 16} {d : Driver} {p : Packet} {ps : List Packet} {e : ℕ}

/-- Without its bit the handler does nothing. -/
theorem receive_of_not (h : status &&& 0x01#16 = 0#16) : receive mem status d = d := if_neg (not_not.mpr h)

theorem addr_add (x : Word) (i : ℕ) : rxBufferVirt + BitVec.ofNat 32 (x.toNat + i) =
    rxBufferVirt + x + BitVec.ofNat 32 i := by
  rw [BitVec.ofNat_add, BitVec.ofNat_toNat, BitVec.setWidth_eq, add_assoc]

theorem Laid.readU16 (h : Laid mem d.currentRxPtr.toNat (p :: ps) e) :
    (readU16 mem (rxBufferVirt + d.currentRxPtr + 2#32)).toNat = p.bytes.length := by
  have hlow := h.1 2 (by rw [Packet.stored_length]; omega)
  have hhigh := h.1 3 (by rw [Packet.stored_length]; omega)
  rw [addr_add] at hlow hhigh
  have hthree : rxBufferVirt + d.currentRxPtr + 2#32 + 1#32 =
      rxBufferVirt + d.currentRxPtr + BitVec.ofNat 32 3 := add_assoc _ _ _
  rw [Rtl8139.readU16, hthree, hhigh, hlow]
  exact toNat_lengthBytes p.short

/-- The call that the handler makes is about the packet without its checksum. -/
theorem Laid.packetBytes (h : Laid mem d.currentRxPtr.toNat (p :: ps) e) (hwhole : 4 ≤ p.bytes.length) :
    packetBytes mem (rxBufferVirt + d.currentRxPtr + 4#32,
      (Rtl8139.readU16 mem (rxBufferVirt + d.currentRxPtr + 2#32)).setWidth 32 - 4#32) = p.payload := by
  have hshort := p.short
  have hlen : ((Rtl8139.readU16 mem (rxBufferVirt + d.currentRxPtr + 2#32)).setWidth 32 -
      4#32 : Word).toNat = p.bytes.length - 4 := by
    rw [BitVec.toNat_sub, BitVec.toNat_setWidth, h.readU16, BitVec.toNat_ofNat]
    omega
  rw [Rtl8139.packetBytes, hlen, Packet.payload]
  refine List.ext_getElem (by simp) fun i hi _ => ?_
  rw [List.length_map, List.length_range] at hi
  have hbyte := h.1 (i + 4) (by rw [Packet.stored_length]; omega)
  rw [List.getElem_map, List.getElem_range, List.getElem_take]
  have haddr : rxBufferVirt + d.currentRxPtr + 4#32 + BitVec.ofNat 32 i =
      rxBufferVirt + BitVec.ofNat 32 (d.currentRxPtr.toNat + (i + 4)) := by
    rw [add_comm i 4, addr_add, BitVec.ofNat_add, ← add_assoc]
  rw [haddr, hbyte]
  rfl

/-- `CAPR` is sixteen behind the driver's offset. -/
theorem toNat_capr {x : Word} (h : x.toNat < 2 ^ 16) :
    ((x - 16#32).setWidth 16 + 16#16).toNat = x.toNat := by
  rw [BitVec.toNat_add, BitVec.toNat_setWidth, BitVec.toNat_sub, BitVec.toNat_ofNat, BitVec.toNat_ofNat]
  omega

/-- The packet that lies at the driver's offset is passed on, and the offset is that of the next. -/
theorem receive_laid (hrx : status &&& 0x01#16 ≠ 0#16) (h : Laid mem d.currentRxPtr.toNat (p :: ps) e)
    (hlt : d.currentRxPtr.toNat < 8192) (hmod : d.currentRxPtr.toNat % 4 = 0) (hspan : p.span < 8192)
    (hwhole : 4 ≤ p.bytes.length) :
    (receive mem status d).currentRxPtr.toNat = (d.currentRxPtr.toNat + p.span) % 8192 ∧
      ((receive mem status d).handled.drop d.handled.length).map (packetBytes mem) = [p.payload] ∧
      ((receive mem status d).capr + 16#16).toNat = (receive mem status d).currentRxPtr.toNat := by
  have hread := h.readU16
  have hne := h.2.1
  have hptr := currentRxPtr_handler hrx hread hlt
  rw [round_up p hmod] at hptr
  have hptr' : (receive mem status d).currentRxPtr.toNat = (d.currentRxPtr.toNat + p.span) % 8192 := by
    have hsame : (receive mem status d).currentRxPtr = (rtl8139Handler mem status d).currentRxPtr := by
      rw [rtl8139Handler_eq, receive, receive, if_pos hrx, if_pos hrx]
      rfl
    rw [hsame, hptr]
    split <;> omega
  refine ⟨hptr', ?_, ?_⟩
  · rw [receive, if_pos hrx]
    dsimp only
    rw [List.drop_left, List.map_singleton, h.packetBytes hwhole]
  · have hcapr : (receive mem status d).capr =
        ((receive mem status d).currentRxPtr - 16#32).setWidth 16 := by
      rw [receive, if_pos hrx]
    rw [hcapr]
    exact toNat_capr (by omega)

end Receive

/-! ## Runs -/

/-- The packets that have not been passed on. -/
def Machine.pending (s : Machine) : List Packet := s.arrived.drop s.passed.length

/-- One packet for the bit of a status, and none without it. -/
def packets (status : BitVec 16) : ℕ := if status &&& 0x01#16 ≠ 0#16 then 1 else 0

/-- The bit stands for the packet that has come since the last acknowledgement; before it returns, the handler
has that bit, and one packet to pass on for it. -/
def Machine.Counted (s : Machine) : Prop :=
  match s.phase with
  | .idle => s.before = s.passed.length ∧ s.arrived.length = s.before + packets s.isr
  | .read status => s.before = s.passed.length ∧ s.arrived.length = s.before + packets status ∧
      packets s.isr = packets status
  | .acknowledged status => s.before = s.passed.length + packets status ∧
      s.arrived.length = s.before + packets s.isr

/-- Those passed on are the first that arrived; the others lie in the ring, from the driver's offset to
the card's. -/
structure Queued (s : Machine) : Prop where
  passed : s.passed = (s.arrived.take s.passed.length).map Packet.payload
  laid : Laid s.mem s.driver.currentRxPtr.toNat s.pending s.offset
  lt : s.driver.currentRxPtr.toNat < 8192
  aligned : s.driver.currentRxPtr.toNat % 4 = 0
  capr : (s.driver.capr + 16#16).toNat = s.driver.currentRxPtr.toNat
  room : (s.pending.map Packet.span).sum < 8192
  whole : ∀ p ∈ s.arrived, 4 ≤ p.bytes.length
  counted : s.Counted

section Packets

variable {x y : BitVec 16}

theorem packets_eq (x : BitVec 16) : packets x = (x.getLsbD 0).toNat := by
  rw [packets, BitVec.and_one_eq_setWidth_ofBool_getLsbD]
  cases x.getLsbD 0 <;> rfl

theorem packets_of_not (h : x &&& 0x01#16 = 0#16) : packets x = 0 := if_neg (not_not.mpr h)

/-- Another cause leaves the bit alone. -/
theorem packets_or (h : y &&& 0x01#16 = 0#16) : packets (x ||| y) = packets x := by
  have hy := packets_of_not h
  rw [packets_eq, Bool.toNat_eq_zero] at hy
  rw [packets_eq, packets_eq, BitVec.getLsbD_or, hy, Bool.or_false]

theorem packets_or_one : packets (x ||| 0x01#16) = 1 := by
  rw [packets_eq, BitVec.getLsbD_or, show (0x01#16).getLsbD 0 = true from rfl, Bool.or_true]
  rfl

/-- The acknowledgement clears the bit that was read. -/
theorem packets_and_not (h : packets x = packets y) : packets (x &&& ~~~y) = 0 := by
  rw [packets_eq, packets_eq] at h
  rw [packets_eq, BitVec.getLsbD_and, BitVec.getLsbD_not]
  cases hy : y.getLsbD 0 with
  | true => rw [Bool.not_true, Bool.and_false, Bool.and_false, Bool.toNat_false]
  | false =>
    rw [hy] at h
    rw [Bool.toNat_eq_zero.mp h, Bool.false_and, Bool.toNat_false]

end Packets

namespace Queued

variable {s : Machine} {p : Packet} {status : BitVec 16}

theorem drained (h : Queued s) : Drained s := by
  intro hidle
  have hcounted := h.counted
  rw [Machine.Counted, hidle] at hcounted
  exact hcounted.1.symm ▸ h.passed

theorem init (mem : Word → Byte) : Queued (Machine.init mem) where
  passed := rfl
  laid := rfl
  lt := show 0 < 8192 by decide
  aligned := rfl
  capr := show (0xFFF0#16 + 16#16).toNat = 0 by decide
  room := show 0 < 8192 by decide
  whole := fun _ hp => absurd hp List.not_mem_nil
  counted := ⟨rfl, show 0 = 0 + packets 0#16 by decide⟩

theorem passed_le (h : Queued s) : s.passed.length ≤ s.arrived.length := by
  have hlen := congrArg List.length h.passed
  rw [List.length_map, List.length_take] at hlen
  omega

/-- The card knows what is unread. -/
theorem used_eq (h : Queued s) : s.used = (s.pending.map Packet.span).sum := by
  have hroom := h.room
  have hlt := h.lt
  rw [Machine.used, h.capr, h.laid.end_eq h.lt]
  omega

theorem offset_mod (h : Queued s) : s.offset % 4 = 0 := by
  have hsum : (s.pending.map Packet.span).sum % 4 = 0 := by
    refine Nat.mod_eq_zero_of_dvd (List.dvd_sum fun n hn => ?_)
    obtain ⟨q, -, rfl⟩ := List.mem_map.mp hn
    exact Nat.dvd_of_mod_eq_zero q.span_mod
  have haligned := h.aligned
  rw [h.laid.end_eq h.lt]
  omega

/-- A packet that has an interrupt of its own. -/
theorem counted_arrive (h : Queued s) (hbefore : s.arrived.length = s.before)
    (hphase : ∀ status, s.phase ≠ .read status) {t : Machine} (hisr : t.isr = s.isr ||| 0x01#16)
    (harrived : t.arrived = s.arrived ++ [p]) (hsame : t.phase = s.phase ∧ t.before = s.before ∧
      t.passed = s.passed) : t.Counted := by
  obtain ⟨hphase', hbefore', hpassed⟩ := hsame
  have hlen : t.arrived.length = s.before + 1 := by
    rw [harrived, List.length_append, hbefore]
    rfl
  have hcounted := h.counted
  rw [Machine.Counted] at hcounted ⊢
  rw [hphase', hbefore', hpassed, hisr, packets_or_one]
  cases hcase : s.phase with
  | idle =>
    rw [hcase] at hcounted
    exact ⟨hcounted.1, hlen⟩
  | read status => exact absurd hcase (hphase status)
  | acknowledged status =>
    rw [hcase] at hcounted
    exact ⟨hcounted.1, hlen⟩

/-- Another cause for an interrupt. -/
theorem cause (h : Queued s) {bits : BitVec 16} (hbits : bits &&& 0x01#16 = 0#16) :
    Queued { s with isr := s.isr ||| bits } := by
  refine { h with counted := ?_ }
  have hcounted := h.counted
  rw [Machine.Counted] at hcounted ⊢
  dsimp only
  rwa [packets_or hbits]

theorem arrive (h : Queued s) (hwhole : 4 ≤ p.bytes.length) (hapart : Apart s (.arrive p hwhole)) :
    Queued (s.step (.arrive p hwhole)) := by
  rw [Machine.step]
  split
  · next hroom =>
    obtain ⟨hbefore, hphase, hend⟩ := hapart hroom
    rw [round_up p h.offset_mod] at hend
    -- the card has room, and the packet is queued behind those pending
    rw [h.used_eq] at hroom
    have hpending : (s.arrived ++ [p]).drop s.passed.length = s.pending ++ [p] :=
      List.drop_append_of_le_length h.passed_le
    have hnext : nextOffset s.offset p.bytes.length = (s.offset + p.span) % 8192 := by
      rw [nextOffset, round_up p h.offset_mod]
    exact
      { passed := by
          rw [List.take_append_of_le_length h.passed_le]
          exact h.passed
        laid := by
          change Laid (s.write p).mem _ ((s.arrived ++ [p]).drop s.passed.length) (s.write p).offset
          rw [hpending, System.write, hnext]
          exact h.laid.write h.lt hroom hend
        lt := h.lt
        aligned := h.aligned
        capr := h.capr
        room := by
          change (((s.arrived ++ [p]).drop s.passed.length).map Packet.span).sum < 8192
          rw [hpending, List.map_append, List.sum_append, List.map_singleton, List.sum_singleton]
          exact hroom
        whole := by
          intro q hq
          rcases List.mem_append.mp hq with hq | hq
          · exact h.whole q hq
          · exact List.mem_singleton.mp hq ▸ hwhole
        counted := h.counted_arrive hbefore hphase rfl rfl ⟨rfl, rfl, rfl⟩ }
  · -- a packet that does not fit is dropped
    exact h.cause (by decide)

/-- The packet for the bit is passed on. -/
theorem receive (h : Queued s) (hphase : s.phase = .acknowledged status) : Queued (s.step .handler) := by
  have hcounted := h.counted
  rw [Machine.Counted, hphase] at hcounted
  obtain ⟨hbefore, harrived⟩ := hcounted
  rw [Machine.step, hphase]
  by_cases hrx : status &&& 0x01#16 = 0#16
  · -- no bit, and no packet
    rw [packets_of_not hrx, add_zero] at hbefore
    simp only [receive_of_not hrx, List.drop_length, List.map_nil, List.append_nil]
    exact { h with counted := ⟨hbefore, harrived⟩ }
  · rw [packets, if_pos hrx] at hbefore
    -- there is a packet, and it lies at the driver's offset
    obtain ⟨p, ps, hpending⟩ : ∃ p ps, s.pending = p :: ps := by
      refine List.exists_cons_of_length_pos ?_
      rw [Machine.pending, List.length_drop]
      omega
    have hmem : p ∈ s.arrived := List.mem_of_mem_drop (hpending ▸ List.mem_cons_self)
    have hroom := h.room
    rw [hpending, List.map_cons, List.sum_cons] at hroom
    obtain ⟨hptr, hpassed, hcapr⟩ := receive_laid hrx (hpending ▸ h.laid) h.lt h.aligned (by omega)
      (h.whole p hmem)
    have hrest : s.arrived.drop (s.passed ++ [p.payload]).length = ps := by
      rw [List.length_append, List.length_singleton, ← List.drop_drop]
      change s.pending.drop 1 = ps
      rw [hpending]
      rfl
    dsimp only
    rw [hpassed]
    exact
      { passed := by
          change s.passed ++ _ = (s.arrived.take (s.passed ++ [p.payload]).length).map Packet.payload
          rw [List.length_append, List.length_singleton, List.take_add, List.map_append, ← h.passed]
          change _ = s.passed ++ (s.pending.take 1).map Packet.payload
          rw [hpending]
          rfl
        laid := by
          change Laid s.mem (Rtl8139.receive s.mem status s.driver).currentRxPtr.toNat
            (s.arrived.drop (s.passed ++ [p.payload]).length) s.offset
          rw [hrest, hptr]
          exact (hpending ▸ h.laid : Laid _ _ (p :: ps) _).2.2
        lt := hptr ▸ Nat.mod_lt _ (by decide)
        aligned := by
          have haligned := h.aligned
          have hspan := p.span_mod
          change (Rtl8139.receive s.mem status s.driver).currentRxPtr.toNat % 4 = 0
          rw [hptr]
          omega
        capr := hcapr
        room := by
          change ((s.arrived.drop (s.passed ++ [p.payload]).length).map Packet.span).sum < 8192
          rw [hrest]
          omega
        whole := h.whole
        counted := by
          refine ⟨?_, harrived⟩
          rw [List.length_append]
          exact hbefore }

theorem handler (h : Queued s) : Queued (s.step .handler) := by
  have hcounted := h.counted
  cases hphase : s.phase with
  | idle =>
    rw [Machine.Counted, hphase] at hcounted
    rw [Machine.step, hphase]
    exact { h with counted := ⟨hcounted.1, hcounted.2, rfl⟩ }
  | read status =>
    rw [Machine.Counted, hphase] at hcounted
    obtain ⟨hbefore, harrived, hisr⟩ := hcounted
    rw [Machine.step, hphase]
    refine { h with counted := ⟨harrived.trans (by rw [hbefore]), ?_⟩ }
    dsimp only
    rw [packets_and_not hisr, add_zero]
  | acknowledged status => exact h.receive hphase

theorem step (h : Queued s) {e : Signal} (hapart : Apart s e) : Queued (s.step e) := by
  cases e with
  | arrive p hwhole => exact h.arrive hwhole hapart
  | cause bits hbits => exact h.cause hbits
  | handler => exact h.handler

end Queued

/-- **Receive interrupts.** In a run of arrivals, other causes and steps of the handler, in which at most one
packet arrives between an acknowledgement and the next reading of the status, none between that and the
acknowledgement, and none that is stored ends at the end of the ring, each return of the handler leaves all
packets that had arrived before its acknowledgement passed on, once and in their order. -/
theorem ring_drained (mem : Word → Byte) (es : List Signal)
    (h : Steps Machine.step Apart (Machine.init mem) es) :
    Along Machine.step Drained (Machine.init mem) es :=
  (along_of_steps (I := fun _ => True) (fun _ => trivial) (fun _ hs hapart => hs.step hapart) trivial
    (Queued.init mem) h).imp Queued.drained

/-- A packet of the least length on the wire. -/
def smallest : Packet := ⟨1#16, List.replicate 64 0#8, by decide⟩

/-- Two packets, with an interrupt for each; the second one arrives before the first handler has returned. -/
theorem ring_drained_apart :
    Along Machine.step Drained (Machine.init fun _ => 0#8)
      [.arrive smallest (by decide), .handler, .handler, .arrive smallest (by decide), .handler,
        .handler, .handler, .handler] := by
  refine ring_drained _ _ ⟨?_, trivial, trivial, ?_, trivial, trivial, trivial, trivial, trivial⟩
  · exact fun _ => ⟨rfl, nofun, (by decide : (0 + 4 + 64 + 3) / 4 * 4 ≠ 8192)⟩
  · exact fun _ => ⟨rfl, nofun, (by decide : (68 + 4 + 64 + 3) / 4 * 4 ≠ 8192)⟩

/-- Two packets before one interrupt: the second is not passed on. -/
theorem second_waits :
    ¬Along Machine.step Drained (Machine.init fun _ => 0#8)
      [.arrive smallest (by decide), .arrive smallest (by decide), .handler, .handler,
        .handler] := by
  intro h
  have hlen := congrArg List.length (h.final rfl)
  exact absurd hlen (by decide)

end PekerOS.Drivers.Rtl8139
