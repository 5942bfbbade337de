import PekerOS.Net.Segments

/-!
# What a call of `socket_sendto` sends

The length of a message is an `uint32_t`. On its way to the card it is cast to an `int` or to a
`uint16_t`, the lengths of three headers are added to it, two buffers of that size are allocated, and
the driver is given a frame that it may refuse. Here is each length that is computed on the way, each
buffer that is written to, and each frame that a driver takes, for both kinds of sockets. None of the
functions below `socket_sendto` returns a result.

## Main definitions

* `Effect`: what happens on the way
* `rtl8139SendPacket`, `e1000SendPacket`, `netSendPacket`, `netSendIpv4`, `netSendUdp`,
  `tcpSendSegment`, `socketSendto`: the functions, with their effects
* `Reports`: the result of a call is what has been sent
* `Sendable`: the calls that report what they send

## Main results

* `sendto_reports_iff`: a call reports what it sends exactly if it is one of these
-/

namespace PekerOS.Net.Sending

/-- A length that is computed, with its true value; `n` bytes that are stored where a buffer has room
for `room`; a frame that a driver takes. -/
inductive Effect
  | length (val computed : ℤ)
  | store (n room : ℕ)
  | frame (bytes : List Byte)

/-- The driver that is registered; `txCur` is the slot that the E1000 takes next. -/
inductive Nic
  | rtl8139
  | e1000 (txCur : ℕ)

/-- What a call depends on besides the socket: the driver, the variables of `net.c`, and what the two
calls of `kmalloc` return, that for the segment or datagram and that for the frame. -/
structure Env where
  nic : Option Nic
  host : Host
  outer : Word
  inner : Word

/-! ## The functions -/

/-- `rtl8139_send_packet`; a slot is 2048 bytes. -/
def rtl8139SendPacket (data : List Byte) (len : Word) : List Effect :=
  if 1792 < len.toInt then [] else [.store len.toNat 2048, .frame data]

/-- What is mapped of a transmit slot of the E1000; 128 KB are, from the first slot on. -/
def slotRoom (txCur : ℕ) : ℕ := min 2048 (128 * 1024 - txCur * 2048)

/-- `e1000_send_packet`; the length in the descriptor is a `uint16_t`. -/
def e1000SendPacket (txCur : ℕ) (data : List Byte) (len : Word) : List Effect :=
  [.store len.toNat (slotRoom txCur), .length len.toInt (len.setWidth 16).toNat, .frame data]

/-- `net_send_packet` -/
def netSendPacket (env : Env) (data : List Byte) (len : Word) : List Effect :=
  match env.nic with
  | none => []
  | some .rtl8139 => rtl8139SendPacket data len
  | some (.e1000 txCur) => e1000SendPacket txCur data len

/-- `net_send_ipv4`; the length of the payload is an `int`. -/
def netSendIpv4 (env : Env) (destIp : Word) (protocol : Byte) (payload : List Byte) : List Effect :=
  let payloadLen := BitVec.ofNat 32 payload.length
  let totalLen := 34#32 + payloadLen
  .length (34 + payloadLen.toInt) totalLen.toInt ::
    if env.inner = 0#32 then []
    else
      .length (20 + payloadLen.toInt) ((20#32 + payloadLen).setWidth 16).toNat ::
        .store 34 totalLen.toNat :: .store payloadLen.toNat (totalLen.toNat - 34) ::
          netSendPacket env ((Net.netSendIpv4 env.host destIp protocol payload).take totalLen.toNat)
            totalLen

/-- The header of a datagram; there is no checksum. -/
def udpHeader (srcPort destPort : Port) (length : BitVec 16) : List Byte :=
  be16 srcPort ++ be16 destPort ++ be16 length ++ be16 0#16

/-- The bytes of a message. -/
def bytesOf (message : ℕ → Byte) (n : ℕ) : List Byte := (List.range n).map message

/-- `net_send_udp`; the length of the payload is an `int`. -/
def netSendUdp (env : Env) (destIp : Word) (destPort srcPort : Port) (payload : ℕ → Byte)
    (payloadLen : Word) : List Effect :=
  let udpLen := 8#32 + payloadLen
  .length (8 + payloadLen.toInt) udpLen.toInt ::
    if env.outer = 0#32 then []
    else
      .length udpLen.toInt (udpLen.setWidth 16).toNat :: .store 8 udpLen.toNat ::
        .store payloadLen.toNat (udpLen.toNat - 8) ::
          netSendIpv4 env destIp 17#8
            ((udpHeader srcPort destPort (udpLen.setWidth 16) ++
              bytesOf payload payloadLen.toNat).take udpLen.toNat)

/-- The segment of a control block. -/
def segment (pcb : Pcb) (flags : Byte) (data : List Byte) : Sent :=
  ⟨pcb.localIp, pcb.remoteIp, pcb.localPort, pcb.remotePort, pcb.sndNxt, pcb.rcvNxt, flags, pcb.windowSize,
    data⟩

/-- `tcp_send_segment`, up to the update of `snd_nxt`. The result of `kmalloc` is not checked. -/
def tcpSendSegment (env : Env) (pcb : Pcb) (flags : Byte) (data : ℕ → Byte) (dataLen : BitVec 16) :
    List Effect :=
  let totalLen := 20#16 + dataLen
  let room := if env.outer = 0#32 then 0 else totalLen.toNat
  .length (20 + dataLen.toNat) totalLen.toNat :: .store 20 room :: .store dataLen.toNat (room - 20) ::
    netSendIpv4 env pcb.remoteIp 6#8 (tcpSegment (segment pcb flags (bytesOf data dataLen.toNat)))

/-- The result of a call, the state after it, and its effects. -/
structure Outcome where
  ret : ℤ
  net : NetState
  effects : List Effect

/-- The destination of a datagram. -/
def destination (s : Socket) (destAddr : Option (Word × Port)) : Option (Word × Port) :=
  match destAddr with
  | some dest => some dest
  | none => if s.remoteAddr ≠ 0#32 then some (s.remoteAddr, s.remotePort) else none

/-- `socket_sendto`, with the address and the port in the `sockaddr` it is given, if there is one. -/
def socketSendto (env : Env) (net : NetState) (k : ℕ) (message : ℕ → Byte) (length : Word)
    (destAddr : Option (Word × Port)) : Outcome :=
  let s := net.sockets.get k
  let after := Net.socketSendto net k (bytesOf message length.toNat)
  if s.type = sockDgram then
    match destination s destAddr with
    | none => ⟨-1, after, []⟩
    | some (ip, port) =>
      -- the length becomes an `int`
      ⟨length.toInt, after, .length length.toNat length.toInt ::
        netSendUdp env ip port s.localPort message length⟩
  else
    match streamPcb net k with
    | none => ⟨-1, after, []⟩
    | some p =>
      if (net.heap p).state = .established then
        -- the length becomes a `uint16_t`
        ⟨length.toInt, after, .length length.toNat (length.setWidth 16).toNat ::
          tcpSendSegment env (net.heap p) (tcpAck ||| tcpPsh) message (length.setWidth 16)⟩
      else ⟨-1, after, []⟩

/-! ## What is promised -/

/-- The frames that the driver has taken. -/
def frames (effects : List Effect) : List (List Byte) :=
  effects.filterMap fun
    | .frame bytes => some bytes
    | _ => none

/-- The length field of a datagram. -/
def udpLength (frame : List Byte) : ℕ :=
  256 * ((ipPayload frame).getD 4 0#8).toNat + ((ipPayload frame).getD 5 0#8).toNat

/-- The length of the header of a segment. -/
def tcpHeaderLen (frame : List Byte) : ℕ := ((ipPayload frame).getD 12 0#8).toNat / 16 * 4

/-- The data that a receiver finds in a frame. -/
def carried (frame : List Byte) : List Byte :=
  (ipPayload frame).drop (if ipByte frame 9 = 17 then 8 else tcpHeaderLen frame)

/-- The length fields of a frame are the true lengths. -/
structure LengthsTrue (frame : List Byte) : Prop where
  ip : 14 + ipTotalLen frame = frame.length
  udp : ipByte frame 9 = 17 → 34 + udpLength frame = frame.length
  tcp : ipByte frame 9 ≠ 17 → 34 + tcpHeaderLen frame + (carried frame).length = frame.length

/-- No length is wrapped, and nothing is stored outside of a buffer. -/
structure Clean (effects : List Effect) : Prop where
  noWrap : ∀ val computed, .length val computed ∈ effects → computed = val
  inBuffer : ∀ n room, .store n room ∈ effects → n ≤ room

/-- A call does nothing wrong on the way, and a result that is not negative is the number of bytes that
have been sent. -/
structure Reports (net : NetState) (k : ℕ) (message : ℕ → Byte) (r : Outcome) : Prop where
  clean : Clean r.effects
  sent : 0 ≤ r.ret → (frames r.effects).flatMap carried = bytesOf message r.ret.toNat
  lengths : 0 ≤ r.ret → ∀ frame ∈ frames r.effects, LengthsTrue frame
  sndNxt : 0 ≤ r.ret → ∀ p, streamPcb net k = some p →
    (r.net.heap p).sndNxt = (net.heap p).sndNxt + BitVec.ofInt 32 r.ret

/-! ## When it is kept -/

/-- The longest frame that a driver sends. -/
def Nic.limit : Nic → ℕ
  | .rtl8139 => 1792
  | .e1000 txCur => slotRoom txCur

/-- There is a buffer for the frame, and a driver that sends frames of that length. -/
def Env.Sends (env : Env) (len : ℕ) : Prop :=
  env.inner ≠ 0#32 ∧ ∃ nic, env.nic = some nic ∧ len ≤ nic.limit

/-- No frame is handed to a driver. -/
def Env.Silent (env : Env) : Prop := env.inner = 0#32 ∨ env.nic = none

/-- A datagram has no destination; or there is room for it in both buffers and its frame is sent; or it
is empty, and nothing is sent. A segment needs its buffer in any case. -/
def Sendable (env : Env) (net : NetState) (k : ℕ) (length : Word) (destAddr : Option (Word × Port)) :
    Prop :=
  if (net.sockets.get k).type = sockDgram then
    destination (net.sockets.get k) destAddr = none ∨
      (env.outer ≠ 0#32 ∧ env.Sends (42 + length.toNat)) ∨
        (length = 0#32 ∧ (env.outer = 0#32 ∨ env.Silent))
  else
    ∀ p, streamPcb net k = some p → (net.heap p).state = .established →
      env.outer ≠ 0#32 ∧ (env.Sends (54 + length.toNat) ∨ length = 0#32 ∧ env.Silent)

section Effects

variable {val computed : ℤ} {n room : ℕ} {bytes : List Byte} {es : List Effect}

@[simp] theorem frames_nil : frames [] = [] := rfl
@[simp] theorem frames_length : frames (.length val computed :: es) = frames es := rfl
@[simp] theorem frames_store : frames (.store n room :: es) = frames es := rfl
@[simp] theorem frames_frame : frames (.frame bytes :: es) = bytes :: frames es := rfl

@[simp] theorem clean_nil : Clean [] := ⟨nofun, nofun⟩

@[simp] theorem clean_length : Clean (.length val computed :: es) ↔ computed = val ∧ Clean es := by
  constructor
  · intro h
    exact ⟨h.noWrap _ _ List.mem_cons_self, fun v c hmem => h.noWrap v c (List.mem_cons_of_mem _ hmem),
      fun n room hmem => h.inBuffer n room (List.mem_cons_of_mem _ hmem)⟩
  · rintro ⟨heq, h⟩
    refine ⟨fun v c hmem => ?_, fun n room hmem => ?_⟩
    · rcases List.mem_cons.mp hmem with hhead | htail
      · cases hhead
        exact heq
      · exact h.noWrap v c htail
    · exact h.inBuffer n room ((List.mem_cons.mp hmem).resolve_left nofun)

@[simp] theorem clean_store : Clean (.store n room :: es) ↔ n ≤ room ∧ Clean es := by
  constructor
  · intro h
    exact ⟨h.inBuffer _ _ List.mem_cons_self, fun v c hmem => h.noWrap v c (List.mem_cons_of_mem _ hmem),
      fun n room hmem => h.inBuffer n room (List.mem_cons_of_mem _ hmem)⟩
  · rintro ⟨hle, h⟩
    refine ⟨fun v c hmem => ?_, fun m room' hmem => ?_⟩
    · exact h.noWrap v c ((List.mem_cons.mp hmem).resolve_left nofun)
    · rcases List.mem_cons.mp hmem with hhead | htail
      · cases hhead
        exact hle
      · exact h.inBuffer m room' htail

@[simp] theorem clean_frame : Clean (.frame bytes :: es) ↔ Clean es := by
  constructor
  · intro h
    exact ⟨fun v c hmem => h.noWrap v c (List.mem_cons_of_mem _ hmem),
      fun n room hmem => h.inBuffer n room (List.mem_cons_of_mem _ hmem)⟩
  · intro h
    exact ⟨fun v c hmem => h.noWrap v c ((List.mem_cons.mp hmem).resolve_left nofun),
      fun n room hmem => h.inBuffer n room ((List.mem_cons.mp hmem).resolve_left nofun)⟩

end Effects

/-! ## The frame -/

section Ipv4

variable {env : Env} {destIp : Word} {protocol : Byte} {payload : List Byte} {n : ℕ}

theorem toInt_ofNat (h : n < 2 ^ 31) : (BitVec.ofNat 32 n).toInt = n := by
  rw [BitVec.toInt_eq_toNat_of_lt, BitVec.toNat_ofNat]
  · omega
  · rw [BitVec.toNat_ofNat]
    omega

theorem toNat_ofNat (h : n < 2 ^ 31) : (BitVec.ofNat 32 n).toNat = n := by
  rw [BitVec.toNat_ofNat]
  omega

theorem toNat_setWidth_ofNat : ((BitVec.ofNat 32 n).setWidth 16).toNat = n % 65536 := by
  rw [BitVec.toNat_setWidth, BitVec.toNat_ofNat]
  omega

theorem length_frame (host : Host) (destIp : Word) (protocol : Byte) (payload : List Byte) :
    (Net.netSendIpv4 host destIp protocol payload).length = 34 + payload.length := by
  simp [Net.netSendIpv4, ipv4Header, be16, le16, ipBytes]
  omega

/-- The effects of `net_send_ipv4` for a payload that is not huge. -/
theorem netSendIpv4_eq (h : payload.length < 65536) :
    netSendIpv4 env destIp protocol payload =
      .length (34 + payload.length) (34 + payload.length) ::
        if env.inner = 0#32 then []
        else
          .length (20 + payload.length) ((20 + payload.length) % 65536 : ℕ) ::
            .store 34 (34 + payload.length) :: .store payload.length payload.length ::
              netSendPacket env (Net.netSendIpv4 env.host destIp protocol payload)
                (BitVec.ofNat 32 (34 + payload.length)) := by
  have htotal : 34#32 + BitVec.ofNat 32 payload.length = BitVec.ofNat 32 (34 + payload.length) :=
    (BitVec.ofNat_add 34 payload.length).symm
  have hip : 20#32 + BitVec.ofNat 32 payload.length = BitVec.ofNat 32 (20 + payload.length) :=
    (BitVec.ofNat_add 20 payload.length).symm
  have hwhole : (Net.netSendIpv4 env.host destIp protocol payload).take (34 + payload.length) =
      Net.netSendIpv4 env.host destIp protocol payload := by
    rw [← length_frame env.host destIp protocol payload, List.take_length]
  simp only [netSendIpv4]
  rw [htotal, hip, toNat_setWidth_ofNat, toInt_ofNat (by omega), toInt_ofNat (by omega),
    toNat_ofNat (by omega), toNat_ofNat (by omega), hwhole, Nat.add_sub_cancel_left]
  norm_cast

/-- A frame that is not sent. -/
theorem netSendIpv4_quiet (h : payload.length < 65536) (hnot : ¬env.Sends (34 + payload.length))
    (hclean : Clean (netSendIpv4 env destIp protocol payload)) :
    frames (netSendIpv4 env destIp protocol payload) = [] ∧
      (env.Silent ∨ 1792 < 34 + payload.length) := by
  rw [netSendIpv4_eq h] at hclean ⊢
  by_cases hinner : env.inner = 0#32
  · rw [if_pos hinner]
    exact ⟨rfl, .inl (.inl hinner)⟩
  rw [if_neg hinner] at hclean ⊢
  simp only [frames_length, frames_store]
  rw [clean_length, clean_length, clean_store, clean_store] at hclean
  cases hnic : env.nic with
  | none =>
    rw [netSendPacket, hnic]
    exact ⟨rfl, .inl (.inr hnic)⟩
  | some nic =>
    have hlong : ¬34 + payload.length ≤ nic.limit := fun hle => hnot ⟨hinner, nic, hnic, hle⟩
    cases nic with
    | rtl8139 =>
      have hrefused : 1792 < 34 + payload.length := Nat.lt_of_not_le hlong
      rw [netSendPacket, hnic]
      dsimp only
      rw [rtl8139SendPacket, toInt_ofNat (by omega), if_pos (by omega)]
      exact ⟨rfl, .inr hrefused⟩
    | e1000 txCur =>
      -- the driver stores the frame all the same
      rw [netSendPacket, hnic] at hclean
      dsimp only at hclean
      rw [e1000SendPacket, clean_store, toNat_ofNat (by omega)] at hclean
      exact absurd hclean.2.2.2.2.1 hlong

theorem netSendIpv4_silent (destIp : Word) (protocol : Byte) (h : payload.length < 65516)
    (hsilent : env.Silent) :
    Clean (netSendIpv4 env destIp protocol payload) ∧
      frames (netSendIpv4 env destIp protocol payload) = [] := by
  rw [netSendIpv4_eq (by omega)]
  by_cases hinner : env.inner = 0#32
  · rw [if_pos hinner]
    simp
  · have hnic := hsilent.resolve_left hinner
    rw [if_neg hinner, netSendPacket, hnic, Nat.mod_eq_of_lt (by omega)]
    simp

/-- No driver sends more than a slot. -/
theorem Env.Sends.le {len : ℕ} (h : env.Sends len) : len ≤ 2048 := by
  obtain ⟨-, nic, -, hle⟩ := h
  refine hle.trans ?_
  cases nic with
  | rtl8139 => exact (by decide : 1792 ≤ 2048)
  | e1000 txCur => exact Nat.min_le_left _ _

/-- A frame that is sent. -/
theorem netSendIpv4_sends (destIp : Word) (protocol : Byte) (hsends : env.Sends (34 + payload.length)) :
    Clean (netSendIpv4 env destIp protocol payload) ∧
      frames (netSendIpv4 env destIp protocol payload) =
        [Net.netSendIpv4 env.host destIp protocol payload] := by
  have hslot := hsends.le
  obtain ⟨hinner, nic, hnic, hle⟩ := hsends
  rw [netSendIpv4_eq (by omega), if_neg hinner, netSendPacket, hnic, Nat.mod_eq_of_lt (by omega)]
  cases nic with
  | rtl8139 =>
    have hle : 34 + payload.length ≤ 1792 := hle
    dsimp only
    rw [rtl8139SendPacket, toInt_ofNat (by omega), toNat_ofNat (by omega), if_neg (by omega)]
    simp
    omega
  | e1000 txCur =>
    have hle : 34 + payload.length ≤ slotRoom txCur := hle
    dsimp only
    rw [e1000SendPacket, toInt_ofNat (by omega), toNat_ofNat (by omega), toNat_setWidth_ofNat,
      Nat.mod_eq_of_lt (by omega)]
    simp [hle]

end Ipv4

/-! ## What a receiver finds -/

section Receiver

variable {host : Host} {destIp : Word} {protocol : Byte} {payload : List Byte}

@[simp] theorem length_bytesOf (message : ℕ → Byte) (n : ℕ) : (bytesOf message n).length = n := by
  simp [bytesOf]

/-- The datagram that is handed to `net_send_ipv4`. -/
def datagram (srcPort destPort : Port) (message : ℕ → Byte) (n : ℕ) : List Byte :=
  udpHeader srcPort destPort (BitVec.ofNat 16 (8 + n)) ++ bytesOf message n

theorem length_datagram (srcPort destPort : Port) (message : ℕ → Byte) (n : ℕ) :
    (datagram srcPort destPort message n).length = 8 + n := by
  rw [datagram, List.length_append, length_bytesOf]
  rfl


theorem ipByte_protocol : ipByte (Net.netSendIpv4 host destIp protocol payload) 9 = protocol.toNat := by
  rw [ipByte_eq, frame_drop]
  simp [frameHeader, ipv4Header, be16]

/-- A payload whose length fits. -/
theorem ipPayload_whole (h : payload.length < 65516) :
    ipPayload (Net.netSendIpv4 host destIp protocol payload) = payload ∧
      14 + ipTotalLen (Net.netSendIpv4 host destIp protocol payload) = 34 + payload.length := by
  rw [ipPayload_frame, ipTotalLen_frame, Nat.mod_eq_of_lt (by omega), Nat.add_sub_cancel_left,
    List.take_length]
  exact ⟨rfl, by omega⟩

/-- A datagram is found in its frame. -/
theorem udp_received (srcPort destPort : Port) (message : ℕ → Byte) {n : ℕ} (h : n < 65508) :
    let frame := Net.netSendIpv4 host destIp 17#8 (datagram srcPort destPort message n)
    carried frame = bytesOf message n ∧ LengthsTrue frame := by
  intro frame
  have hlen := length_datagram srcPort destPort message n
  obtain ⟨hpayload, htotal⟩ : ipPayload frame = _ ∧ 14 + ipTotalLen frame = _ :=
    ipPayload_whole (by omega)
  have hproto : ipByte frame 9 = 17 := ipByte_protocol
  have hframe : frame.length = 34 + (8 + n) := (length_frame _ _ _ _).trans (by rw [hlen])
  have hfield : udpLength frame = 8 + n := by
    rw [udpLength, hpayload]
    refine (be16_toNat _).trans ?_
    rw [BitVec.toNat_ofNat, Nat.mod_eq_of_lt (by omega)]
  refine ⟨?_, ⟨by rw [htotal, hframe, hlen], fun _ => by rw [hfield, hframe], fun h => absurd hproto h⟩⟩
  rw [carried, if_pos hproto, hpayload]
  rfl

/-- A segment is found in its frame. -/
theorem tcp_received (seg : Sent) (h : seg.data.length ≤ 65495) :
    carried (segmentFrame host seg) = seg.data ∧ LengthsTrue (segmentFrame host seg) := by
  have hsegment := tcpSegment_eq seg (by omega)
  have hlen : (tcpSegment seg).length = 20 + seg.data.length := by rw [hsegment, length_tcpBuffer]
  obtain ⟨hpayload, htotal⟩ : ipPayload (segmentFrame host seg) = _ ∧
      14 + ipTotalLen (segmentFrame host seg) = _ := ipPayload_whole (by omega)
  have hproto : ipByte (segmentFrame host seg) 9 ≠ 17 := by
    rw [segmentFrame, ipByte_protocol]
    decide
  have hframe : (segmentFrame host seg).length = 34 + (20 + seg.data.length) :=
    (length_frame _ _ _ _).trans (by rw [hlen])
  have hoffset (checksum : BitVec 16) : (tcpBuffer seg checksum).getD 12 0#8 = 0x50#8 := by
    simp [tcpBuffer, be16, be32]
  have hheader : tcpHeaderLen (segmentFrame host seg) = 20 := by
    rw [tcpHeaderLen, hpayload, hsegment, hoffset]
    rfl
  have hcarried : carried (segmentFrame host seg) = seg.data := by
    rw [carried, if_neg hproto, hheader, hpayload, hsegment]
    rfl
  refine ⟨hcarried, ⟨by rw [htotal, hframe, hlen], fun h => absurd h hproto, fun _ => ?_⟩⟩
  rw [hheader, hcarried, hframe]
  omega

end Receiver

/-! ## The calls -/

section Calls

variable {env : Env} {net : NetState} {k : ℕ} {message : ℕ → Byte} {length : Word}

theorem bytesOf_eq_nil {n : ℕ} (h : bytesOf message n = []) : n = 0 := by
  rw [← length_bytesOf message n, h]
  rfl

/-- One frame is sent, with the message in it. -/
theorem reports_of_frame {after : NetState} {es : List Effect} {n : ℕ} {frame : List Byte}
    (hclean : Clean es) (hframes : frames es = [frame]) (hcarried : carried frame = bytesOf message n)
    (hlengths : LengthsTrue frame)
    (hnext : ∀ p, streamPcb net k = some p →
      (after.heap p).sndNxt = (net.heap p).sndNxt + BitVec.ofInt 32 n) :
    Reports net k message ⟨n, after, es⟩ := by
  refine ⟨hclean, fun _ => ?_, fun _ bytes hbytes => ?_, fun _ => hnext⟩
  · rw [hframes, List.flatMap_singleton, hcarried, Int.toNat_natCast]
  · rw [hframes, List.mem_singleton] at hbytes
    exact hbytes ▸ hlengths

/-- Nothing is sent, and there is nothing to send. -/
theorem reports_of_silent {after : NetState} {es : List Effect} {n : ℕ} (hclean : Clean es)
    (hframes : frames es = []) (hn : n = 0)
    (hnext : ∀ p, streamPcb net k = some p →
      (after.heap p).sndNxt = (net.heap p).sndNxt + BitVec.ofInt 32 n) :
    Reports net k message ⟨n, after, es⟩ := by
  subst hn
  refine ⟨hclean, fun _ => ?_, fun _ bytes hbytes => ?_, fun _ => hnext⟩
  · rw [hframes]
    rfl
  · rw [hframes] at hbytes
    cases hbytes

/-- The effects of `net_send_udp` with a buffer, where no length is wrapped. -/
theorem netSendUdp_eq (destIp : Word) (destPort srcPort : Port) (houter : env.outer ≠ 0#32)
    (h : length.toNat < 65528) :
    netSendUdp env destIp destPort srcPort message length =
      .length (8 + length.toNat) (8 + length.toNat) :: .length (8 + length.toNat) (8 + length.toNat) ::
        .store 8 (8 + length.toNat) :: .store length.toNat length.toNat ::
          netSendIpv4 env destIp 17#8 (datagram srcPort destPort message length.toNat) := by
  have hint : length.toInt = length.toNat := by
    rw [BitVec.toInt_eq_toNat_of_lt]
    omega
  have hudp : 8#32 + length = BitVec.ofNat 32 (8 + length.toNat) := by
    rw [BitVec.ofNat_add, BitVec.ofNat_toNat, BitVec.setWidth_eq]
  have hfield : (BitVec.ofNat 32 (8 + length.toNat)).setWidth 16 = BitVec.ofNat 16 (8 + length.toNat) :=
    BitVec.setWidth_ofNat_of_le (by decide) _
  have hwhole : (datagram srcPort destPort message length.toNat).take (8 + length.toNat) =
      datagram srcPort destPort message length.toNat := by
    rw [← length_datagram srcPort destPort message, List.take_length]
  simp only [netSendUdp]
  rw [if_neg houter, hudp, hfield, ← datagram, toInt_ofNat (by omega), toNat_ofNat (by omega), hwhole,
    BitVec.toNat_ofNat, Nat.mod_eq_of_lt (by omega), Nat.add_sub_cancel_left, hint]
  norm_cast

/-- With a buffer, a length that is not wrapped fits in the header. -/
theorem short_of_clean {destIp : Word} {destPort srcPort : Port} (hint : length.toInt = length.toNat)
    (houter : env.outer ≠ 0#32) (hclean : Clean (netSendUdp env destIp destPort srcPort message length)) :
    length.toNat < 65528 := by
  simp only [netSendUdp, if_neg houter, clean_length] at hclean
  obtain ⟨hadd, hfield, -⟩ := hclean
  have hlt := ((8#32 + length).setWidth 16).isLt
  omega

/-- **Datagrams**: a call with a destination reports what it sends if it is sent, or if there is
nothing to send. -/
theorem dgram_reports_iff (ip : Word) (port srcPort : Port) (after : NetState)
    (htype : streamPcb net k = none) :
    Reports net k message ⟨length.toInt, after, .length length.toNat length.toInt ::
        netSendUdp env ip port srcPort message length⟩ ↔
      (env.outer ≠ 0#32 ∧ env.Sends (42 + length.toNat)) ∨
        (length = 0#32 ∧ (env.outer = 0#32 ∨ env.Silent)) := by
  constructor
  · intro h
    obtain ⟨hint, hclean⟩ := clean_length.mp h.clean
    have hsent : (frames (netSendUdp env ip port srcPort message length)).flatMap carried =
        bytesOf message length.toNat := by
      have hsent := h.sent (by rw [hint]; exact Int.natCast_nonneg _)
      rwa [hint, Int.toNat_natCast] at hsent
    -- without a frame the message is empty
    have hempty (hnone : frames (netSendUdp env ip port srcPort message length) = []) :
        length.toNat = 0 := by
      rw [hnone] at hsent
      exact bytesOf_eq_nil hsent.symm
    have hzero (h0 : length.toNat = 0) : length = 0#32 := BitVec.eq_of_toNat_eq h0
    by_cases houter : env.outer = 0#32
    · refine .inr ⟨hzero (hempty ?_), .inl houter⟩
      simp only [netSendUdp, if_pos houter, frames_length, frames_nil]
    -- a frame goes out, or nothing was left on the way and the message is empty
    by_cases hsends : env.Sends (42 + length.toNat)
    · exact .inl ⟨houter, hsends⟩
    have hshort := short_of_clean hint houter hclean
    have hlen := length_datagram srcPort port message length.toNat
    rw [netSendUdp_eq ip port srcPort houter hshort] at hclean hempty
    simp only [clean_length, clean_store] at hclean
    obtain ⟨hnone, hsilent⟩ := netSendIpv4_quiet (by omega) (by rwa [hlen, ← Nat.add_assoc]) hclean.2.2.2.2
    have h0 := hempty hnone
    exact .inr ⟨hzero h0, .inr (hsilent.resolve_right (by omega))⟩
  · rintro (⟨houter, hsends⟩ | ⟨rfl, hnone⟩)
    · have hlen := length_datagram srcPort port message length.toNat
      have hshort : length.toNat ≤ 2006 := by
        have := hsends.le
        omega
      have hint : length.toInt = length.toNat := by
        rw [BitVec.toInt_eq_toNat_of_lt]
        omega
      have hfits : env.Sends (34 + (datagram srcPort port message length.toNat).length) := by
        rwa [hlen, ← Nat.add_assoc]
      obtain ⟨hclean, hframes⟩ := netSendIpv4_sends ip 17#8 hfits
      obtain ⟨hcarried, hlengths⟩ : carried (Net.netSendIpv4 env.host ip 17#8
          (datagram srcPort port message length.toNat)) = _ ∧ LengthsTrue _ :=
        udp_received srcPort port message (by omega)
      rw [netSendUdp_eq ip port srcPort houter (by omega), hint]
      refine reports_of_frame (by simp [hclean]) (by simp [hframes]) hcarried hlengths fun p hp => ?_
      exact absurd (htype.symm.trans hp) nofun
    · -- the length 0 is returned for a message that nobody sends
      have hquiet : Clean (netSendUdp env ip port srcPort message 0#32) ∧
          frames (netSendUdp env ip port srcPort message 0#32) = [] := by
        by_cases houter : env.outer = 0#32
        · simp [netSendUdp, houter]
        · have hlen := length_datagram srcPort port message 0
          have hsmall : (datagram srcPort port message 0).length < 65516 := by omega
          obtain ⟨hclean, hframes⟩ := netSendIpv4_silent ip 17#8 hsmall (hnone.resolve_left houter)
          rw [netSendUdp_eq ip port srcPort houter (by decide)]
          simp only [BitVec.toNat_zero] at hclean hframes ⊢
          simp [hclean, hframes]
      refine reports_of_silent (by simp [hquiet.1]) (by simp [hquiet.2]) rfl fun p hp => ?_
      exact absurd (htype.symm.trans hp) nofun

/-- The segment that is handed to `net_send_ipv4`, where no length is wrapped. -/
theorem length_segment (pcb : Pcb) (flags : Byte) {n : ℕ} (h : n ≤ 65515) :
    (tcpSegment (segment pcb flags (bytesOf message n))).length = 20 + n := by
  have hdata : (segment pcb flags (bytesOf message n)).data.length = n := length_bytesOf message n
  rw [tcpSegment_eq _ (by omega), length_tcpBuffer, hdata]

/-- The effects of `tcp_send_segment` with a buffer, where no length is wrapped. -/
theorem tcpSendSegment_eq (pcb : Pcb) (flags : Byte) (houter : env.outer ≠ 0#32)
    (h : length.toNat < 65516) :
    tcpSendSegment env pcb flags message (length.setWidth 16) =
      .length (20 + length.toNat) (20 + length.toNat) :: .store 20 (20 + length.toNat) ::
        .store length.toNat length.toNat ::
          netSendIpv4 env pcb.remoteIp 6#8
            (tcpSegment (segment pcb flags (bytesOf message length.toNat))) := by
  have hdata : (length.setWidth 16).toNat = length.toNat := by
    rw [BitVec.toNat_setWidth]
    omega
  have htotal : (20#16 + length.setWidth 16).toNat = 20 + length.toNat := by
    rw [BitVec.toNat_add, hdata, BitVec.toNat_ofNat]
    omega
  simp only [tcpSendSegment]
  rw [if_neg houter, hdata, htotal, Nat.add_sub_cancel_left]
  norm_cast

/-- `snd_nxt` after a segment of up to 65535 bytes. -/
theorem sndNxt_sendto {p : Ptr} (hp : streamPcb net k = some p) (hstate : (net.heap p).state = .established)
    {bytes : List Byte} (h : bytes.length < 2 ^ 16) :
    ((Net.socketSendto net k bytes).heap p).sndNxt =
      (net.heap p).sndNxt + BitVec.ofNat 32 bytes.length := by
  have hflags : hasFlag (tcpAck ||| tcpPsh) (tcpSyn ||| tcpFin) = false := by decide
  rw [Net.socketSendto, hp]
  dsimp only
  rw [if_pos hstate, List.take_of_length_le (Nat.mod_eq_of_lt h).ge, Net.tcpSendSegment]
  dsimp only
  rw [editPcb_heap_self, hflags]
  rfl

/-- **Segments**: a call on a connection reports what it sends if the segment has a buffer and is sent,
or if there is nothing to send. -/
theorem stream_reports_iff {p : Ptr} (hp : streamPcb net k = some p)
    (hstate : (net.heap p).state = .established) (flags : Byte) :
    Reports net k message ⟨length.toInt, Net.socketSendto net k (bytesOf message length.toNat),
        .length length.toNat (length.setWidth 16).toNat ::
          tcpSendSegment env (net.heap p) flags message (length.setWidth 16)⟩ ↔
      env.outer ≠ 0#32 ∧ (env.Sends (54 + length.toNat) ∨ length = 0#32 ∧ env.Silent) := by
  have hint (h : length.toNat < 65516) : length.toInt = length.toNat := by
    rw [BitVec.toInt_eq_toNat_of_lt]
    omega
  have hdata (h : length.toNat < 65516) : (length.setWidth 16).toNat = length.toNat := by
    rw [BitVec.toNat_setWidth]
    omega
  constructor
  · intro h
    obtain ⟨hcast, hclean⟩ := clean_length.mp h.clean
    have hadd := hclean
    simp only [tcpSendSegment, clean_length, clean_store] at hadd
    obtain ⟨hadd, hroom, -⟩ := hadd
    -- the header is written into the buffer before its address is looked at
    have houter : env.outer ≠ 0#32 := by
      intro h0
      rw [if_pos h0] at hroom
      cases hroom
    have hshort : length.toNat < 65516 := by
      have := (20#16 + length.setWidth 16).isLt
      omega
    have hsent := h.sent (by rw [hint hshort]; exact Int.natCast_nonneg _)
    rw [hint hshort, Int.toNat_natCast] at hsent
    refine ⟨houter, ?_⟩
    by_cases hsends : env.Sends (54 + length.toNat)
    · exact .inl hsends
    have hlen : (tcpSegment (segment (net.heap p) flags (bytesOf message length.toNat))).length = _ :=
      length_segment (net.heap p) flags (by omega)
    rw [tcpSendSegment_eq (net.heap p) flags houter hshort] at hclean hsent
    simp only [clean_length, clean_store, frames_length, frames_store] at hclean hsent
    obtain ⟨hnone, hsilent⟩ :=
      netSendIpv4_quiet (by omega) (by rwa [hlen, ← Nat.add_assoc]) hclean.2.2.2
    rw [hnone] at hsent
    have h0 := bytesOf_eq_nil hsent.symm
    exact .inr ⟨BitVec.eq_of_toNat_eq h0, hsilent.resolve_right (by omega)⟩
  · rintro ⟨houter, hcase⟩
    have hshort : length.toNat ≤ 1994 := by
      rcases hcase with hsends | ⟨rfl, -⟩
      · have := hsends.le
        omega
      · decide
    have hlen : (tcpSegment (segment (net.heap p) flags (bytesOf message length.toNat))).length = _ :=
      length_segment (net.heap p) flags (by omega)
    -- the sequence number advances whether or not the segment goes out
    have hnext (q : Ptr) (hq : streamPcb net k = some q) :
        ((Net.socketSendto net k (bytesOf message length.toNat)).heap q).sndNxt =
          (net.heap q).sndNxt + BitVec.ofInt 32 length.toNat := by
      obtain rfl := Option.some_inj.mp (hp.symm.trans hq)
      rw [sndNxt_sendto hp hstate (by rw [length_bytesOf]; omega), length_bytesOf, BitVec.ofInt_natCast]
    rw [tcpSendSegment_eq (net.heap p) flags houter (by omega), hint (by omega), hdata (by omega)]
    rcases hcase with hsends | ⟨h0, hsilent⟩
    · have hfits : env.Sends
          (34 + (tcpSegment (segment (net.heap p) flags (bytesOf message length.toNat))).length) := by
        rwa [hlen, ← Nat.add_assoc]
      obtain ⟨hclean, hframes⟩ := netSendIpv4_sends (net.heap p).remoteIp 6#8 hfits
      obtain ⟨hcarried, hlengths⟩ :
          carried (segmentFrame env.host (segment (net.heap p) flags (bytesOf message length.toNat))) = _ ∧
            LengthsTrue _ := tcp_received _ (by rw [segment, length_bytesOf]; omega)
      exact reports_of_frame (by simp [hclean]) (by simp only [frames_length, frames_store, hframes]; rfl)
        hcarried hlengths hnext
    · have hsmall : (tcpSegment
          (segment (net.heap p) flags (bytesOf message length.toNat))).length < 65516 := by omega
      obtain ⟨hclean, hframes⟩ := netSendIpv4_silent (net.heap p).remoteIp 6#8 hsmall hsilent
      exact reports_of_silent (by simp [hclean]) (by simp only [frames_length, frames_store, hframes])
        (congrArg BitVec.toNat h0) hnext

end Calls

/-- **Sending**: for every socket, every message, every 32-bit length and every destination, a call of
`socket_sendto` reports what it sends if and only if it is sendable. -/
theorem sendto_reports_iff (env : Env) (net : NetState) (k : ℕ) (message : ℕ → Byte) (length : Word)
    (destAddr : Option (Word × Port)) :
    Reports net k message (socketSendto env net k message length destAddr) ↔
      Sendable env net k length destAddr := by
  -- a call that returns -1 has sent nothing
  have hfailed (after : NetState) : Reports net k message ⟨-1, after, []⟩ :=
    ⟨clean_nil, nofun, nofun, nofun⟩
  simp only [socketSendto, Sendable]
  split
  · next hdgram =>
    have hnone : streamPcb net k = none := if_neg (by rw [hdgram]; decide)
    cases hdest : destination (net.sockets.get k) destAddr with
    | none => exact iff_of_true (hfailed _) (.inl rfl)
    | some dest =>
      rw [or_iff_right nofun]
      exact dgram_reports_iff dest.1 dest.2 _ _ hnone
  · cases hp : streamPcb net k with
    | none => exact iff_of_true (hfailed _) nofun
    | some p =>
      simp only
      split
      · next hstate =>
        rw [stream_reports_iff hp hstate]
        simp [hstate]
      · next hstate =>
        refine iff_of_true (hfailed _) fun q hq hq' => absurd ?_ hstate
        rwa [Option.some_inj.mp hq]

/-- A kernel with an RTL8139, and memory for both buffers. -/
def rtlEnv : Env := ⟨some .rtl8139, ⟨default, default, qemuIp, 0#16⟩, 0x400000#32, 0x401000#32⟩

/-- A datagram socket. -/
def udpNet : NetState := (NetState.init qemuIp fun _ => newPcb).step (.create 2#32 sockDgram 0#32)

/-- A datagram of 1751 bytes to 10.0.2.2 makes a frame of 1793 bytes, which the driver refuses. -/
theorem sendto_unsent :
    let r := socketSendto rtlEnv udpNet 0 (fun _ => 0x61#8) 1751#32 (some (0x0202000A#32, 9#16))
    (udpNet.sockets.get 0).type = sockDgram ∧ r.ret = 1751 ∧ ¬Reports udpNet 0 (fun _ => 0x61#8) r := by
  have htype : (udpNet.sockets.get 0).type = sockDgram := by decide +kernel
  have hnone : streamPcb udpNet 0 = none := if_neg (by rw [htype]; decide)
  intro r
  have hr : r = ⟨(1751#32).toInt, Net.socketSendto udpNet 0 (bytesOf (fun _ => 0x61#8) (1751#32).toNat),
      .length (1751#32).toNat (1751#32).toInt :: netSendUdp rtlEnv 0x0202000A#32 9#16
        (udpNet.sockets.get 0).localPort (fun _ => 0x61#8) 1751#32⟩ := by
    simp only [r, socketSendto]
    rw [if_pos htype]
    rfl
  refine ⟨htype, by rw [hr]; decide, ?_⟩
  rw [hr, dgram_reports_iff _ _ _ _ hnone]
  rintro (⟨-, -, nic, hnic, hle⟩ | ⟨h0, -⟩)
  · cases hnic
    exact absurd hle (by decide)
  · exact absurd h0 (by decide)

end PekerOS.Net.Sending
