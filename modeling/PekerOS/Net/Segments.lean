import PekerOS.Lib.Checksum
import PekerOS.Net.Datagrams
import PekerOS.Net.Delivery
import PekerOS.Net.Wakeups

/-!
# Segments on the wire

`tcp_send_segment` lays out the header and the data, computes the checksum with the addresses of the
control block, and hands the bytes to `net_send_ipv4`, which puts the address of this host in front of
them. The receiver sees only the latter. A control block gets the address of this host from
`socket_connect`; one that listens has address 0, or the one that its socket is bound to afterwards.

## Main definitions

* `Host`, `tcpBuffer`, `tcpChecksum`, `ipv4Header`, `netSendIpv4`, `segmentFrame`: the bytes of a frame
* `HeaderVerifies`, `SegmentVerifies`: what the receiver of a frame checks
* `NetState.sending`: the control block that a step sends a segment for, and the data

## Main results

* `headerVerifies`: the checksum of the IP header is always right
* `segmentVerifies_iff`: the checksum of the segment is right if the two addresses are the same modulo
  65535, and the lengths fit their fields
* `segments_verify`: the runs in which all segments verify
-/

namespace PekerOS.Net

open Checksum

/-- What `net.c` knows of this host: `my_mac`, `gateway_mac`, `my_ip`, and the next identification. -/
structure Host where
  myMac : Table 6 Byte
  gatewayMac : Table 6 Byte
  myIp : Word
  ipv4Id : BitVec 16

/-- A field in network order. -/
def be16 (v : BitVec 16) : List Byte := [(v >>> 8).setWidth 8, v.setWidth 8]

/-- A field as the machine stores it. -/
def le16 (v : BitVec 16) : List Byte := [v.setWidth 8, (v >>> 8).setWidth 8]

def be32 (w : Word) : List Byte := [wordByte w 3, wordByte w 2, wordByte w 1, wordByte w 0]

/-- An address, whose bytes are in network order in memory. -/
def ipBytes (ip : Word) : List Byte := [wordByte ip 0, wordByte ip 1, wordByte ip 2, wordByte ip 3]

/-! ## The sender -/

/-- The complement of the folded sum, which is an `unsigned int`. -/
def complement (sum : ℕ) : BitVec 16 := ~~~BitVec.ofNat 16 (fold (sum % 2 ^ 32))

/-- `calculate_checksum` -/
def calculateChecksum (bytes : List Byte) : BitVec 16 := complement (wordSum bytes)

/-- `tcp_checksum`; the addresses are read as two words each. -/
def tcpChecksum (srcIp destIp : Word) (protocol : Byte) (segment : List Byte) (len : BitVec 16) :
    BitVec 16 :=
  complement (wordSum (ipBytes srcIp) + wordSum (ipBytes destIp) +
    (htons (protocol.setWidth 16)).toNat + (htons len).toNat + wordSum segment)

/-- The header and the data, as `tcp_send_segment` lays them out in its buffer. -/
def tcpBuffer (seg : Sent) (checksum : BitVec 16) : List Byte :=
  be16 seg.localPort ++ be16 seg.remotePort ++ be32 seg.seqNum ++ be32 seg.ackNum ++
    [0x50#8, seg.flags] ++ be16 seg.windowSize ++ le16 checksum ++ be16 0#16 ++ seg.data

/-- `total_len`, a `uint16_t` -/
def totalLen (seg : Sent) : BitVec 16 := BitVec.ofNat 16 (20 + seg.data.length)

/-- What `tcp_send_segment` hands to `net_send_ipv4`. -/
def tcpSegment (seg : Sent) : List Byte :=
  let len := totalLen seg
  let checksum := tcpChecksum seg.localIp seg.remoteIp 6#8 ((tcpBuffer seg 0#16).take len.toNat) len
  (tcpBuffer seg checksum).take len.toNat

def ipv4Header (host : Host) (destIp : Word) (protocol : Byte) (payloadLen : ℕ) (checksum : BitVec 16) :
    List Byte :=
  [0x45#8, 0#8] ++ be16 (BitVec.ofNat 16 (20 + payloadLen)) ++ be16 host.ipv4Id ++ be16 0#16 ++
    [64#8, protocol] ++ le16 checksum ++ ipBytes host.myIp ++ ipBytes destIp

/-- `net_send_ipv4` -/
def netSendIpv4 (host : Host) (destIp : Word) (protocol : Byte) (payload : List Byte) : List Byte :=
  let eth := (List.range 6).map host.gatewayMac.get ++ (List.range 6).map host.myMac.get ++ be16 0x0800#16
  let checksum := calculateChecksum (ipv4Header host destIp protocol payload.length 0#16)
  eth ++ ipv4Header host destIp protocol payload.length checksum ++ payload

/-- The frame of a segment. -/
def segmentFrame (host : Host) (seg : Sent) : List Byte :=
  netSendIpv4 host seg.remoteIp 6#8 (tcpSegment seg)

/-! ## The receiver -/

/-- Byte `i` of the IP header. -/
def ipByte (frame : List Byte) (i : ℕ) : ℕ := (frame.getD (14 + i) 0#8).toNat

/-- The length of the IP header, in bytes, and that of header and payload. -/
def ipHeaderLen (frame : List Byte) : ℕ := ipByte frame 0 % 16 * 4

def ipTotalLen (frame : List Byte) : ℕ := 256 * ipByte frame 2 + ipByte frame 3

/-- The IP header, and what it says its payload is. -/
def ipHeader (frame : List Byte) : List Byte := (frame.drop 14).take (ipHeaderLen frame)

def ipPayload (frame : List Byte) : List Byte :=
  ((frame.drop 14).take (ipTotalLen frame)).drop (ipHeaderLen frame)

/-- The pseudo-header: both addresses, the protocol and the length, from the IP header. -/
def pseudoHeader (frame : List Byte) : List Byte :=
  ((frame.drop 14).drop 12).take 8 ++ [0#8, frame.getD (14 + 9) 0#8] ++
    be16 (BitVec.ofNat 16 (ipPayload frame).length)

/-- The header checksum is right. -/
def HeaderVerifies (frame : List Byte) : Prop := fold (netSum (ipHeader frame)) = 65535

/-- The payload is a TCP segment with the right checksum for the addresses of the header. -/
def SegmentVerifies (frame : List Byte) : Prop :=
  20 ≤ (ipPayload frame).length ∧ fold (netSum (pseudoHeader frame ++ ipPayload frame)) = 65535

/-! ## Checksums -/

theorem complement_toNat {n : ℕ} (h : n < 2 ^ 32) : (complement n).toNat = 65535 - fold n := by
  have hlt := fold_lt n
  rw [complement, BitVec.toNat_not, BitVec.toNat_ofNat, Nat.mod_eq_of_lt h]
  omega

theorem wordSum_le16 (v : BitVec 16) : wordSum (le16 v) = v.toNat := by
  have hlt := v.isLt
  simp only [le16, wordSum, BitVec.toNat_setWidth, BitVec.toNat_ushiftRight, Nat.shiftRight_eq_div_pow]
  omega

theorem wordSum_be16 (v : BitVec 16) : wordSum (be16 v) = (htons v).toNat := by
  have hlt := v.isLt
  -- the two bytes of the swapped word do not overlap
  have hlow : (v <<< 8).toNat = (v.toNat % 256) <<< 8 := by
    rw [BitVec.toNat_shiftLeft, Nat.shiftLeft_eq, Nat.shiftLeft_eq]
    omega
  have hhigh : (v >>> 8).toNat < 2 ^ 8 := by
    rw [BitVec.toNat_ushiftRight, Nat.shiftRight_eq_div_pow]
    omega
  rw [htons, BitVec.toNat_or, hlow, Nat.or_comm, ← Nat.shiftLeft_add_eq_or_of_lt hhigh, Nat.shiftLeft_eq]
  simp only [be16, wordSum, BitVec.toNat_setWidth, BitVec.toNat_ushiftRight, Nat.shiftRight_eq_div_pow]
  omega

/-- The two words of an address add up to the address, modulo 65535. -/
theorem wordSum_ipBytes (ip : Word) : wordSum (ipBytes ip) % 65535 = ip.toNat % 65535 := by
  have hlt := ip.isLt
  simp only [ipBytes, wordSum, wordByte, BitVec.extractLsb'_toNat, Nat.shiftRight_eq_div_pow,
    Nat.reduceMul, Nat.reducePow]
  have hbytes : ip.toNat = ip.toNat / 1 % 256 + 256 * (ip.toNat / 256 % 256) +
      65536 * (ip.toNat / 65536 % 256) + 16777216 * (ip.toNat / 16777216 % 256) := by omega
  omega

/-! ## The frame -/

section Frame

variable (host : Host) (destIp : Word) (protocol : Byte) (payload : List Byte) (seg : Sent)

/-- The IP header of a frame. -/
def frameHeader : List Byte :=
  ipv4Header host destIp protocol payload.length
    (calculateChecksum (ipv4Header host destIp protocol payload.length 0#16))

theorem frame_drop : (netSendIpv4 host destIp protocol payload).drop 14 =
    frameHeader host destIp protocol payload ++ payload := rfl

theorem length_ipv4Header (payloadLen : ℕ) (checksum : BitVec 16) :
    (ipv4Header host destIp protocol payloadLen checksum).length = 20 := rfl

theorem ipByte_eq (frame : List Byte) (i : ℕ) : ipByte frame i = ((frame.drop 14).getD i 0#8).toNat := by
  rw [ipByte, List.getD_eq_getElem?_getD, List.getD_eq_getElem?_getD, List.getElem?_drop]

theorem ipHeaderLen_frame : ipHeaderLen (netSendIpv4 host destIp protocol payload) = 20 := by
  simp [ipHeaderLen, ipByte_eq, frame_drop, frameHeader, ipv4Header]

theorem ipHeader_frame : ipHeader (netSendIpv4 host destIp protocol payload) =
    frameHeader host destIp protocol payload := by
  rw [ipHeader, ipHeaderLen_frame, frame_drop]
  exact List.take_left' (length_ipv4Header host destIp protocol _ _)

theorem wordSum_ipv4Header (payloadLen : ℕ) (checksum : BitVec 16) :
    wordSum (ipv4Header host destIp protocol payloadLen checksum) =
      wordSum (ipv4Header host destIp protocol payloadLen 0#16) + checksum.toNat := by
  have hzero : wordSum (le16 0#16) = 0 := rfl
  have hsum (checksum : BitVec 16) : wordSum (ipv4Header host destIp protocol payloadLen checksum) =
      wordSum ([0x45#8, 0#8] ++ be16 (BitVec.ofNat 16 (20 + payloadLen)) ++ be16 host.ipv4Id ++
        be16 0#16 ++ [64#8, protocol]) + wordSum (le16 checksum) +
          wordSum (ipBytes host.myIp ++ ipBytes destIp) := by
    rw [ipv4Header, List.append_assoc _ (ipBytes host.myIp), wordSum_append (by simp [be16, le16]),
      wordSum_append (by simp [be16])]
  rw [hsum, hsum, hzero, wordSum_le16]
  omega

/-- The checksum of the IP header is always right. -/
theorem headerVerifies : HeaderVerifies (netSendIpv4 host destIp protocol payload) := by
  have hlt : wordSum (ipv4Header host destIp protocol payload.length 0#16) < 2 ^ 32 :=
    (wordSum_lt _).trans_lt (by rw [length_ipv4Header]; norm_num)
  have hpos : 0 < wordSum (ipv4Header host destIp protocol payload.length 0#16) := by
    simp only [ipv4Header, List.append_assoc]
    rw [wordSum_append (by simp)]
    exact Nat.add_pos_left (by decide) _
  rw [HeaderVerifies, ipHeader_frame, frameHeader]
  refine (verifies_iff hpos ?_).mpr rfl
  rw [wordSum_ipv4Header, calculateChecksum, complement_toNat hlt]

theorem be16_toNat (v : BitVec 16) :
    256 * ((v >>> 8).setWidth 8 : Byte).toNat + (v.setWidth 8 : Byte).toNat = v.toNat := by
  have hlt := v.isLt
  simp only [BitVec.toNat_setWidth, BitVec.toNat_ushiftRight, Nat.shiftRight_eq_div_pow]
  omega

theorem ipTotalLen_frame :
    ipTotalLen (netSendIpv4 host destIp protocol payload) = (20 + payload.length) % 65536 := by
  rw [ipTotalLen, ipByte_eq, ipByte_eq, frame_drop, show 65536 = 2 ^ 16 from rfl, ← BitVec.toNat_ofNat,
    ← be16_toNat]
  simp [frameHeader, ipv4Header, be16]

theorem ipPayload_frame : ipPayload (netSendIpv4 host destIp protocol payload) =
    payload.take ((20 + payload.length) % 65536 - 20) := by
  have hlen : (frameHeader host destIp protocol payload).length = 20 := rfl
  rw [ipPayload, ipHeaderLen_frame, ipTotalLen_frame, frame_drop, List.drop_take,
    List.drop_left' hlen]

theorem pseudoHeader_frame : pseudoHeader (netSendIpv4 host destIp protocol payload) =
    ipBytes host.myIp ++ ipBytes destIp ++ [0#8, protocol] ++
      be16 (BitVec.ofNat 16 (ipPayload (netSendIpv4 host destIp protocol payload)).length) := by
  have hproto : (netSendIpv4 host destIp protocol payload).getD (14 + 9) 0#8 = protocol := by
    rw [List.getD_eq_getElem?_getD, ← List.getElem?_drop, frame_drop]
    simp [frameHeader, ipv4Header, be16]
  rw [pseudoHeader, frame_drop, hproto]
  rfl

theorem length_tcpBuffer (checksum : BitVec 16) :
    (tcpBuffer seg checksum).length = 20 + seg.data.length := by
  simp [tcpBuffer, be16, le16, be32]
  omega

theorem wordSum_tcpBuffer (checksum : BitVec 16) :
    wordSum (tcpBuffer seg checksum) = wordSum (tcpBuffer seg 0#16) + checksum.toNat := by
  have hzero : wordSum (le16 0#16) = 0 := rfl
  have hsum (checksum : BitVec 16) : wordSum (tcpBuffer seg checksum) =
      wordSum (be16 seg.localPort ++ be16 seg.remotePort ++ be32 seg.seqNum ++ be32 seg.ackNum ++
        [0x50#8, seg.flags] ++ be16 seg.windowSize) + wordSum (le16 checksum) +
          wordSum (be16 0#16 ++ seg.data) := by
    rw [tcpBuffer, List.append_assoc _ (be16 0#16), wordSum_append (by simp [be16, be32, le16]),
      wordSum_append (by simp [be16, be32])]
  rw [hsum, hsum, hzero, wordSum_le16]
  omega

/-- What the sender adds up: the pseudo-header with the address of the control block, and the segment
without the checksum. -/
def senderSum : ℕ :=
  wordSum (ipBytes seg.localIp ++ ipBytes seg.remoteIp ++ [0#8, 6#8] ++ be16 (totalLen seg)) +
    wordSum (tcpBuffer seg 0#16)

theorem wordSum_pseudo (srcIp destIp : Word) (protocol : Byte) (len : BitVec 16) :
    wordSum (ipBytes srcIp ++ ipBytes destIp ++ [0#8, protocol] ++ be16 len) =
      wordSum (ipBytes srcIp) + wordSum (ipBytes destIp) + (htons (protocol.setWidth 16)).toNat +
        (htons len).toNat := by
  -- the protocol is the low byte of a word in network order
  have hprotocol : [0#8, protocol] = be16 (protocol.setWidth 16) := by
    have hlt := protocol.isLt
    have hhigh : (protocol.setWidth 16 >>> 8).setWidth 8 = 0#8 := by
      apply BitVec.eq_of_toNat_eq
      simp only [BitVec.toNat_setWidth, BitVec.toNat_ushiftRight, Nat.shiftRight_eq_div_pow,
        BitVec.toNat_ofNat]
      omega
    rw [be16, hhigh, BitVec.setWidth_setWidth_of_le _ (by decide), BitVec.setWidth_eq]
  rw [wordSum_append (by simp [ipBytes]), wordSum_append (by simp [ipBytes]),
    wordSum_append (by simp [ipBytes]), wordSum_be16, hprotocol, wordSum_be16]

/-- A segment whose length fits is sent whole. -/
theorem tcpSegment_eq (hlen : seg.data.length ≤ 65515) :
    tcpSegment seg = tcpBuffer seg (complement (senderSum seg)) := by
  have htotal : (totalLen seg).toNat = 20 + seg.data.length := by
    rw [totalLen, BitVec.toNat_ofNat, Nat.mod_eq_of_lt (by omega)]
  have hwhole (checksum : BitVec 16) : (tcpBuffer seg checksum).take (totalLen seg).toNat =
      tcpBuffer seg checksum := by
    rw [List.take_of_length_le]
    rw [length_tcpBuffer, htotal]
  rw [tcpSegment, hwhole, hwhole, tcpChecksum, senderSum, wordSum_pseudo]

/-- The checksum of a segment is right if the control block has this host's address, modulo 65535, and
the lengths fit their fields. -/
theorem segmentVerifies_iff (hshort : seg.data.length < 2 ^ 16) :
    SegmentVerifies (segmentFrame host seg) ↔
      seg.localIp.toNat % 65535 = host.myIp.toNat % 65535 ∧ seg.data.length ≤ 65495 := by
  rw [SegmentVerifies, segmentFrame]
  by_cases hlen : seg.data.length ≤ 65495
  swap
  · -- one of the two length fields wraps, and the payload is no segment
    refine iff_of_false (fun h => ?_) fun h => hlen h.2
    have hpayload := h.1
    have hsegment : (tcpSegment seg).length = (20 + seg.data.length) % 65536 := by
      rw [tcpSegment, List.length_take, length_tcpBuffer, totalLen, BitVec.toNat_ofNat]
      omega
    rw [ipPayload_frame, List.length_take, hsegment] at hpayload
    omega
  · have hsegment := tcpSegment_eq seg (by omega)
    have hpayload : ipPayload (netSendIpv4 host seg.remoteIp 6#8 (tcpSegment seg)) = tcpSegment seg := by
      rw [ipPayload_frame, hsegment, length_tcpBuffer, List.take_of_length_le]
      rw [length_tcpBuffer]
      omega
    have hlength : (tcpSegment seg).length = 20 + seg.data.length := by
      rw [hsegment, length_tcpBuffer]
    have hsender : senderSum seg < 2 ^ 32 := by
      rw [senderSum, ← wordSum_append (by simp [ipBytes, be16])]
      refine (wordSum_lt _).trans_lt ?_
      rw [List.length_append, length_tcpBuffer]
      simp [ipBytes, be16]
      omega
    -- the receiver's pseudo-header has the address of this host in place of that of the control block
    have hreceiver : wordSum (pseudoHeader (netSendIpv4 host seg.remoteIp 6#8 (tcpSegment seg)) ++
        tcpSegment seg) =
          wordSum (ipBytes host.myIp) + wordSum (ipBytes seg.remoteIp) +
            (htons (BitVec.setWidth 16 6#8)).toNat + (htons (totalLen seg)).toNat +
              wordSum (tcpBuffer seg 0#16) + (65535 - fold (senderSum seg)) := by
      rw [pseudoHeader_frame, hpayload, hlength, ← totalLen, wordSum_append (by simp [ipBytes, be16]),
        wordSum_pseudo, hsegment, wordSum_tcpBuffer, complement_toNat hsender]
      omega
    have hproto : (htons (BitVec.setWidth 16 6#8)).toNat = 1536 := by decide
    rw [hpayload, and_iff_right (by omega), and_iff_left hlen, verifies_iff (by omega) hreceiver, senderSum,
      wordSum_pseudo]
    have hlocal := wordSum_ipBytes seg.localIp
    have hmine := wordSum_ipBytes host.myIp
    omega

end Frame

/-! ## Runs -/

/-- The branches of `tcp_input` that answer. -/
def answers (net : NetState) (pkt : Packet) (p : Ptr) : Bool :=
  match (net.heap p).state with
  | .listen => hasFlag pkt.flags tcpSyn
  | .synSent => hasFlag pkt.flags tcpSyn && hasFlag pkt.flags tcpAck
  | .established => hasFlag pkt.flags tcpFin || (acceptingSocket net pkt).isSome
  | .finWait1 => hasFlag pkt.flags tcpFin
  | .finWait2 => hasFlag pkt.flags tcpFin
  | _ => false

/-- The control block that a step sends a segment for, and the data. -/
def NetState.sending (net : NetState) : NetOp → Option (Ptr × List Byte)
  | .connectSyn k _ => (connectPcb net k).map fun p => (p, [])
  | .sendto k message =>
    match streamPcb net k with
    | none => none
    | some p =>
      if (net.heap p).state = .established then some (p, message.take (message.length % 2 ^ 16)) else none
  | .close k =>
    match streamPcb net k with
    | none => none
    | some p =>
      if (net.heap p).state = .established ∨ (net.heap p).state = .closeWait then some (p, []) else none
  | .packet pkt =>
    match tcpTarget net pkt with
    | none => none
    | some p => if answers net pkt p then some (p, []) else none
  | _ => none

/-- Every segment sent so far verifies on the wire, whatever the other fields of its frame. -/
def AllVerify (myIp : Word) (net : NetState) : Prop :=
  ∀ seg ∈ net.sent, ∀ host : Host, host.myIp = myIp →
    HeaderVerifies (segmentFrame host seg) ∧ SegmentVerifies (segmentFrame host seg)

/-- The control block that a step sends a segment for has this host's address modulo 65535, and there
are at most 65495 bytes of data. -/
def SendOk (myIp : Word) (net : NetState) (op : NetOp) : Prop :=
  net.halted = false → op.valid net → ∀ p data, net.sending op = some (p, data) →
    (net.heap p).localIp.toNat % 65535 = myIp.toNat % 65535 ∧ data.length ≤ 65495

/-- What a step sends. -/
inductive SendView (net : NetState) (op : NetOp) (sent : List Sent) : Prop
  | quiet (hsending : net.sending op = none) (hsent : sent = net.sent)
  | segment {p : Ptr} {data : List Byte} {seg : Sent} (hsending : net.sending op = some (p, data))
      (hsent : sent = net.sent ++ [seg]) (hip : seg.localIp = (net.heap p).localIp)
      (hdata : seg.data = data)

section Runs

variable {net : NetState} {op : NetOp} {i k : ℕ} {p ptr : Ptr} {pkt : Packet}

theorem ackNext_sent (net : NetState) (p : Ptr) (pkt : Packet) (st : TcpState) (flags : Byte) :
    ∃ seg : Sent, (ackNext net p pkt st flags).sent = net.sent ++ [seg] ∧
      seg.localIp = (net.heap p).localIp ∧ seg.data = [] :=
  ⟨_, rfl, by simp, rfl⟩

theorem acceptData_sent (hlookup : tcpLookup net pkt = some i) (hslot : net.tcpPcbs.get i = some p)
    (hdata : (net.heap p).state = .established ∧ hasFlag pkt.flags tcpFin = false ∧
      pkt.headerLen < pkt.len.toNat) :
    if (acceptingSocket net pkt).isSome then
      ∃ seg : Sent, (acceptData net p pkt).sent = net.sent ++ [seg] ∧
        seg.localIp = (net.heap p).localIp ∧ seg.data = []
    else (acceptData net p pkt).sent = net.sent := by
  split
  · next haccept =>
    obtain ⟨k, hk⟩ := Option.isSome_iff_exists.mp haccept
    obtain ⟨-, hsocket, hroom⟩ := (acceptingSocket_iff hlookup hslot).mp hk
    rw [NetState.ring] at hroom
    rw [acceptData, hsocket]
    dsimp only
    rw [if_pos hroom, wake_sent]
    exact ⟨_, rfl, by simp, rfl⟩
  · next haccept =>
    rw [acceptData]
    split
    · rfl
    · next k hsocket =>
      refine congrArg NetState.sent (if_neg fun hroom => haccept ?_)
      rw [(acceptingSocket_iff (k := k) hlookup hslot).mpr ⟨hdata, hsocket, hroom⟩]
      rfl

/-- An answer is sent for the control block that takes the packet. -/
theorem tcpProcess_sent (hlookup : tcpLookup net pkt = some i) (hslot : net.tcpPcbs.get i = some p) :
    if answers net pkt p then
      ∃ seg : Sent, (tcpProcess net i p pkt).sent = net.sent ++ [seg] ∧
        seg.localIp = (net.heap p).localIp ∧ seg.data = []
    else (tcpProcess net i p pkt).sent = net.sent := by
  rw [answers, tcpProcess]
  cases hst : (net.heap p).state with
  | listen =>
    dsimp only
    split
    · -- a SYN is answered by SYN and ACK together
      obtain ⟨seg, hsent, hip, hdata⟩ := ackNext_sent
        (net.editPcb p fun pcb => { pcb with remotePort := pkt.srcPort, remoteIp := pkt.srcIp }) p pkt
        .synReceived (tcpSyn ||| tcpAck)
      exact ⟨seg, hsent, by simpa using hip, hdata⟩
    · rfl
  | synSent =>
    dsimp only
    split
    · next h =>
      rw [if_pos (by simpa using h), wakeSocket_sent]
      exact ackNext_sent net p pkt .established tcpAck
    · next h => rw [if_neg (by simpa using h)]
  | synReceived =>
    dsimp only
    rw [if_neg (by simp)]
    split <;> rfl
  | established =>
    dsimp only
    by_cases hfin : hasFlag pkt.flags tcpFin = true
    · -- a FIN is acknowledged, and data that comes with it is not looked at
      rw [if_pos hfin, hfin, Bool.true_or, if_pos rfl, wakeSocket_sent]
      exact ackNext_sent net p pkt .closeWait tcpAck
    · have hfin' := Bool.eq_false_of_not_eq_true hfin
      rw [if_neg hfin, hfin', Bool.false_or]
      by_cases hlen : pkt.headerLen < pkt.len.toNat
      · rw [if_pos hlen]
        exact acceptData_sent hlookup hslot ⟨hst, hfin', hlen⟩
      · -- a segment without data is for no socket, so nothing is acknowledged
        have hnone : ¬(acceptingSocket net pkt).isSome = true := by
          intro haccept
          obtain ⟨k, hk⟩ := Option.isSome_iff_exists.mp haccept
          exact hlen ((acceptingSocket_iff hlookup hslot).mp hk).1.2.2
        rw [if_neg hlen, if_neg hnone]
  | finWait1 =>
    dsimp only
    split
    · exact ackNext_sent net p pkt _ tcpAck
    · rfl
  | finWait2 =>
    dsimp only
    split
    · exact ackNext_sent net p pkt .timeWait tcpAck
    · rfl
  | lastAck =>
    dsimp only
    rw [if_neg (by simp)]
    split <;> rfl
  -- the states left have no case in `tcp_process`
  | _ => rfl

/-- What a call, a segment or a datagram makes this host send. -/
theorem exec_sent (net : NetState) (op : NetOp) : SendView net op (net.exec op).sent := by
  cases op with
  | create domain type protocol =>
    refine .quiet rfl ?_
    rw [NetState.exec, socketCreate]
    cases freeSocket net <;> rfl
  | bind k port addr =>
    refine .quiet rfl ?_
    rw [NetState.exec, socketBind]
    split <;> rfl
  | listen k ptr =>
    refine .quiet rfl ?_
    rw [NetState.exec, socketListen]
    split
    · split
      · rfl
      · next hensure =>
        have hsent := (ensurePcb_keeps _ k hensure).1
        exact hsent
    · rfl
  | connect k addr port ptr =>
    refine .quiet rfl ?_
    rw [NetState.exec, socketConnect]
    dsimp only
    split
    · split
      · rfl
      · next hensure =>
        have hsent := (ensurePcb_keeps _ k hensure).1
        exact hsent
    · rfl
  | connectSyn k task =>
    rw [NetState.exec, socketConnectSyn]
    cases hconnecting : net.connecting.get k with
    | false =>
      refine .quiet ?_ rfl
      rw [NetState.sending, connectPcb, hconnecting]
      rfl
    | true =>
      cases hp : (net.sockets.get k).tcpPcb with
      | none =>
        refine .quiet ?_ rfl
        rw [NetState.sending, connectPcb, hconnecting, if_pos rfl, hp]
        rfl
      | some p =>
        refine .segment (p := p) ?_ rfl ?_ rfl
        · rw [NetState.sending, connectPcb, hconnecting, if_pos rfl, hp]
          rfl
        · simp
  | accept k task =>
    refine .quiet rfl ?_
    rw [NetState.exec, socketAccept]
    split
    · split
      · rfl
      · split <;> rfl
    · rfl
  | sendto k message =>
    rw [NetState.exec, socketSendto]
    cases hp : streamPcb net k with
    | none =>
      refine .quiet ?_ rfl
      rw [NetState.sending, hp]
    | some p =>
      -- data goes out in this state only
      by_cases hst : (net.heap p).state = .established
      · refine .segment (p := p) ?_ (congrArg NetState.sent (if_pos hst)) rfl rfl
        rw [NetState.sending, hp]
        exact if_pos hst
      · refine .quiet ?_ (congrArg NetState.sent (if_neg hst))
        rw [NetState.sending, hp]
        exact if_neg hst
  | recvfrom k length task => exact .quiet rfl (recvfrom_keeps net k length task).1
  | close k =>
    rw [NetState.exec, socketClose]
    cases hp : streamPcb net k with
    | none =>
      refine .quiet ?_ rfl
      rw [NetState.sending, hp]
    | some p =>
      -- a FIN goes out in these two states
      have hsending (hst : (net.heap p).state = .established ∨ (net.heap p).state = .closeWait) :
          net.sending (.close k) = some (p, []) := by
        rw [NetState.sending, hp]
        exact if_pos hst
      dsimp only
      rw [tcpClose]
      split
      · next hst => exact .segment (hsending (.inl hst)) rfl rfl rfl
      · next hst => exact .segment (hsending (.inr hst)) rfl rfl rfl
      · next hest hwait =>
        refine .quiet ?_ rfl
        rw [NetState.sending, hp]
        exact if_neg fun h => h.elim hest hwait
  | packet pkt =>
    rw [NetState.exec]
    cases hlookup : tcpLookup net pkt with
    | none =>
      refine .quiet ?_ (by rw [tcpInput, hlookup])
      rw [NetState.sending, tcpTarget, hlookup]
    | some i =>
      obtain ⟨-, p, hslot⟩ := tcpLookup_slot hlookup
      have htarget := tcpTarget_eq hlookup hslot
      have hsent := tcpProcess_sent hlookup hslot
      rw [tcpInput_eq hlookup hslot]
      -- the answer of the state machine carries no data
      split at hsent
      · next hanswers =>
        obtain ⟨seg, hsent, hip, hdata⟩ := hsent
        refine .segment ?_ hsent hip hdata
        rw [NetState.sending, htarget]
        exact if_pos hanswers
      · next hanswers =>
        refine .quiet ?_ hsent
        rw [NetState.sending, htarget]
        exact if_neg hanswers
  | datagram d => exact .quiet rfl (dispatch_keeps net d).1

/-- The length of the data is a `uint16_t`. -/
theorem sending_short {data : List Byte} (h : net.sending op = some (p, data)) : data.length < 2 ^ 16 := by
  cases op with
  | connectSyn k task =>
    obtain ⟨q, -, heq⟩ := Option.map_eq_some_iff.mp h
    cases heq
    exact Nat.two_pow_pos 16
  | sendto k message =>
    rw [NetState.sending] at h
    split at h
    · cases h
    · split at h
      · cases h
        -- `len` is a `uint16_t`, and the message is cut to it
        exact (List.length_take_le _ _).trans_lt (Nat.mod_lt _ (Nat.two_pow_pos 16))
      · cases h
  | close k =>
    rw [NetState.sending] at h
    split at h
    · cases h
    · split at h
      · cases h
        exact Nat.two_pow_pos 16
      · cases h
  | packet pkt =>
    rw [NetState.sending] at h
    split at h
    · cases h
    · split at h
      · cases h
        exact Nat.two_pow_pos 16
      · cases h
  | _ => cases h

/-- A step keeps all segments right if the one it sends is. -/
theorem allVerify_step {myIp : Word} (h : AllVerify myIp net) :
    AllVerify myIp (net.step op) ↔ SendOk myIp net op := by
  by_cases hidle : (net.halted || !op.valid net) = true
  · rw [step_of_idle hidle]
    refine iff_of_true h fun hhalted hvalid => ?_
    simp [hhalted, hvalid] at hidle
  have hstep : net.step op = net.exec op := if_neg hidle
  obtain ⟨hhalted, hvalid⟩ : net.halted = false ∧ op.valid net = true := by simpa using hidle
  rw [hstep]
  have hview := exec_sent net op
  cases hview with
  | quiet hsending hsent =>
    refine iff_of_true ?_ fun _ _ p data hsome => absurd (hsending.symm.trans hsome) nofun
    rw [AllVerify, hsent]
    exact h
  | @segment p data seg hsending hsent hip hdata =>
    have hshort : seg.data.length < 2 ^ 16 := hdata ▸ sending_short hsending
    constructor
    · intro hafter _ _ q data' hsome
      rw [hsending, Option.some_inj, Prod.mk.injEq] at hsome
      obtain ⟨rfl, rfl⟩ := hsome
      have hlast : seg ∈ (net.exec op).sent := by rw [hsent]; exact List.mem_concat_self
      have hverifies := (hafter seg hlast ⟨default, default, myIp, 0#16⟩ rfl).2
      rw [← hip, ← hdata]
      exact (segmentVerifies_iff _ seg hshort).mp hverifies
    · intro hok seg' hseg' host hhost
      refine ⟨headerVerifies host _ _ _, ?_⟩
      rw [hsent, List.mem_append, List.mem_singleton] at hseg'
      rcases hseg' with hold | rfl
      · exact (h seg' hold host hhost).2
      · rw [segmentVerifies_iff host seg' hshort, hip, hdata, hhost]
        exact hok hhalted hvalid p data hsending

/-- **Segments**: in a run of calls, segments and datagrams in any order, every frame that is sent for a
segment has the right checksums, exactly if in every step the control block that sends has this host's
address modulo 65535, and at most 65495 bytes are sent at once. -/
theorem segments_verify (myIp : Word) (heap : Ptr → Pcb) (ops : List NetOp) :
    Along NetState.step (AllVerify myIp) (.init myIp heap) ops ↔
      Steps NetState.step (SendOk myIp) (.init myIp heap) ops :=
  along_iff_steps (I := fun _ => True) (fun _ => trivial) (fun _ h => allVerify_step h) trivial nofun

end Runs

/-- `my_ip`, 10.0.2.15 -/
abbrev qemuIp : Word := 0x0F02000A#32

/-- A socket listens on port 80, and a SYN comes. -/
def passiveOpen : List NetOp :=
  [.create 2#32 sockStream 0#32, .bind 0 80#16 qemuIp, .listen 0 4096#32, .packet (bareSegment 7#32 tcpSyn)]

/-- The checksum of the answer is that of an answer from 0.0.0.0. -/
theorem passive_unverified :
    ¬Along NetState.step (AllVerify qemuIp) (.init qemuIp fun _ => newPcb) passiveOpen := by
  intro h
  have hlast := along_iff_take.mp h 4
  have hsent : ∃ seg ∈ ((passiveOpen.take 4).foldl NetState.step (.init qemuIp fun _ => newPcb)).sent,
      seg.localIp = 0#32 ∧ seg.data.length < 2 ^ 16 := by decide +kernel
  obtain ⟨seg, hseg, hip, hshort⟩ := hsent
  have hverifies := (hlast seg hseg ⟨default, default, qemuIp, 0#16⟩ rfl).2
  rw [segmentVerifies_iff _ seg hshort, hip] at hverifies
  exact absurd hverifies.1 (by decide)

end PekerOS.Net
