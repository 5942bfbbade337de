import PekerOS.Net.Echo
import PekerOS.Net.Sending

/-!
# Between two hosts

What one kernel sends, another one reads. A frame that `net_send_ipv4` builds for the address of a host goes
through its `net_handle_packet` to `tcp_input` or to `socket_dispatch_udp`, with the fields and the data that
`tcp_send_segment` and `net_send_udp` were given; the source address is that of the host that sent it, whatever
address its control block has. The frame may lie anywhere in a buffer of the driver, with other bytes behind it.

## Main definitions

* `Sent.packet`: what `tcp_input` is given of a segment

## Main results

* `netHandlePacket_segment`: the frame of a segment
* `datagram_received`: the frame of a datagram
-/

namespace PekerOS.Net

open Memory

/-! ## Fields -/

section Fields

theorem wordByte_append (w : Word) : wordByte w 3 ++ wordByte w 2 ++ wordByte w 1 ++ wordByte w 0 = w :=
  wordOfBytes_wordByte w

theorem be16_append (v : BitVec 16) : ((v >>> 8).setWidth 8 : Byte) ++ (v.setWidth 8 : Byte) = v := by
  apply BitVec.eq_of_toNat_eq
  have hlow : (v.setWidth 8 : Byte).toNat < 2 ^ 8 := (v.setWidth 8).isLt
  rw [BitVec.toNat_append, ← Nat.shiftLeft_add_eq_or_of_lt hlow, Nat.shiftLeft_eq, ← be16_toNat v]
  omega

variable {mem : ℕ → Byte} {as : List Byte} {i k n : ℕ} {w : Word} {v : BitVec 16}

/-- A part of what is in memory. -/
theorem slice_part {m : ℕ} (h : slice mem i n = as) (hm : m + k ≤ n) :
    slice mem (i + m) k = (as.drop m).take k := by
  rw [← h, drop_slice, take_slice mem (by omega)]

theorem portAt_be16 (h : slice mem i 2 = be16 v) : portAt mem i = v := by
  obtain ⟨h0, h1⟩ : mem (i + 0) = (v >>> 8).setWidth 8 ∧ mem (i + 1) = v.setWidth 8 := by
    simpa [slice, be16, List.range_succ] using h
  rw [portAt, ← Nat.add_zero i, h0]
  exact (congrArg _ h1).trans (be16_append v)

theorem ntohsAt_be16 (h : slice mem i 2 = be16 v) : ntohsAt mem i = v.toNat := by
  obtain ⟨h0, h1⟩ : mem (i + 0) = (v >>> 8).setWidth 8 ∧ mem (i + 1) = v.setWidth 8 := by
    simpa [slice, be16, List.range_succ] using h
  rw [Nat.add_zero] at h0
  rw [ntohsAt, h0, h1, be16_toNat]

theorem ntohlAt_be32 (h : slice mem i 4 = be32 w) : ntohlAt mem i = w := by
  obtain ⟨h0, h1, h2, h3⟩ : mem (i + 0) = wordByte w 3 ∧ mem (i + 1) = wordByte w 2 ∧
      mem (i + 2) = wordByte w 1 ∧ mem (i + 3) = wordByte w 0 := by
    simpa [slice, be32, List.range_succ] using h
  rw [Nat.add_zero] at h0
  rw [ntohlAt, h0, h1, h2, h3, wordByte_append]

theorem wordOfBytes_ipBytes (h : slice mem i 4 = ipBytes w) : (wordOfBytes fun j => mem (i + j)) = w := by
  obtain ⟨h0, h1, h2, h3⟩ : mem (i + 0) = wordByte w 0 ∧ mem (i + 1) = wordByte w 1 ∧
      mem (i + 2) = wordByte w 2 ∧ mem (i + 3) = wordByte w 3 := by
    simpa [slice, ipBytes, List.range_succ] using h
  rw [wordOfBytes, h0, h1, h2, h3, wordByte_append]

end Fields

/-! ## The IP header -/

/-- The frame of a payload is in memory. -/
def InMemory (mem : ℕ → Byte) (frame : List Byte) : Prop := slice mem 0 frame.length = frame

theorem inMemory_getD (frame : List Byte) : InMemory (frame.getD · 0#8) frame := by
  refine List.ext_getElem (length_slice _ 0 frame.length) fun i _ hi => ?_
  simp only [slice, List.getElem_map, List.getElem_range, Nat.zero_add]
  exact List.getD_eq_getElem _ _ hi

section Header

variable {mem : ℕ → Byte} {host : Host} {destIp : Word} {protocol : Byte} {payload : List Byte}

/-- What `net_handle_ipv4` reads of a frame. -/
structure HeaderAt (mem : ℕ → Byte) (host : Host) (destIp : Word) (protocol : Byte) (payload : List Byte) :
    Prop where
  ethType : ntohsAt mem 12 = 0x0800
  srcMac : slice mem 6 6 = macBytes host.myMac
  headerLen : (mem 14).toNat % 16 * 4 = 20
  totalLen : ntohsAt mem 16 = 20 + payload.length
  protocol : mem 23 = protocol
  srcIp : slice mem 26 4 = ipBytes host.myIp
  destIp : slice mem 30 4 = ipBytes destIp
  payload : slice mem 34 payload.length = payload

theorem header_received (h : InMemory mem (netSendIpv4 host destIp protocol payload))
    (hshort : payload.length < 65516) : HeaderAt mem host destIp protocol payload := by
  have hlen := Sending.length_frame host destIp protocol payload
  rw [InMemory, hlen] at h
  have hpart : ∀ m k, m + k ≤ 34 + payload.length →
      slice mem m k = ((netSendIpv4 host destIp protocol payload).drop m).take k := by
    intro m k hm
    have hslice := slice_part h hm
    rwa [Nat.zero_add] at hslice
  have hbyte : ∀ m b, slice mem m 1 = [b] → mem m = b := fun m b hb => List.singleton_inj.mp hb
  refine ⟨?_, hpart 6 6 (by omega), ?_, ?_, ?_, hpart 26 4 (by omega), hpart 30 4 (by omega), ?_⟩
  · exact ntohsAt_be16 (v := 0x0800#16) (hpart 12 2 (by omega))
  · rw [hbyte 14 0x45#8 (hpart 14 1 (by omega))]
    rfl
  · rw [ntohsAt_be16 (v := BitVec.ofNat 16 (20 + payload.length)) (hpart 16 2 (by omega)), BitVec.toNat_ofNat,
      Nat.mod_eq_of_lt (by omega)]
  · exact hbyte 23 protocol (hpart 23 1 (by omega))
  · refine (hpart 34 payload.length le_rfl).trans ?_
    exact List.take_length

/-- The hardware address that a frame came from. -/
theorem HeaderAt.srcMac_eq (h : HeaderAt mem host destIp protocol payload) :
    (Table.ofFn fun i => mem (6 + i)) = host.myMac := by
  refine Table.ext_get fun i hi => ?_
  have hcell := congrArg (·[i]?) h.srcMac
  simp only [getElem?_slice mem hi] at hcell
  rw [Table.get_ofFn _ hi, macBytes, List.getElem?_map, List.getElem?_range hi] at *
  exact Option.some.inj hcell

/-- A frame for this host reaches the handler of its protocol; the address it came from is kept. -/
theorem netHandlePacket_ipv4 {l : NetLayer} {length : ℕ} (h : HeaderAt mem host l.net.myIp protocol payload)
    (hlength : 14 ≤ length) : netHandlePacket l mem length =
      let l := { l with gatewayMac := Table.ofFn fun i => mem (6 + i) }
      if protocol = 1#8 then netHandleIcmp l mem 34 payload.length
      else if protocol = 17#8 then netHandleUdp l mem 34
      else if protocol = 6#8 then netHandleTcp l mem 20 (20 + payload.length)
      else l := by
  have hforUs : forUs l.net.myIp mem = true := by
    rw [forUs, memcmpEq_iff.mpr h.destIp, Bool.true_or]
  rw [netHandlePacket, if_neg (by omega), if_neg (by rw [h.ethType]; decide), if_pos h.ethType, netHandleIpv4,
    if_pos hforUs]
  dsimp only
  rw [h.headerLen, h.totalLen, h.protocol, Nat.add_sub_cancel_left]

end Header

/-! ## Segments -/

/-- What `tcp_input` is given of a segment from the host with address `srcIp`. -/
def Sent.packet (seg : Sent) (srcIp : Word) : Packet where
  srcIp := srcIp
  srcPort := seg.localPort
  destPort := seg.remotePort
  seqNum := seg.seqNum
  ackNum := seg.ackNum
  dataOffset := 5#4
  flags := seg.flags
  len := totalLen seg
  bytes := fun i => seg.data.getD (i - 20) 0#8

section Segments

variable {mem : ℕ → Byte} {host : Host} {seg : Sent} {srcIp : Word} {net : NetState} {pkt pkt' : Packet}

theorem dataLen_packet (srcIp : Word) (h : seg.data.length ≤ 65495) : (seg.packet srcIp).dataLen = seg.data.length := by
  have hlen : (totalLen seg).toNat = 20 + seg.data.length := by
    rw [totalLen, BitVec.toNat_ofNat, Nat.mod_eq_of_lt (by omega)]
  rw [Packet.dataLen, show (seg.packet srcIp).headerLen = 20 from rfl, show (seg.packet srcIp).len = totalLen seg from rfl,
    hlen, Nat.add_sub_cancel_left]

theorem data_packet (srcIp : Word) (h : seg.data.length ≤ 65495) : (seg.packet srcIp).data = seg.data := by
  rw [Packet.data, dataLen_packet srcIp h]
  refine List.ext_getElem (by simp) fun i _ hi => ?_
  simp only [List.getElem_map, List.getElem_range]
  show seg.data.getD (20 + i - 20) 0#8 = seg.data[i]
  rw [Nat.add_sub_cancel_left, List.getD_eq_getElem _ _ hi]

/-- The fields of two segments, and their data, are the same. -/
structure Packet.Same (pkt pkt' : Packet) : Prop where
  srcIp : pkt.srcIp = pkt'.srcIp
  srcPort : pkt.srcPort = pkt'.srcPort
  destPort : pkt.destPort = pkt'.destPort
  seqNum : pkt.seqNum = pkt'.seqNum
  ackNum : pkt.ackNum = pkt'.ackNum
  dataOffset : pkt.dataOffset = pkt'.dataOffset
  flags : pkt.flags = pkt'.flags
  len : pkt.len = pkt'.len
  data : pkt.data = pkt'.data

/-- `tcp_input` reads no other bytes. -/
theorem tcpInput_congr (h : pkt.Same pkt') : tcpInput net pkt = tcpInput net pkt' := by
  obtain ⟨bytes, rfl⟩ : ∃ bytes, pkt' = { pkt with bytes := bytes } := by
    refine ⟨pkt'.bytes, ?_⟩
    rw [h.srcIp, h.srcPort, h.destPort, h.seqNum, h.ackNum, h.dataOffset, h.flags, h.len]
  -- the data are read in one place
  have haccept : ∀ net p, acceptData net p pkt = acceptData net p { pkt with bytes := bytes } := by
    intro net p
    rw [acceptData, acceptData, h.data]
    rfl
  have hprocess : ∀ i p, tcpProcess net i p pkt = tcpProcess net i p { pkt with bytes := bytes } := by
    intro i p
    rw [tcpProcess, tcpProcess, haccept]
    rfl
  rw [tcpInput, tcpInput]
  simp only [hprocess]
  rfl

/-- The header of a segment in memory. -/
theorem packet_received (hsrc : slice mem 26 4 = ipBytes srcIp) (hlen : seg.data.length ≤ 65495)
    (h : slice mem 34 (tcpSegment seg).length = tcpSegment seg) :
    (packetAt mem 20 (20 + (tcpSegment seg).length)).Same (seg.packet srcIp) := by
  have hseg := tcpSegment_eq seg (by omega)
  have hlength : (tcpSegment seg).length = 20 + seg.data.length := by rw [hseg, length_tcpBuffer]
  rw [hlength] at h ⊢
  rw [hseg] at h
  have hpart : ∀ m k, m + k ≤ 20 + seg.data.length →
      slice mem (34 + m) k = ((tcpBuffer seg (complement (senderSum seg))).drop m).take k :=
    fun m k hm => slice_part h hm
  have hbyte : ∀ m b, slice mem m 1 = [b] → mem m = b := fun m b hb => List.singleton_inj.mp hb
  have hoffset : (packetAt mem 20 (20 + (20 + seg.data.length))).dataOffset = 5#4 := by
    show (mem 46).extractLsb' 4 4 = 5#4
    rw [hbyte 46 0x50#8 (hpart 12 1 (by omega))]
    rfl
  have htotal : (packetAt mem 20 (20 + (20 + seg.data.length))).len = totalLen seg := by
    show BitVec.ofNat 16 (20 + (20 + seg.data.length)) - BitVec.ofNat 16 20 = BitVec.ofNat 16 (20 + seg.data.length)
    rw [Nat.add_comm 20, BitVec.ofNat_add]
    exact BitVec.add_sub_cancel _ _
  have hdataLen : (packetAt mem 20 (20 + (20 + seg.data.length))).dataLen = seg.data.length := by
    refine Eq.trans ?_ (dataLen_packet srcIp hlen)
    rw [Packet.dataLen, Packet.dataLen, Packet.headerLen, Packet.headerLen, hoffset, htotal]
    rfl
  refine ⟨wordOfBytes_ipBytes hsrc, portAt_be16 (hpart 0 2 (by omega)), portAt_be16 (hpart 2 2 (by omega)),
    ntohlAt_be32 (hpart 4 4 (by omega)), ntohlAt_be32 (hpart 8 4 (by omega)), hoffset,
    hbyte 47 seg.flags (hpart 13 1 (by omega)), htotal, ?_⟩
  rw [data_packet srcIp hlen, Packet.data, hdataLen, Packet.headerLen, hoffset]
  have hbytes : (List.range seg.data.length).map (fun i =>
      (packetAt mem 20 (20 + (20 + seg.data.length))).bytes ((5#4).toNat * 4 + i)) = slice mem 54 seg.data.length :=
    List.map_congr_left fun i _ => congrArg mem (Nat.add_assoc 34 20 i).symm
  exact hbytes.trans ((hpart 20 seg.data.length le_rfl).trans List.take_length)

/-- The frame of a segment that one host sends to the address of another is handed to `tcp_input` there, with
its fields and its data, and what `tcp_input` answers is sent. -/
theorem netHandlePacket_segment (host : Host) (l : NetLayer) (seg : Sent) (mem : ℕ → Byte) (length : ℕ)
    (hip : seg.remoteIp = l.net.myIp) (hlen : seg.data.length ≤ 65495) (h : InMemory mem (segmentFrame host seg))
    (hlength : (segmentFrame host seg).length ≤ length) :
    netHandlePacket l mem length =
      { l with
        gatewayMac := host.myMac
        net := tcpInput l.net (seg.packet host.myIp) }.sendSegments
          ((tcpInput l.net (seg.packet host.myIp)).sent.drop l.net.sent.length) := by
  have hseg := tcpSegment_eq seg (by omega)
  have hpayload : (tcpSegment seg).length < 65516 := by
    rw [hseg, length_tcpBuffer]
    omega
  rw [segmentFrame, hip] at h hlength
  have hheader := header_received h hpayload
  rw [Sending.length_frame] at hlength
  rw [netHandlePacket_ipv4 hheader (by omega), if_neg (by decide), if_neg (by decide), if_pos rfl, netHandleTcp]
  dsimp only
  rw [tcpInput_congr (packet_received hheader.srcIp hlen hheader.payload), hheader.srcMac_eq]

end Segments

/-! ## Datagrams -/

/-- A datagram is never too short for the callbacks, and each of them answers. -/
theorem foldlM_udpTestCallback (l : NetLayer) (sockets : List UdpSocket) (n : ℕ) (srcIp : Word) (srcPort : Port) :
    sockets.foldlM (fun l _ => udpTestCallback l n srcIp srcPort) l =
      some (sockets.foldl (fun l _ => l.sendUdp srcIp srcPort 1234#16 udpReply) l) := by
  have hcallback : (fun (l : NetLayer) (_ : UdpSocket) => udpTestCallback l n srcIp srcPort) =
      fun l _ => pure (l.sendUdp srcIp srcPort 1234#16 udpReply) := by
    funext l _
    exact if_neg (Int.not_lt.mpr (Int.natCast_nonneg n))
  rw [hcallback, List.foldlM_pure]
  rfl

/-- The callbacks leave the sockets of the tasks alone. -/
theorem foldl_sendUdp_net (l : NetLayer) (sockets : List UdpSocket) (destIp : Word)
    (destPort srcPort : Port) (payload : List Byte) :
    (sockets.foldl (fun l _ => l.sendUdp destIp destPort srcPort payload) l).net = l.net := by
  induction sockets generalizing l with
  | nil => rfl
  | cons s sockets ih =>
    rw [List.foldl_cons, ih, NetLayer.sendUdp, NetLayer.sendPacket]
    split <;> rfl

/-- **A datagram** that one host sends to the address of another is handed to `socket_dispatch_udp` there,
with its ports and its bytes, after each callback that is bound to the port has answered the sender. -/
theorem datagram_received (host : Host) (l : NetLayer) (srcPort destPort : Port) (message : ℕ → Byte) (n : ℕ)
    (mem : ℕ → Byte) (length : ℕ) (hn : n < 65508)
    (h : InMemory mem (netSendIpv4 host l.net.myIp 17#8 (Sending.datagram srcPort destPort message n)))
    (hlength : 42 + n ≤ length) :
    netHandlePacket l mem length =
      let answered := (callbacks l.udpSockets destPort).foldl
        (fun l _ => l.sendUdp host.myIp srcPort 1234#16 udpReply) { l with gatewayMac := host.myMac }
      { answered with
        net := socketDispatchUdp l.net
          { destPort := destPort
            srcPort := srcPort
            srcIp := host.myIp
            data := Sending.bytesOf message n
            short := by rw [Sending.length_bytesOf]; omega } } := by
  have hlen := Sending.length_datagram srcPort destPort message n
  have hheader := header_received h (by omega)
  have hpart : ∀ m k, m + k ≤ 8 + n →
      slice mem (34 + m) k = ((Sending.datagram srcPort destPort message n).drop m).take k := by
    intro m k hm
    have hpayload := hheader.payload
    rw [hlen] at hpayload
    exact slice_part hpayload hm
  have hudpLen : ntohsAt mem 38 = 8 + n := by
    rw [ntohsAt_be16 (v := BitVec.ofNat 16 (8 + n)) (hpart 4 2 (by omega)), BitVec.toNat_ofNat,
      Nat.mod_eq_of_lt (by omega)]
  have hpayloadLen : (ntohsAt mem (34 + 4) : ℤ) - 8 = n := by
    rw [show 34 + 4 = 38 from rfl, hudpLen]
    omega
  have hcut : ((n : ℤ) % 65536).toNat = n := by omega
  have hdata : slice mem (34 + 8) n = Sending.bytesOf message n := by
    refine (hpart 8 n le_rfl).trans (List.take_of_length_le ?_)
    rw [List.length_drop, hlen]
    omega
  rw [netHandlePacket_ipv4 hheader (by omega), if_neg (by decide), if_pos rfl, netHandleUdp]
  simp only [hpayloadLen, hcut, hdata, hheader.srcMac_eq]
  rw [portAt_be16 (v := destPort) (hpart 2 2 (by omega)), portAt_be16 (v := srcPort) (hpart 0 2 (by omega)),
    wordOfBytes_ipBytes hheader.srcIp, foldlM_udpTestCallback]
  simp only [foldl_sendUdp_net]

/-- Three bytes to port 1234 of the kernel after boot, in a frame that is padded. -/
theorem datagram_received_padded :
    netHandlePacket bootLayer
        ((netSendIpv4 bootLayer.host qemuIp 17#8
          (Sending.datagram 5000#16 1234#16 (BitVec.ofNat 8) 3)).getD · 0#8) 60 =
      let heard := { bootLayer with gatewayMac := bootLayer.myMac }
      { heard.sendUdp qemuIp 5000#16 1234#16 udpReply with
        net := socketDispatchUdp bootLayer.net ⟨1234#16, 5000#16, qemuIp, [0#8, 1#8, 2#8], by decide⟩ } :=
  datagram_received bootLayer.host bootLayer 5000#16 1234#16 (BitVec.ofNat 8) 3 _ 60 (by decide) (inMemory_getD _)
    (by decide)

end PekerOS.Net
