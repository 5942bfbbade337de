import PekerOS.Lib.Memory
import PekerOS.Net.Checksums
import PekerOS.Net.Parsing
import PekerOS.Net.Sending

/-!
# Echo requests

`net_handle_packet` works on the frame in the memory of the driver: an answer to an ARP request or an
echo request is made by overwriting the frame in place. The two addresses of an echo request are
exchanged, its type is overwritten, and both checksums are computed over what is in memory then, with
the lengths that the IP header says.

## Main definitions

* `NetLayer`: the variables of `net.c`, and the frames that are handed to the driver
* `udpTestCallback`: the kernel socket that `kernel.c` binds
* `netHandleArp`, `netHandleIcmp`, `netHandleUdp`, `netHandleTcp`, `netHandleIpv4`, `netHandlePacket`:
  the handlers
* `EchoRequest`, `EchoReply`: a request for this host, and the answer to it

## Main results

* `storeChecksum_verifies`: a checksum that is stored in place is right
* `echo_answered`: every echo request is answered once, and rightly
-/

namespace PekerOS.Net

open Checksum Memory

/-- The variables of `net.c`, with the state of the sockets; `nicSend` says whether a driver is
registered, and `emitted` are the frames it was given. That `kmalloc` finds room for the frames is
assumed. -/
structure NetLayer where
  myMac : Table 6 Byte
  gatewayMac : Table 6 Byte
  ipv4Id : BitVec 16
  nicSend : Bool
  udpSockets : List UdpSocket
  net : NetState
  emitted : List (List Byte)

namespace NetLayer

/-- What a frame of this host is made of. -/
def host (l : NetLayer) : Host := ⟨l.myMac, l.gatewayMac, l.net.myIp, l.ipv4Id⟩

/-- `net_send_packet` -/
def sendPacket (l : NetLayer) (frame : List Byte) : NetLayer :=
  if l.nicSend then { l with emitted := l.emitted ++ [frame] } else l

/-- `net_send_udp` -/
def sendUdp (l : NetLayer) (destIp : Word) (destPort srcPort : Port) (payload : List Byte) : NetLayer :=
  let datagram := Sending.datagram srcPort destPort (payload.getD · 0#8) payload.length
  { l.sendPacket (netSendIpv4 l.host destIp 17#8 datagram) with ipv4Id := l.ipv4Id + 1#16 }

/-- `net_send_ipv4` for each of the segments that `tcp_input` sends. -/
def sendSegments (l : NetLayer) (segments : List Sent) : NetLayer :=
  segments.foldl (fun l seg => { l.sendPacket (segmentFrame l.host seg) with ipv4Id := l.ipv4Id + 1#16 }) l

end NetLayer

def macBytes (mac : Table 6 Byte) : List Byte := (List.range 6).map mac.get

/-- A checksum field is zeroed, and the checksum of `n` bytes is stored in it. -/
def storeChecksum (mem : ℕ → Byte) (field off n : ℕ) : ℕ → Byte :=
  let mem := store mem field (le16 0#16)
  store mem field (le16 (calculateChecksum (slice mem off n)))

/-- `net_handle_arp`, on the packet at offset 14. -/
def netHandleArp (l : NetLayer) (mem : ℕ → Byte) : NetLayer :=
  if ntohsAt mem 20 = 1 then
    if memcmpEq mem 38 (ipBytes l.net.myIp) then
      let mem := store mem 0 (slice mem 6 6)
      let mem := store mem 6 (macBytes l.myMac)
      let mem := store mem 20 (be16 2#16)
      let mem := store mem 32 (slice mem 22 6)
      let mem := store mem 38 (slice mem 28 4)
      let mem := store mem 22 (macBytes l.myMac)
      let mem := store mem 28 (ipBytes l.net.myIp)
      l.sendPacket (slice mem 0 42)
    else l
  else if ntohsAt mem 20 = 2 then { l with gatewayMac := Table.ofFn fun i => mem (22 + i) }
  else l

/-- `net_handle_icmp`; a negative length is 0 to the checksum. -/
def netHandleIcmp (l : NetLayer) (mem : ℕ → Byte) (icmp icmpLen : ℕ) : NetLayer :=
  if mem icmp = 8#8 then
    let mem := store mem 0 (slice mem 6 6)
    let mem := store mem 6 (macBytes l.myMac)
    let tempIp := slice mem 30 4
    let mem := store mem 30 (slice mem 26 4)
    let mem := store mem 26 tempIp
    let mem := storeChecksum mem 24 14 ((mem 14).toNat % 16 * 4)
    let mem := store mem icmp [0#8]
    let mem := storeChecksum mem (icmp + 2) icmp icmpLen
    l.sendPacket (slice mem 0 (14 + ntohsAt mem 16))
  else l

/-- What `udp_test_callback` answers. -/
def udpReply : List Byte :=
  "FerkanOS UDP Echo Server: Mesaj alindi!\n".toUTF8.data.toList.map UInt8.toBitVec

/-- `udp_test_callback`, for a datagram of `len` bytes from `srcPort`; the datagram is printed. With a
negative length, `memcpy` runs over the stack: `none`. -/
def udpTestCallback (l : NetLayer) (len : ℤ) (srcIp : Word) (srcPort : Port) : Option NetLayer :=
  if len < 0 then none else some (l.sendUdp srcIp srcPort 1234#16 udpReply)

/-- `net_handle_udp` -/
def netHandleUdp (l : NetLayer) (mem : ℕ → Byte) (udp : ℕ) : NetLayer :=
  let destPort := portAt mem (udp + 2)
  let srcPort := portAt mem udp
  let srcIp := wordOfBytes fun i => mem (26 + i)
  let payloadLen : ℤ := ntohsAt mem (udp + 4) - 8
  let called := (callbacks l.udpSockets destPort).foldlM
    (fun l _ => udpTestCallback l payloadLen srcIp srcPort) l
  match called with
  | none => { l with net := fault l.net }
  | some l =>
    { l with
      net := socketDispatchUdp l.net
        { destPort := destPort
          srcPort := srcPort
          srcIp := srcIp
          -- the length is cut to a `uint16_t`
          data := slice mem (udp + 8) (payloadLen % 65536).toNat
          short := by
            rw [length_slice]
            omega } }

/-- `tcp_input`, on the segment behind the IP header. -/
def netHandleTcp (l : NetLayer) (mem : ℕ → Byte) (hl total : ℕ) : NetLayer :=
  let net := tcpInput l.net (packetAt mem hl total)
  { l with net := net }.sendSegments (net.sent.drop l.net.sent.length)

/-- `net_handle_ipv4`, on the packet at offset 14. -/
def netHandleIpv4 (l : NetLayer) (mem : ℕ → Byte) : NetLayer :=
  let l := { l with gatewayMac := Table.ofFn fun i => mem (6 + i) }
  if forUs l.net.myIp mem then
    let hl := (mem 14).toNat % 16 * 4
    let total := ntohsAt mem 16
    if mem 23 = 1#8 then netHandleIcmp l mem (14 + hl) (total - hl)
    else if mem 23 = 17#8 then netHandleUdp l mem (14 + hl)
    else if mem 23 = 6#8 then netHandleTcp l mem hl total
    else l
  else l

/-- `net_handle_packet`, on a frame of `length` bytes. -/
def netHandlePacket (l : NetLayer) (mem : ℕ → Byte) (length : ℕ) : NetLayer :=
  if length < 14 then l
  else if ntohsAt mem 12 = 0x0806 then netHandleArp l mem
  else if ntohsAt mem 12 = 0x0800 then netHandleIpv4 l mem
  else l

/-! ## Requests and replies -/

/-- The length of the IP header of a frame in memory, and that of header and payload. -/
abbrev headerLenAt (mem : ℕ → Byte) : ℕ := (mem 14).toNat % 16 * 4

abbrev totalLenAt (mem : ℕ → Byte) : ℕ := ntohsAt mem 16

/-- An echo request to the address `myIp`, in a frame of `length` bytes. The IP header may have options,
and the frame may be padded. -/
structure EchoRequest (myIp : Word) (mem : ℕ → Byte) (length : ℕ) : Prop where
  ethType : ntohsAt mem 12 = 0x0800
  ihl : 20 ≤ headerLenAt mem
  protocol : mem 23 = 1#8
  dest : slice mem 30 4 = ipBytes myIp
  type : mem (14 + headerLenAt mem) = 8#8
  header : headerLenAt mem + 8 ≤ totalLenAt mem
  whole : 14 + totalLenAt mem ≤ length

/-- The reply of a host to an echo request. -/
structure EchoReply (myMac : Table 6 Byte) (myIp : Word) (mem : ℕ → Byte) (reply : List Byte) : Prop where
  length : reply.length = 14 + totalLenAt mem
  destMac : reply.take 6 = slice mem 6 6
  srcMac : (reply.drop 6).take 6 = macBytes myMac
  srcIp : (reply.drop 26).take 4 = ipBytes myIp
  destIp : (reply.drop 30).take 4 = slice mem 26 4
  type : reply[14 + headerLenAt mem]? = some 0#8
  code : reply[14 + headerLenAt mem + 1]? = some (mem (14 + headerLenAt mem + 1))
  -- identifier, sequence number and payload
  data : reply.drop (14 + headerLenAt mem + 4) =
    slice mem (14 + headerLenAt mem + 4) (totalLenAt mem - headerLenAt mem - 4)
  -- the rest of the headers
  front : (reply.drop 12).take 12 = slice mem 12 12
  options : (reply.drop 34).take (headerLenAt mem - 20) = slice mem 34 (headerLenAt mem - 20)
  ipChecksum : HeaderVerifies reply
  icmpChecksum : fold (netSum (ipPayload reply)) = 65535

section Stores

variable (mem : ℕ → Byte) {off m n o field : ℕ}

@[simp] theorem length_le16 (v : BitVec 16) : (le16 v).length = 2 := rfl

@[simp] theorem length_ipBytes (ip : Word) : (ipBytes ip).length = 4 := rfl

@[simp] theorem length_macBytes (mac : Table 6 Byte) : (macBytes mac).length = 6 := rfl

/-- A checksum elsewhere. -/
theorem slice_storeChecksum_of_disjoint {k : ℕ} (h : o + n ≤ field ∨ field + 2 ≤ o) :
    slice (storeChecksum mem field off k) o n = slice mem o n := by
  rw [storeChecksum, slice_store_of_disjoint _ h, slice_store_of_disjoint _ h]

/-- The bytes with their checksum. -/
theorem slice_storeChecksum (h : m + 2 ≤ n) :
    slice (storeChecksum mem (off + m) off n) off n =
      slice mem off m ++
        le16 (calculateChecksum
          (slice mem off m ++ [0#8, 0#8] ++ slice mem (off + m + 2) (n - m - 2))) ++
          slice mem (off + m + 2) (n - m - 2) := by
  have hzeroed : slice (store mem (off + m) (le16 0#16)) off n =
      slice mem off m ++ [0#8, 0#8] ++ slice mem (off + m + 2) (n - m - 2) := slice_store_inside mem h
  have hback : slice (store mem (off + m) (le16 0#16)) (off + m + 2) (n - m - 2) =
      slice mem (off + m + 2) (n - m - 2) := slice_store_of_disjoint mem (.inr le_rfl)
  rw [storeChecksum, hzeroed]
  refine (slice_store_inside _ h).trans ?_
  rw [slice_store_of_disjoint _ (.inl le_rfl), length_le16, hback]

/-- A checksum that is stored in place is right. -/
theorem storeChecksum_verifies (heven : m % 2 = 0) (h : m + 2 ≤ n) (hn : n ≤ 65535) :
    fold (netSum (slice (storeChecksum mem (off + m) off n) off n)) = 65535 := by
  rw [slice_storeChecksum mem h]
  refine stored_verifies (by rwa [length_slice]) ?_
  simp only [List.length_append, length_slice, List.length_cons, List.length_nil]
  omega

end Stores

section Reply

variable {myMac : Table 6 Byte} {myIp : Word} {mem : ℕ → Byte} {length : ℕ}

/-- The frame with the addresses exchanged and the type overwritten, before the checksums. -/
def swapAddresses (myMac : Table 6 Byte) (mem : ℕ → Byte) : ℕ → Byte :=
  let mem := store mem 0 (slice mem 6 6)
  let mem := store mem 6 (macBytes myMac)
  let tempIp := slice mem 30 4
  let mem := store mem 30 (slice mem 26 4)
  store mem 26 tempIp

/-- The memory from which the reply to an echo request is sent. -/
def replyMemory (myMac : Table 6 Byte) (mem : ℕ → Byte) : ℕ → Byte :=
  let icmp := 14 + headerLenAt mem
  let swapped := storeChecksum (swapAddresses myMac mem) 24 14 (headerLenAt mem)
  storeChecksum (store swapped icmp [0#8]) (icmp + 2) icmp (totalLenAt mem - headerLenAt mem)

/-- The two hardware addresses. -/
theorem slice_swap_mac :
    slice (swapAddresses myMac mem) 0 6 = slice mem 6 6 ∧
      slice (swapAddresses myMac mem) 6 6 = macBytes myMac := by
  have hlow (mem : ℕ → Byte) (as bs : List Byte) {o : ℕ} (h : o + 6 ≤ 26) :
      slice (store (store mem 30 as) 26 bs) o 6 = slice mem o 6 := by
    rw [slice_store_of_disjoint _ (.inl h), slice_store_of_disjoint _ (.inl (by omega))]
  simp only [swapAddresses]
  rw [hlow _ _ _ (by decide), hlow _ _ _ (by decide)]
  constructor
  · refine (slice_store_of_disjoint _ (.inl (by decide))).trans ?_
    exact slice_store_self mem (length_slice mem 6 6)
  · exact slice_store_self _ (length_macBytes myMac)

/-- The two addresses of the IP header. -/
theorem slice_swap_ip :
    slice (swapAddresses myMac mem) 26 4 = slice mem 30 4 ∧
      slice (swapAddresses myMac mem) 30 4 = slice mem 26 4 := by
  have hmac {o : ℕ} (h : 12 ≤ o) :
      slice (store (store mem 0 (slice mem 6 6)) 6 (macBytes myMac)) o 4 = slice mem o 4 := by
    rw [slice_store_of_disjoint _ (.inr h), slice_store_of_disjoint _ (.inr ?_)]
    rw [length_slice]
    omega
  simp only [swapAddresses]
  rw [hmac (by decide), hmac (by decide)]
  constructor
  · exact slice_store_self _ (length_slice mem 30 4)
  · rw [slice_store_of_disjoint _ (.inr (by rw [length_slice]))]
    exact slice_store_self _ (length_slice mem 26 4)

/-- The rest of the frame. -/
theorem slice_swap_other {o n : ℕ} (h : 12 ≤ o ∧ o + n ≤ 26 ∨ 34 ≤ o) :
    slice (swapAddresses myMac mem) o n = slice mem o n := by
  simp only [swapAddresses]
  rw [slice_store_of_disjoint, slice_store_of_disjoint, slice_store_of_disjoint, slice_store_of_disjoint]
  all_goals
    simp only [length_slice, length_macBytes]
    omega

/-- What the checksums and the type leave alone. -/
theorem slice_replyMemory {o n : ℕ} (hip : o + n ≤ 24 ∨ 26 ≤ o)
    (htype : o + n ≤ 14 + headerLenAt mem ∨ 14 + headerLenAt mem + 1 ≤ o)
    (hicmp : o + n ≤ 14 + headerLenAt mem + 2 ∨ 14 + headerLenAt mem + 4 ≤ o) :
    slice (replyMemory myMac mem) o n = slice (swapAddresses myMac mem) o n := by
  simp only [replyMemory]
  rw [slice_storeChecksum_of_disjoint _ hicmp, slice_store_of_disjoint _ htype,
    slice_storeChecksum_of_disjoint _ hip]

/-- Bytes of a frame in memory. -/
theorem ipByte_slice {n i : ℕ} (h : 14 + i < n) : ipByte (slice mem 0 n) i = (mem (14 + i)).toNat := by
  rw [ipByte, List.getD_eq_getElem?_getD, getElem?_slice mem h, Nat.zero_add, Option.getD_some]

/-- A frame with its two lengths. -/
theorem ipHeader_slice {n : ℕ} (h : 14 + headerLenAt mem ≤ n) (hpos : 15 ≤ n) :
    ipHeader (slice mem 0 n) = slice mem 14 (headerLenAt mem) := by
  rw [ipHeader, ipHeaderLen, ipByte_slice (by omega), drop_slice]
  exact take_slice mem (Nat.le_sub_of_add_le' h)

/-- The lengths are in the first four bytes of the IP header. -/
theorem lengths_of_slice {mem' : ℕ → Byte} (h : slice mem' 14 4 = slice mem 14 4) :
    headerLenAt mem' = headerLenAt mem ∧ totalLenAt mem' = totalLenAt mem := by
  have hbyte (i : ℕ) (hi : i < 4) : mem' (14 + i) = mem (14 + i) := apply_of_slice h hi
  have h0 : mem' 14 = mem 14 := hbyte 0 (by decide)
  have h2 : mem' 16 = mem 16 := hbyte 2 (by decide)
  have h3 : mem' (16 + 1) = mem (16 + 1) := hbyte 3 (by decide)
  rw [headerLenAt, headerLenAt, totalLenAt, totalLenAt, ntohsAt, ntohsAt, h0, h2, h3]
  exact ⟨rfl, rfl⟩

theorem ipPayload_slice {n : ℕ} (h : 14 + totalLenAt mem ≤ n) (hpos : 18 ≤ n) :
    ipPayload (slice mem 0 n) =
      slice mem (14 + headerLenAt mem) (totalLenAt mem - headerLenAt mem) := by
  have htotal : ipTotalLen (slice mem 0 n) = totalLenAt mem := by
    rw [ipTotalLen, ipByte_slice (by omega), ipByte_slice (by omega)]
    rfl
  rw [ipPayload, htotal, ipHeaderLen, ipByte_slice (by omega), drop_slice, Nat.zero_add,
    take_slice mem (by omega), drop_slice]

/-- A swap keeps both lengths, and so does the rest. -/
theorem lengths_swap (myMac : Table 6 Byte) (mem : ℕ → Byte) :
    headerLenAt (swapAddresses myMac mem) = headerLenAt mem ∧
      totalLenAt (swapAddresses myMac mem) = totalLenAt mem :=
  lengths_of_slice (slice_swap_other (by decide))

theorem lengths_replyMemory (myMac : Table 6 Byte) (hihl : 20 ≤ headerLenAt mem) :
    headerLenAt (replyMemory myMac mem) = headerLenAt mem ∧
      totalLenAt (replyMemory myMac mem) = totalLenAt mem := by
  refine lengths_of_slice ?_
  rw [slice_replyMemory (by omega) (by omega) (by omega), slice_swap_other (by decide)]

/-- The type and the code. -/
theorem replyMemory_type : replyMemory myMac mem (14 + headerLenAt mem) = 0#8 := by
  have htype : slice (replyMemory myMac mem) (14 + headerLenAt mem) 1 = [0#8] := by
    simp only [replyMemory]
    rw [slice_storeChecksum_of_disjoint _ (.inl (Nat.add_le_add_left (by decide) _))]
    exact slice_store_self _ rfl
  rw [slice_one, List.cons.injEq] at htype
  exact htype.1

theorem replyMemory_code (hihl : 20 ≤ headerLenAt mem) :
    replyMemory myMac mem (14 + headerLenAt mem + 1) = mem (14 + headerLenAt mem + 1) := by
  have hcode : slice (replyMemory myMac mem) (14 + headerLenAt mem + 1) 1 =
      slice mem (14 + headerLenAt mem + 1) 1 := by
    rw [slice_replyMemory (by omega) (by omega) (by omega), slice_swap_other (by omega)]
  rw [slice_one, slice_one, List.cons.injEq] at hcode
  exact hcode.1

/-- Both checksums. -/
theorem replyMemory_verifies (myMac : Table 6 Byte) (hihl : 20 ≤ headerLenAt mem)
    (hheader : headerLenAt mem + 8 ≤ totalLenAt mem) :
    fold (netSum (slice (replyMemory myMac mem) 14 (headerLenAt mem))) = 65535 ∧
      fold (netSum (slice (replyMemory myMac mem) (14 + headerLenAt mem)
        (totalLenAt mem - headerLenAt mem))) = 65535 := by
  have hhl : headerLenAt mem ≤ 60 := by rw [headerLenAt]; omega
  have htotal : totalLenAt mem < 65536 := ntohsAt_lt mem 16
  simp only [replyMemory]
  constructor
  · -- the ICMP message is behind the header
    rw [slice_storeChecksum_of_disjoint _ (.inl (by omega)), slice_store_of_disjoint _ (.inl le_rfl)]
    exact storeChecksum_verifies _ (show 10 % 2 = 0 by decide) (by omega) (by omega)
  · exact storeChecksum_verifies _ (show 2 % 2 = 0 by decide) (by omega) (by omega)

/-- The reply, read off the memory it is sent from. -/
theorem echoReply (h : EchoRequest myIp mem length) :
    EchoReply myMac myIp mem (slice (replyMemory myMac mem) 0 (14 + totalLenAt mem)) := by
  have hihl := h.ihl
  have hheader := h.header
  obtain ⟨hhl, htotal⟩ := lengths_replyMemory myMac hihl
  obtain ⟨hip, hicmp⟩ := replyMemory_verifies myMac hihl hheader
  -- a part of the frame that the checksums and the type are not in
  have hpart {o n : ℕ} (hn : o + n ≤ 14 + totalLenAt mem) (hip : o + n ≤ 24 ∨ 26 ≤ o)
      (hout : o + n ≤ 14 + headerLenAt mem ∨ 14 + headerLenAt mem + 4 ≤ o) :
      ((slice (replyMemory myMac mem) 0 (14 + totalLenAt mem)).drop o).take n =
        slice (swapAddresses myMac mem) o n := by
    rw [drop_slice, take_slice _ (by omega), Nat.zero_add,
      slice_replyMemory hip (by omega) (by omega)]
  have hcell {i : ℕ} (hi : i < 14 + totalLenAt mem) :
      (slice (replyMemory myMac mem) 0 (14 + totalLenAt mem))[i]? = some (replyMemory myMac mem i) := by
    rw [getElem?_slice _ hi, Nat.zero_add]
  exact {
    length := length_slice _ _ _
    destMac := (hpart (by omega) (by omega) (by omega)).trans slice_swap_mac.1
    srcMac := (hpart (by omega) (by omega) (by omega)).trans slice_swap_mac.2
    srcIp := (hpart (by omega) (by omega) (by omega)).trans (slice_swap_ip.1.trans h.dest)
    destIp := (hpart (by omega) (by omega) (by omega)).trans slice_swap_ip.2
    type := by rw [hcell (by omega), replyMemory_type]
    code := by rw [hcell (by omega), replyMemory_code hihl]
    data := by
      have hrest : 14 + totalLenAt mem - (14 + headerLenAt mem + 4) =
          totalLenAt mem - headerLenAt mem - 4 := by omega
      rw [drop_slice, Nat.zero_add, hrest, slice_replyMemory (by omega) (by omega) (by omega),
        slice_swap_other (by omega)]
    front := (hpart (by omega) (by omega) (by omega)).trans (slice_swap_other (by omega))
    options := (hpart (by omega) (by omega) (by omega)).trans (slice_swap_other (by omega))
    ipChecksum := by
      rw [HeaderVerifies, ipHeader_slice (by omega) (by omega), hhl]
      exact hip
    icmpChecksum := by
      rw [ipPayload_slice (by omega) (by omega), hhl, htotal]
      exact hicmp }

end Reply

section Handlers

variable {l : NetLayer} {mem : ℕ → Byte} {length : ℕ}

/-- `memcmp` compares a slice. -/
theorem memcmpEq_iff {off : ℕ} {bs : List Byte} :
    memcmpEq mem off bs = true ↔ slice mem off bs.length = bs := by
  induction bs generalizing off with
  | nil => exact iff_of_true rfl rfl
  | cons b bs ih =>
    rw [memcmpEq, Bool.and_eq_true, decide_eq_true_eq, ih, List.length_cons, Nat.add_comm bs.length,
      slice_add, slice_one, List.singleton_append, List.cons.injEq]

/-- The handler of an echo request. -/
theorem netHandleIcmp_echo (hdriver : l.nicSend = true) (hihl : 20 ≤ headerLenAt mem)
    (htype : mem (14 + headerLenAt mem) = 8#8) :
    netHandleIcmp l mem (14 + headerLenAt mem) (totalLenAt mem - headerLenAt mem) =
      { l with
        emitted := l.emitted ++ [slice (replyMemory l.myMac mem) 0 (14 + totalLenAt mem)] } := by
  obtain ⟨hhl, -⟩ := lengths_swap l.myMac mem
  obtain ⟨-, htotal⟩ := lengths_replyMemory l.myMac hihl
  rw [netHandleIcmp, if_pos htype]
  show l.sendPacket (slice (storeChecksum (store (storeChecksum (swapAddresses l.myMac mem) 24 14
    (headerLenAt (swapAddresses l.myMac mem))) _ _) _ _ _) 0 (14 + totalLenAt _)) = _
  rw [hhl, NetLayer.sendPacket, if_pos hdriver]
  show { l with emitted := l.emitted ++ [slice (replyMemory l.myMac mem) 0
    (14 + totalLenAt (replyMemory l.myMac mem))] } = _
  rw [htotal]

end Handlers

/-- **Echo requests**: for every echo request to this host, whatever its options and its payload,
`net_handle_packet` hands one frame to the driver, and that is the reply. -/
theorem echo_answered (l : NetLayer) (mem : ℕ → Byte) (length : ℕ) (hdriver : l.nicSend = true)
    (h : EchoRequest l.net.myIp mem length) :
    ∃ reply, (netHandlePacket l mem length).emitted = l.emitted ++ [reply] ∧
      EchoReply l.myMac l.net.myIp mem reply := by
  have hwhole := h.whole
  have hforUs : forUs l.net.myIp mem = true := by
    rw [forUs, memcmpEq_iff.mpr h.dest, Bool.true_or]
  refine ⟨_, ?_, echoReply h⟩
  rw [netHandlePacket, if_neg (by omega), if_neg (by rw [h.ethType]; decide), if_pos h.ethType,
    netHandleIpv4, if_pos hforUs, if_pos h.protocol]
  -- the sender's hardware address has been kept by now
  exact congrArg NetLayer.emitted (netHandleIcmp_echo
    (l := { l with gatewayMac := Table.ofFn fun i => mem (6 + i) }) hdriver h.ihl h.type)

/-- An echo request from 10.0.2.2, with an option of four bytes and a payload of three. -/
def pingFrame : List Byte :=
  [0x52, 0x54, 0, 0x12, 0x34, 0x56, 0x52, 0x55, 10, 0, 2, 2, 8, 0,
    0x46, 0, 0, 35, 0, 1, 0, 0, 64, 1, 0, 0, 10, 0, 2, 2, 10, 0, 2, 15, 1, 1, 1, 0,
    8, 0, 0, 0, 0x12, 0x34, 0, 1, 0x61, 0x62, 0x63]

/-- The kernel after boot, with a driver and the socket of `udp_test_callback`. -/
def bootLayer : NetLayer where
  myMac := Table.ofFn fun i => [0x52, 0x54, 0, 0x12, 0x34, 0x56].getD i 0#8
  gatewayMac := Table.ofFn fun _ => 0xFF#8
  ipv4Id := 0#16
  nicSend := true
  udpSockets := ⟨1234#16, true, true⟩ :: List.replicate 15 ⟨0#16, false, false⟩
  net := .init qemuIp fun _ => newPcb
  emitted := []

theorem echo_answered_ping :
    ∃ reply, (netHandlePacket bootLayer (pingFrame.getD · 0#8) 60).emitted = [reply] ∧
      EchoReply bootLayer.myMac qemuIp (pingFrame.getD · 0#8) reply :=
  echo_answered bootLayer (pingFrame.getD · 0#8) 60 rfl
    { ethType := by decide
      ihl := by decide
      protocol := by decide
      dest := by decide
      type := by decide
      header := by decide
      whole := by decide }

end PekerOS.Net
