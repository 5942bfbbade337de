import PekerOS.Net.Segments

/-!
# Incoming frames

`net_handle_packet` compares the length of a frame with that of an Ethernet header. The handlers behind
it take the lengths of the headers and of the data from the frame alone. Here is which bytes of the
frame they read and write, and which lengths they pass to a copy of the payload, on each path through
them; none of the bytes written is one that a length is read from.

## Main definitions

* `Access`, `Within`: what a handler does with the frame, and that it stays inside
* `arpAccesses`, `icmpAccesses`, `udpAccesses`, `tcpAccesses`, `ipv4Accesses`, `packetAccesses`: the
  handlers of `net.c`, with `udp_test_callback`, `socket_dispatch_udp` and `tcp_input`
* `ArpOk`, `IcmpOk`, `UdpOk`, `TcpOk`, `Ipv4Ok`, `FrameOk`: the lengths that each path needs

## Main results

* `within_arp`, `within_icmp`, `within_udp`, `within_tcp`: each handler by itself
* `within_packet`: the frames that are handled inside their bounds
-/

namespace PekerOS.Net

/-- A byte of the frame that is read or written, or a copy of `len` bytes of a payload of which there
are `payload` by the headers. -/
inductive Access
  | byte (i : ℕ)
  | copy (len payload : ℤ)
deriving DecidableEq

/-- The byte is in the frame; the length is neither negative nor wrapped. -/
def Access.Ok (length : ℕ) : Access → Prop
  | .byte i => i < length
  | .copy len payload => 0 ≤ len ∧ len ≤ payload

/-- All accesses stay inside the frame. -/
def Within (length : ℕ) (as : List Access) : Prop := ∀ a ∈ as, a.Ok length

/-- `n` bytes from offset `off`. -/
def bytesFrom (off n : ℕ) : List Access := (List.range n).map fun i => .byte (off + i)

/-- A kernel socket of `net.c`; `callback` is `udp_test_callback`, if there is one. -/
structure UdpSocket where
  localPort : Port
  callback : Bool
  inUse : Bool

/-! ## Fields -/

/-- `ntohs` of the field at offset `i`. -/
def ntohsAt (mem : ℕ → Byte) (i : ℕ) : ℕ := 256 * (mem i).toNat + (mem (i + 1)).toNat

def portAt (mem : ℕ → Byte) (i : ℕ) : Port := mem i ++ mem (i + 1)

/-- `ntohl` of the field at offset `i`. -/
def ntohlAt (mem : ℕ → Byte) (i : ℕ) : Word := mem i ++ mem (i + 1) ++ mem (i + 2) ++ mem (i + 3)

/-- The number of bytes that `memcmp` compares. -/
def compared (mem : ℕ → Byte) : ℕ → List Byte → ℕ
  | _, [] => 0
  | off, b :: bs => if mem off = b then compared mem (off + 1) bs + 1 else 1

/-- `memcmp` returns 0. -/
def memcmpEq (mem : ℕ → Byte) : ℕ → List Byte → Bool
  | _, [] => true
  | off, b :: bs => mem off = b && memcmpEq mem (off + 1) bs

def memcmpAccesses (mem : ℕ → Byte) (off : ℕ) (bs : List Byte) : List Access :=
  bytesFrom off (compared mem off bs)

/-! ## The handlers -/

/-- `net_handle_arp`, on the packet at offset 14. -/
def arpAccesses (myIp : Word) (mem : ℕ → Byte) : List Access :=
  bytesFrom 20 2 ++
    if ntohsAt mem 20 = 1 then
      memcmpAccesses mem 38 (ipBytes myIp) ++
        if memcmpEq mem 38 (ipBytes myIp) then
          -- both MAC addresses, the opcode, and the addresses in the ARP packet, then the reply
          bytesFrom 0 12 ++ bytesFrom 20 2 ++ bytesFrom 22 20 ++ bytesFrom 0 42
        else []
    else bytesFrom 20 2 ++ if ntohsAt mem 20 = 2 then bytesFrom 22 6 else []

/-- `net_handle_icmp`; `hl` and `total` are `ip->ihl * 4` and `ntohs(ip->total_len)`. -/
def icmpAccesses (mem : ℕ → Byte) (hl total : ℕ) : List Access :=
  let icmp := 14 + hl
  bytesFrom icmp 1 ++
    if mem icmp = 8#8 then
      bytesFrom 0 12 ++ bytesFrom 26 8 ++ bytesFrom 24 2 ++ bytesFrom 14 1 ++ bytesFrom 14 hl ++
        bytesFrom icmp 1 ++ bytesFrom (icmp + 2) 2 ++
          -- a negative count sums up nothing
          bytesFrom icmp (total - hl) ++ bytesFrom 16 2 ++ bytesFrom 0 (14 + total)
    else []

/-- `udp_test_callback` -/
def callbackAccesses (data : ℕ) (len : ℤ) : List Access :=
  .copy (min len 127) len :: (bytesFrom data (min len 127).toNat ++ bytesFrom 26 4)

/-- A datagram of `len` bytes fits in the buffer of its socket. -/
def stores (net : NetState) (port : Port) (len : ℕ) : Bool :=
  match udpTarget net port with
  | none => false
  | some k => ((net.sockets.get k).ring.len + (8 + len)) % 2 ^ 32 ≤ socketBufferSize

/-- `socket_dispatch_udp`; the length is cut to a `uint16_t`. -/
def dispatchAccesses (net : NetState) (port : Port) (data : ℕ) (payloadLen : ℤ) : List Access :=
  let len := (payloadLen % 65536).toNat
  (if (udpTarget net port).isSome then bytesFrom 26 4 else []) ++
    if stores net port len then .copy len payloadLen :: bytesFrom data len else []

/-- The kernel sockets on a port that have a callback. -/
def callbacks (udpSockets : List UdpSocket) (port : Port) : List UdpSocket :=
  udpSockets.filter fun s => s.inUse && s.localPort = port && s.callback

/-- `net_handle_udp` -/
def udpAccesses (net : NetState) (udpSockets : List UdpSocket) (mem : ℕ → Byte) (hl : ℕ) : List Access :=
  let udp := 14 + hl
  let port := portAt mem (udp + 2)
  let payloadLen : ℤ := ntohsAt mem (udp + 4) - 8
  bytesFrom udp 6 ++
    (callbacks udpSockets port).flatMap (fun _ => callbackAccesses (udp + 8) payloadLen) ++
      dispatchAccesses net port (udp + 8) payloadLen

/-- What `tcp_input` is given: the header behind the IP header, and a length that is a `uint16_t`. -/
def packetAt (mem : ℕ → Byte) (hl total : ℕ) : Packet where
  srcIp := wordOfBytes fun i => mem (26 + i)
  srcPort := portAt mem (14 + hl)
  destPort := portAt mem (14 + hl + 2)
  seqNum := ntohlAt mem (14 + hl + 4)
  ackNum := ntohlAt mem (14 + hl + 8)
  dataOffset := (mem (14 + hl + 12)).extractLsb' 4 4
  flags := mem (14 + hl + 13)
  len := BitVec.ofNat 16 total - BitVec.ofNat 16 hl
  bytes := fun n => mem (14 + hl + n)

/-- The search for the control block; `memcmp` is on the source address. -/
def lookupAccesses (net : NetState) (mem : ℕ → Byte) (pkt : Packet) : List Access :=
  let scanned :=
    match tcpLookup net pkt with
    | none => 16
    | some i => i + 1
  (List.range scanned).flatMap fun i =>
    match net.tcpPcbs.get i with
    | none => []
    | some p =>
      if (net.heap p).localPort = pkt.destPort ∧ (net.heap p).state ≠ .listen ∧
          (net.heap p).remotePort = pkt.srcPort then
        memcmpAccesses mem 26 (ipBytes (net.heap p).remoteIp)
      else []

/-- The states in which `tcp_input` looks at the flags. -/
def TcpState.readsFlags : TcpState → Bool
  | .closed => false
  | .closeWait => false
  | .closing => false
  | .timeWait => false
  | _ => true

/-- `tcp_input` -/
def tcpAccesses (net : NetState) (mem : ℕ → Byte) (hl total : ℕ) : List Access :=
  let tcp := 14 + hl
  let pkt := packetAt mem hl total
  bytesFrom tcp 12 ++ lookupAccesses net mem pkt ++
    match tcpTarget net pkt with
    | none => []
    | some p =>
      (if (net.heap p).state.readsFlags then bytesFrom (tcp + 13) 1 else []) ++
        match (net.heap p).state with
        | .listen => if hasFlag pkt.flags tcpSyn then bytesFrom 26 4 else []
        | .established =>
          if hasFlag pkt.flags tcpFin then []
          else bytesFrom (tcp + 12) 1 ++
            if (acceptingSocket net pkt).isSome then
              .copy pkt.dataLen (total - hl - pkt.headerLen) ::
                bytesFrom (tcp + pkt.headerLen) pkt.dataLen
            else []
        | _ => []

/-- `broadcast_mac`, of which an address is compared with the first four bytes. -/
def broadcast : List Byte := List.replicate 4 0xFF#8

/-- The destination address is that of this host, or the broadcast address. -/
def forUs (myIp : Word) (mem : ℕ → Byte) : Bool :=
  memcmpEq mem 30 (ipBytes myIp) || memcmpEq mem 30 broadcast

/-- `net_handle_ipv4`, on the packet at offset 14. -/
def ipv4Accesses (net : NetState) (udpSockets : List UdpSocket) (mem : ℕ → Byte) : List Access :=
  let hl := (mem 14).toNat % 16 * 4
  let total := ntohsAt mem 16
  bytesFrom 6 6 ++ memcmpAccesses mem 30 (ipBytes net.myIp) ++
    (if memcmpEq mem 30 (ipBytes net.myIp) then [] else memcmpAccesses mem 30 broadcast) ++
      if forUs net.myIp mem then
        bytesFrom 14 1 ++ bytesFrom 23 1 ++
          if mem 23 = 1#8 then bytesFrom 16 2 ++ icmpAccesses mem hl total
          else if mem 23 = 17#8 then bytesFrom 16 2 ++ udpAccesses net udpSockets mem hl
          else if mem 23 = 6#8 then bytesFrom 16 2 ++ tcpAccesses net mem hl total
          else []
      else []

/-- `net_handle_packet` -/
def packetAccesses (net : NetState) (udpSockets : List UdpSocket) (mem : ℕ → Byte) (length : ℕ) :
    List Access :=
  if length < 14 then []
  else bytesFrom 12 2 ++
    if ntohsAt mem 12 = 0x0806 then arpAccesses net.myIp mem
    else if ntohsAt mem 12 = 0x0800 then ipv4Accesses net udpSockets mem
    else []

/-! ## What the frame has to hold -/

section Conditions

variable (net : NetState) (udpSockets : List UdpSocket) (mem : ℕ → Byte) (length : ℕ)

def ArpOk (myIp : Word) : Prop :=
  if ntohsAt mem 20 = 1 then
    if memcmpEq mem 38 (ipBytes myIp) then 42 ≤ length
    else 38 + compared mem 38 (ipBytes myIp) ≤ length
  else if ntohsAt mem 20 = 2 then 28 ≤ length
  else 22 ≤ length

/-- An echo request is sent back with the length that its IP header says. -/
def IcmpOk (hl total : ℕ) : Prop :=
  if mem (14 + hl) = 8#8 then 14 + hl + 4 ≤ length ∧ 14 + total ≤ length else 14 + hl + 1 ≤ length

/-- The UDP length covers its own header if the payload is copied at all, and what is copied of the
payload is in the frame. -/
def UdpOk (hl : ℕ) : Prop :=
  let n := ntohsAt mem (14 + hl + 4)
  let port := portAt mem (14 + hl + 2)
  14 + hl + 6 ≤ length ∧
    (callbacks udpSockets port ≠ [] → 8 ≤ n ∧ (8 < n → 14 + hl + 8 + min (n - 8) 127 ≤ length)) ∧
      (stores net port ((n + 65528) % 65536) → 8 ≤ n ∧ (8 < n → 14 + hl + n ≤ length))

/-- The total length covers the IP header if data are stored at all, and the data are in the frame. -/
def TcpOk (hl total : ℕ) : Prop :=
  14 + hl + 12 ≤ length ∧
    (∀ p, tcpTarget net (packetAt mem hl total) = some p → (net.heap p).state.readsFlags →
      14 + hl + 14 ≤ length) ∧
      ((acceptingSocket net (packetAt mem hl total)).isSome → hl ≤ total ∧ 14 + total ≤ length)

def Ipv4Ok : Prop :=
  let hl := (mem 14).toNat % 16 * 4
  let total := ntohsAt mem 16
  if forUs net.myIp mem then
    34 ≤ length ∧ (mem 23 = 1#8 → IcmpOk mem length hl total) ∧
      (mem 23 = 17#8 → UdpOk net udpSockets mem length hl) ∧
        (mem 23 = 6#8 → TcpOk net mem length hl total)
  else 30 + max (compared mem 30 (ipBytes net.myIp)) (compared mem 30 broadcast) ≤ length

/-- A frame is too short to be looked at, or holds what its path through the handlers needs. -/
def FrameOk : Prop :=
  length < 14 ∨ (ntohsAt mem 12 = 0x0806 → ArpOk mem length net.myIp) ∧
    (ntohsAt mem 12 = 0x0800 → Ipv4Ok net udpSockets mem length)

end Conditions

section Within

variable {net : NetState} {udpSockets : List UdpSocket} {mem : ℕ → Byte} {length off n hl total : ℕ}
  {as bs : List Access}

@[simp] theorem within_nil : Within length [] := nofun

@[simp] theorem within_append : Within length (as ++ bs) ↔ Within length as ∧ Within length bs :=
  List.forall_mem_append

@[simp] theorem within_cons {a : Access} : Within length (a :: as) ↔ a.Ok length ∧ Within length as :=
  List.forall_mem_cons

@[simp] theorem within_ite {c : Prop} [Decidable c] :
    Within length (if c then as else []) ↔ (c → Within length as) := by
  split
  · next h => rw [imp_iff_right h]
  · next h => exact iff_of_true within_nil fun h' => absurd h' h

@[simp] theorem within_bytesFrom : Within length (bytesFrom off n) ↔ n = 0 ∨ off + n ≤ length := by
  simp only [Within, bytesFrom, List.forall_mem_map, List.mem_range, Access.Ok]
  constructor
  · intro h
    by_cases hn : n = 0
    · exact .inl hn
    · have hlast := h (n - 1) (by omega)
      omega
  · rintro h i hi
    omega

theorem compared_le (off : ℕ) (bs : List Byte) : compared mem off bs ≤ bs.length := by
  induction bs generalizing off with
  | nil => exact Nat.le_refl 0
  | cons b bs ih =>
    rw [compared, List.length_cons]
    have hrest := ih (off + 1)
    split <;> omega

theorem compared_pos (off : ℕ) (b : Byte) (bs : List Byte) : 0 < compared mem off (b :: bs) := by
  rw [compared]
  split <;> omega

/-- `memcmp` of equal bytes compares all of them. -/
theorem compared_of_eq {bs : List Byte} (h : memcmpEq mem off bs) : compared mem off bs = bs.length := by
  induction bs generalizing off with
  | nil => rfl
  | cons b bs ih =>
    rw [memcmpEq, Bool.and_eq_true, decide_eq_true_eq] at h
    rw [compared, if_pos h.1, ih h.2, List.length_cons]

theorem within_arp (myIp : Word) : Within length (arpAccesses myIp mem) ↔ ArpOk mem length myIp := by
  have hpos : 0 < compared mem 38 (ipBytes myIp) := compared_pos _ _ _
  rw [arpAccesses, ArpOk]
  by_cases hrequest : ntohsAt mem 20 = 1
  · rw [if_pos hrequest, if_pos hrequest, memcmpAccesses]
    by_cases heq : memcmpEq mem 38 (ipBytes myIp) = true
    · have hall : compared mem 38 (ipBytes myIp) = 4 := compared_of_eq heq
      rw [if_pos heq, if_pos heq, hall]
      simp only [within_append, within_bytesFrom]
      omega
    · rw [if_neg heq, if_neg heq]
      simp only [within_append, within_bytesFrom, within_nil, and_true]
      omega
  · rw [if_neg hrequest, if_neg hrequest]
    split
    · simp only [within_append, within_bytesFrom]
      omega
    · simp only [within_append, within_bytesFrom, within_nil, and_true]
      omega

theorem within_icmp (hlen : 34 ≤ length) :
    Within length (icmpAccesses mem hl total) ↔ IcmpOk mem length hl total := by
  rw [icmpAccesses, IcmpOk]
  split
  · simp only [within_append, within_bytesFrom]
    omega
  · simp only [within_append, within_bytesFrom, within_nil, and_true]
    omega

theorem within_flatMap_const {α : Type} (xs : List α) :
    Within length (xs.flatMap fun _ => as) ↔ (xs ≠ [] → Within length as) := by
  cases xs with
  | nil => exact iff_of_true nofun fun h => absurd rfl h
  | cons x xs =>
    refine ⟨fun h _ a ha => h a ?_, fun h a ha => ?_⟩
    · exact List.mem_flatMap.mpr ⟨x, List.mem_cons_self, ha⟩
    · obtain ⟨y, -, ha⟩ := List.mem_flatMap.mp ha
      exact h (List.cons_ne_nil x xs) a ha

theorem within_callback (hlen : 34 ≤ length) {data : ℕ} :
    Within length (callbackAccesses data (n - 8)) ↔ 8 ≤ n ∧ (8 < n → data + min (n - 8) 127 ≤ length) := by
  rw [callbackAccesses]
  simp only [within_cons, within_append, within_bytesFrom, Access.Ok]
  omega

theorem within_dispatch (hlen : 34 ≤ length) (hn : n < 65536) {port : Port} {data : ℕ} :
    Within length (dispatchAccesses net port data (n - 8)) ↔
      (stores net port ((n + 65528) % 65536) → 8 ≤ n ∧ (8 < n → data + (n - 8) ≤ length)) := by
  have hwrap : (((n : ℤ) - 8) % 65536).toNat = (n + 65528) % 65536 := by omega
  have hsource : Within length (if (udpTarget net port).isSome then bytesFrom 26 4 else []) :=
    within_ite.mpr fun _ => within_bytesFrom.mpr (by omega)
  rw [dispatchAccesses, hwrap, within_append, and_iff_right hsource]
  split
  · next h =>
    simp only [within_cons, within_bytesFrom, Access.Ok, h, true_implies]
    omega
  · next h => exact iff_of_true within_nil fun h' => absurd h' h

theorem ntohsAt_lt (mem : ℕ → Byte) (i : ℕ) : ntohsAt mem i < 65536 := by
  have hhigh := (mem i).isLt
  have hlow := (mem (i + 1)).isLt
  rw [ntohsAt]
  omega

theorem within_udp (hlen : 34 ≤ length) :
    Within length (udpAccesses net udpSockets mem hl) ↔ UdpOk net udpSockets mem length hl := by
  have hn := ntohsAt_lt mem (14 + hl + 4)
  rw [udpAccesses, UdpOk, within_append, within_append, within_bytesFrom, within_flatMap_const,
    within_callback hlen, within_dispatch hlen hn, and_assoc]
  refine and_congr (by omega) (and_congr Iff.rfl ?_)
  refine imp_congr_right fun _ => and_congr_right fun _ => ?_
  omega

theorem compared_ip (off : ℕ) (ip : Word) : compared mem off (ipBytes ip) ≤ 4 :=
  compared_le off (ipBytes ip)

theorem within_memcmp {ip : Word} (h : off + 4 ≤ length) :
    Within length (memcmpAccesses mem off (ipBytes ip)) := by
  have hle : compared mem off (ipBytes ip) ≤ 4 := compared_ip off ip
  exact within_bytesFrom.mpr (by omega)

/-- The search for a control block looks at the source address only. -/
theorem within_lookup (hlen : 34 ≤ length) (pkt : Packet) : Within length (lookupAccesses net mem pkt) := by
  intro a ha
  obtain ⟨i, -, ha⟩ := List.mem_flatMap.mp ha
  split at ha
  · cases ha
  · split at ha
    · exact within_memcmp (by omega) a ha
    · cases ha

theorem accepting_target {pkt : Packet} (h : (acceptingSocket net pkt).isSome) :
    ∃ p, tcpTarget net pkt = some p ∧ (net.heap p).state = .established ∧
      hasFlag pkt.flags tcpFin = false ∧ pkt.headerLen < pkt.len.toNat := by
  obtain ⟨k, hk⟩ := Option.isSome_iff_exists.mp h
  cases hlookup : tcpLookup net pkt with
  | none => simp [acceptingSocket, dataPcb, hlookup] at h
  | some i =>
    obtain ⟨-, p, hslot⟩ := tcpLookup_slot hlookup
    exact ⟨p, tcpTarget_eq hlookup hslot, ((acceptingSocket_iff hlookup hslot).mp hk).1⟩

/-- The length that `tcp_input` is given is wrapped if the total length does not cover the IP header. -/
theorem packetAt_len (hhl : hl ≤ 60) (htotal : total < 65536) :
    (packetAt mem hl total).len.toNat = if hl ≤ total then total - hl else 65536 + total - hl := by
  rw [packetAt, BitVec.toNat_sub, BitVec.toNat_ofNat, BitVec.toNat_ofNat]
  split <;> omega

/-- The data that are stored are in the frame, and as many as the headers say. -/
theorem within_data (hhl : hl ≤ 60) (htotal : total < 65536)
    (hlen : (packetAt mem hl total).headerLen < (packetAt mem hl total).len.toNat) :
    Within length (.copy (packetAt mem hl total).dataLen (total - hl - (packetAt mem hl total).headerLen) ::
        bytesFrom (14 + hl + (packetAt mem hl total).headerLen) (packetAt mem hl total).dataLen) ↔
      hl ≤ total ∧ 14 + total ≤ length := by
  have hoffset := (packetAt mem hl total).dataOffset.isLt
  have hlength : (packetAt mem hl total).len.toNat =
      if hl ≤ total then total - hl else 65536 + total - hl := packetAt_len hhl htotal
  rw [within_cons, within_bytesFrom, Access.Ok]
  rw [Packet.dataLen, Packet.headerLen] at *
  split at hlength <;> omega

theorem within_tcp (hlen : 34 ≤ length) (hhl : hl ≤ 60) (htotal : total < 65536) :
    Within length (tcpAccesses net mem hl total) ↔ TcpOk net mem length hl total := by
  rw [tcpAccesses, TcpOk, within_append, within_append, within_bytesFrom,
    and_iff_left (within_lookup hlen _)]
  refine and_congr (by omega) ?_
  cases htarget : tcpTarget net (packetAt mem hl total) with
  | none =>
    -- no control block takes the segment, and its flags are not read
    refine iff_of_true within_nil ⟨nofun, fun haccept => ?_⟩
    obtain ⟨p, hp, -⟩ := accepting_target haccept
    exact absurd (htarget.symm.trans hp) nofun
  | some p =>
    have haccepting (haccept : (acceptingSocket net (packetAt mem hl total)).isSome) :
        (net.heap p).state = .established ∧ hasFlag (packetAt mem hl total).flags tcpFin = false ∧
          (packetAt mem hl total).headerLen < (packetAt mem hl total).len.toNat := by
      obtain ⟨q, hq, hdata⟩ := accepting_target haccept
      obtain rfl := Option.some_inj.mp (htarget.symm.trans hq)
      exact hdata
    -- data is read in the state ESTABLISHED alone
    have hnone (hst : (net.heap p).state ≠ .established) :
        ((acceptingSocket net (packetAt mem hl total)).isSome → hl ≤ total ∧ 14 + total ≤ length) ↔ True :=
      iff_true_intro fun haccept => absurd (haccepting haccept).1 hst
    have hflags : (∀ q, some p = some q → (net.heap q).state.readsFlags → 14 + hl + 14 ≤ length) ↔
        ((net.heap p).state.readsFlags → 14 + hl + 14 ≤ length) := by simp
    dsimp only
    rw [hflags, within_append, within_ite, within_bytesFrom]
    have hone : ((net.heap p).state.readsFlags → 1 = 0 ∨ 14 + hl + 13 + 1 ≤ length) ↔
        ((net.heap p).state.readsFlags → 14 + hl + 14 ≤ length) := imp_congr_right fun _ => by omega
    rw [hone]
    refine and_congr_right fun h => ?_
    cases hst : (net.heap p).state with
    | listen =>
      rw [hnone (by rw [hst]; exact nofun)]
      exact iff_true_intro (within_ite.mpr fun _ => within_bytesFrom.mpr (by omega))
    | established =>
      have hfits : 14 + hl + 14 ≤ length := h (by rw [hst]; rfl)
      dsimp only
      by_cases hfin : hasFlag (packetAt mem hl total).flags tcpFin = true
      · -- with FIN set the data is not read
        rw [if_pos hfin]
        refine iff_of_true within_nil fun haccept => ?_
        have hnofin := (haccepting haccept).2.1
        rw [hfin] at hnofin
        cases hnofin
      · rw [if_neg hfin, within_append, within_bytesFrom, and_iff_right (by omega), within_ite]
        exact imp_congr_right fun haccept => within_data hhl htotal (haccepting haccept).2.2
    | _ =>
      rw [hnone (by rw [hst]; exact nofun)]
      exact iff_true_intro within_nil

/-- The destination address is compared with that of this host, and then with the broadcast address. -/
theorem within_dest (myIp : Word) :
    Within length (bytesFrom 6 6 ++ memcmpAccesses mem 30 (ipBytes myIp) ++
        if memcmpEq mem 30 (ipBytes myIp) then [] else memcmpAccesses mem 30 broadcast) ↔
      if forUs myIp mem then 34 ≤ length
      else 30 + max (compared mem 30 (ipBytes myIp)) (compared mem 30 broadcast) ≤ length := by
  have hmine : 0 < compared mem 30 (ipBytes myIp) := compared_pos _ _ _
  have hmine' : compared mem 30 (ipBytes myIp) ≤ 4 := compared_ip 30 myIp
  have hbroadcast : 0 < compared mem 30 broadcast := compared_pos _ _ _
  rw [within_append, within_append, memcmpAccesses, memcmpAccesses, within_bytesFrom,
    within_bytesFrom, forUs]
  by_cases heq : memcmpEq mem 30 (ipBytes myIp) = true
  · have hall : compared mem 30 (ipBytes myIp) = 4 := compared_of_eq heq
    rw [if_pos heq, heq, Bool.true_or, if_pos rfl, hall, and_iff_left within_nil]
    omega
  · rw [if_neg heq, Bool.eq_false_of_not_eq_true heq, Bool.false_or, within_bytesFrom]
    split
    · next heq' =>
      have hall : compared mem 30 broadcast = 4 := compared_of_eq heq'
      omega
    · omega

theorem within_ipv4 :
    Within length (ipv4Accesses net udpSockets mem) ↔ Ipv4Ok net udpSockets mem length := by
  have hhl : (mem 14).toNat % 16 * 4 ≤ 60 := by omega
  have htotal := ntohsAt_lt mem 16
  rw [ipv4Accesses, Ipv4Ok, within_append, within_dest]
  split
  swap
  · exact and_iff_left within_nil
  refine and_congr_right fun hlen => ?_
  have hlength : Within length (bytesFrom 16 2) := within_bytesFrom.mpr (by omega)
  rw [within_append, within_append, within_bytesFrom, within_bytesFrom, and_iff_right (by omega)]
  by_cases hicmp : mem 23 = 1#8
  · rw [if_pos hicmp, within_append, and_iff_right hlength, within_icmp hlen]
    simp [hicmp]
  rw [if_neg hicmp]
  by_cases hudp : mem 23 = 17#8
  · rw [if_pos hudp, within_append, and_iff_right hlength, within_udp hlen]
    simp [hudp]
  rw [if_neg hudp]
  by_cases htcp : mem 23 = 6#8
  · rw [if_pos htcp, within_append, and_iff_right hlength, within_tcp hlen hhl htotal]
    simp [htcp]
  · rw [if_neg htcp]
    simp [hicmp, hudp, htcp]

/-- **Frames**: whatever the bytes of a frame, the state of the sockets and what follows the frame in
memory, the handlers stay inside the frame and copy no payload with a negative or wrapped length,
exactly if the frame holds what its path through them needs. -/
theorem within_packet (net : NetState) (udpSockets : List UdpSocket) (mem : ℕ → Byte) (length : ℕ) :
    Within length (packetAccesses net udpSockets mem length) ↔ FrameOk net udpSockets mem length := by
  rw [packetAccesses, FrameOk]
  split
  · next hshort => exact iff_of_true within_nil (.inl hshort)
  · next hlen =>
    rw [or_iff_right hlen, within_append, within_bytesFrom, and_iff_right (by omega)]
    by_cases harp : ntohsAt mem 12 = 0x0806
    · rw [if_pos harp, within_arp]
      simp [harp]
    rw [if_neg harp]
    by_cases hipv4 : ntohsAt mem 12 = 0x0800
    · rw [if_pos hipv4, within_ipv4]
      simp [hipv4]
    · rw [if_neg hipv4]
      simp [harp, hipv4]

end Within

/-- An echo request to 10.0.2.15 in a frame of 60 bytes, whose IP header says that it is 1000 bytes
long. -/
def longEcho (i : ℕ) : Byte :=
  ([0, 0, 0, 0, 0, 0, 0, 0, 0, 0, 0, 0, 8, 0, 0x45, 0, 3, 0xE8, 0, 0, 0, 0, 64, 1, 0, 0, 10, 0, 2, 2,
    10, 0, 2, 15, 8] : List Byte).getD i 0#8

/-- The answer is as long as the header says. -/
theorem echo_reads_on : ¬∀ (net : NetState) (udpSockets : List UdpSocket) (mem : ℕ → Byte) (length : ℕ),
    Within length (packetAccesses net udpSockets mem length) := by
  intro h
  have haccess : Access.byte 1013 ∈ packetAccesses (.init qemuIp fun _ => newPcb) [] longEcho 60 := by
    decide +kernel
  exact absurd (h _ _ _ _ _ haccess) (by decide : ¬1013 < 60)

end PekerOS.Net
