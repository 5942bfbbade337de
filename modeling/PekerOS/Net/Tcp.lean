import PekerOS.Lib.RingBuffer

/-!
# TCP

`tcp.c`: sixteen slots for protocol control blocks on the kernel heap, and the handler of incoming
segments. A control block is known by its address, so that a pointer can outlive the block. The
sockets of `socket.c` are part of the state: the handler stores received bytes in their buffers and
wakes the tasks that wait on them. What is handed to `net_send_ipv4` is kept in a list.

## Main definitions

* `Pcb`, `Socket`, `NetState`: control blocks, sockets, and the state of both files
* `Packet`, `Sent`: an incoming segment, and one that was sent
* `tcpNewPcb`, `tcpSendSegment`, `tcpGetFreePort`, `tcpClose`, `tcpInput`: the functions of `tcp.c`
-/

namespace PekerOS.Net

abbrev Port : Type := BitVec 16

/-- The address of a control block. -/
abbrev Ptr : Type := Word

/-- `tcp_state_t` -/
inductive TcpState
  | closed
  | listen
  | synSent
  | synReceived
  | established
  | finWait1
  | finWait2
  | closeWait
  | closing
  | lastAck
  | timeWait
deriving DecidableEq

/-- `TCP_FIN` -/
abbrev tcpFin : Byte := 1#8
/-- `TCP_SYN` -/
abbrev tcpSyn : Byte := 2#8
/-- `TCP_PSH` -/
abbrev tcpPsh : Byte := 8#8
/-- `TCP_ACK` -/
abbrev tcpAck : Byte := 16#8

/-- `tcp_pcb_t`; `socket` is the index of the socket it points to. -/
structure Pcb where
  localIp : Word
  remoteIp : Word
  localPort : Port
  remotePort : Port
  state : TcpState
  sndNxt : Word
  rcvNxt : Word
  windowSize : BitVec 16
  socket : Option ℕ
deriving DecidableEq

/-- `SOCKET_BUFFER_SIZE` -/
abbrev socketBufferSize : ℕ := 4096

/-- `SOCK_STREAM` -/
abbrev sockStream : Word := 1#32
/-- `SOCK_DGRAM` -/
abbrev sockDgram : Word := 2#32

/-- `socket_t`; the ring is `buffer` with `buffer_head`, `buffer_tail` and `buffer_len`, and a waiting
task is its number. -/
structure Socket where
  domain : Word
  type : Word
  protocol : Word
  localPort : Port
  localAddr : Word
  remotePort : Port
  remoteAddr : Word
  ring : RingBuffer socketBufferSize Byte
  waitingTask : Option ℕ
  tcpPcb : Option Ptr
  inUse : Bool
deriving Inhabited

/-- The states of a task. -/
inductive TaskState
  | ready
  | running
  | sleep
  | dead
deriving DecidableEq

/-- A segment handed to `net_send_ipv4`. -/
structure Sent where
  localIp : Word
  remoteIp : Word
  localPort : Port
  remotePort : Port
  seqNum : Word
  ackNum : Word
  flags : Byte
  windowSize : BitVec 16
  data : List Byte
deriving DecidableEq

/-- The state of `tcp.c` and `socket.c`: the slots `tcp_pcbs`, the control blocks by address, the
sockets, the next free port, the states of the tasks, this host's address, the sockets that are in the
middle of `socket_connect`, the segments sent, and whether the kernel has faulted. -/
structure NetState where
  tcpPcbs : Table 16 (Option Ptr)
  heap : Ptr → Pcb
  sockets : Table 32 Socket
  nextPort : Port
  tasks : ℕ → TaskState
  myIp : Word
  connecting : Table 32 Bool
  sent : List Sent
  halted : Bool

/-- What `tcp_input` reads of an incoming packet; `bytes` are those of the segment from its header
on. -/
structure Packet where
  srcIp : Word
  srcPort : Port
  destPort : Port
  seqNum : Word
  ackNum : Word
  dataOffset : BitVec 4
  flags : Byte
  len : BitVec 16
  bytes : ℕ → Byte

/-- `flags & mask` -/
def hasFlag (flags mask : Byte) : Bool := flags &&& mask != 0#8

namespace Packet

/-- `tcp->data_offset * 4` -/
def headerLen (pkt : Packet) : ℕ := pkt.dataOffset.toNat * 4

/-- `data_len` -/
def dataLen (pkt : Packet) : ℕ := pkt.len.toNat - pkt.headerLen

/-- The bytes after the header. -/
def data (pkt : Packet) : List Byte :=
  (List.range pkt.dataLen).map fun i => pkt.bytes (pkt.headerLen + i)

theorem length_data (pkt : Packet) : pkt.data.length = pkt.dataLen := by simp [data]

end Packet

namespace NetState

/-- An assignment to fields of a control block. -/
def editPcb (net : NetState) (p : Ptr) (f : Pcb → Pcb) : NetState :=
  { net with heap := Function.update net.heap p (f (net.heap p)) }

/-- An assignment to fields of a socket. -/
def editSocket (net : NetState) (k : ℕ) (f : Socket → Socket) : NetState :=
  { net with sockets := net.sockets.set k (f (net.sockets.get k)) }

/-- `TASK_READY` for the task that waits on a socket. -/
def wake (net : NetState) (k : ℕ) : NetState :=
  match (net.sockets.get k).waitingTask with
  | none => net
  | some task =>
    { net.editSocket k fun s => { s with waitingTask := none } with
      tasks := Function.update net.tasks task .ready }

end NetState

/-- The control block that `tcp_new_pcb` makes. -/
def newPcb : Pcb := ⟨0#32, 0#32, 0#16, 0#16, .closed, 0#32, 0#32, 4096#16, none⟩

/-- The slot `tcp_new_pcb` takes. -/
def freeSlot (net : NetState) : Option ℕ := (List.range 16).find? fun i => (net.tcpPcbs.get i).isNone

/-- `tcp_new_pcb`, with the address that `kmalloc` returns for the block. `none` if there is no block:
all slots are taken, and it returns 0, or the heap is full, and it faults. -/
def tcpNewPcb (net : NetState) (ptr : Ptr) : Option NetState :=
  -- the heap is full, and `memset` faults
  if ptr = 0#32 then none
  else (freeSlot net).map fun i =>
    { net with
      heap := Function.update net.heap ptr newPcb
      tcpPcbs := net.tcpPcbs.set i (some ptr) }

/-- `tcp_send_segment` -/
def tcpSendSegment (net : NetState) (p : Ptr) (flags : Byte) (data : List Byte) : NetState :=
  let pcb := net.heap p
  let seg : Sent := ⟨pcb.localIp, pcb.remoteIp, pcb.localPort, pcb.remotePort, pcb.sndNxt, pcb.rcvNxt,
    flags, pcb.windowSize, data⟩
  let net := { net with sent := net.sent ++ [seg] }
  net.editPcb p fun pcb =>
    -- SYN and FIN take a sequence number, whatever data there is
    let sndNxt := if hasFlag flags (tcpSyn ||| tcpFin) then pcb.sndNxt + 1#32 else pcb.sndNxt
    { pcb with sndNxt := sndNxt + BitVec.ofNat 32 data.length }

/-- `tcp_get_free_port` -/
def tcpGetFreePort (net : NetState) : NetState × Port :=
  let port := net.nextPort
  let next := port + 1#16
  ({ net with nextPort := if 60000#16 < next then 10000#16 else next }, port)

/-- `tcp_close` -/
def tcpClose (net : NetState) (p : Ptr) : NetState :=
  match (net.heap p).state with
  | .established =>
    (tcpSendSegment net p (tcpFin ||| tcpAck) []).editPcb p fun pcb => { pcb with state := .finWait1 }
  | .closeWait =>
    (tcpSendSegment net p (tcpFin ||| tcpAck) []).editPcb p fun pcb => { pcb with state := .lastAck }
  -- a listener too: it keeps its slot
  | _ => net.editPcb p fun pcb => { pcb with state := .closed }

/-! ## `tcp_input` -/

/-- A slot that takes a packet: a listener on its port, or the other end of its connection. -/
def slotMatches (net : NetState) (pkt : Packet) (i : ℕ) : Bool :=
  match net.tcpPcbs.get i with
  | none => false
  | some p =>
    -- the address of this host is not compared
    (net.heap p).localPort = pkt.destPort ∧ ((net.heap p).state = .listen ∨
      (net.heap p).remotePort = pkt.srcPort ∧ (net.heap p).remoteIp = pkt.srcIp)

/-- The first slot that takes the packet. -/
def tcpLookup (net : NetState) (pkt : Packet) : Option ℕ :=
  (List.range 16).find? fun i => slotMatches net pkt i

/-- The peer's SYN or FIN is acknowledged with its number plus one. -/
def ackNext (net : NetState) (p : Ptr) (pkt : Packet) (state : TcpState) (flags : Byte) : NetState :=
  tcpSendSegment (net.editPcb p fun pcb => { pcb with rcvNxt := pkt.seqNum + 1#32, state := state })
    p flags []

/-- The task waiting on the socket of a control block, if there is one. -/
def wakeSocket (net : NetState) (p : Ptr) : NetState :=
  match (net.heap p).socket with
  | none => net
  | some k => net.wake k

/-- Data for an established connection: stored and acknowledged if all of it fits. -/
def acceptData (net : NetState) (p : Ptr) (pkt : Packet) : NetState :=
  match (net.heap p).socket with
  | none => net
  | some k =>
    let ring := (net.sockets.get k).ring
    -- the sum is a `uint32_t`; the sequence number is not compared with `rcv_nxt`
    if (ring.len + pkt.dataLen) % 2 ^ 32 ≤ socketBufferSize then
      let net := net.editSocket k fun s =>
        { s with ring := { ring.stores pkt.data with len := (ring.len + pkt.dataLen) % 2 ^ 32 } }
      let net := net.editPcb p fun pcb =>
        { pcb with rcvNxt := pkt.seqNum + BitVec.ofNat 32 pkt.dataLen }
      (tcpSendSegment net p tcpAck []).wake k
    else net

/-- `kfree(pcb)`: the slot is free again. -/
def releasePcb (net : NetState) (i : ℕ) (p : Ptr) : NetState :=
  { net.editPcb p fun pcb => { pcb with state := .closed } with
    tcpPcbs := net.tcpPcbs.set i none }

/-- The state machine, on the control block `p` in slot `i`. -/
def tcpProcess (net : NetState) (i : ℕ) (p : Ptr) (pkt : Packet) : NetState :=
  match (net.heap p).state with
  | .listen =>
    if hasFlag pkt.flags tcpSyn then
      -- the listener itself becomes the connection
      let net := net.editPcb p fun pcb =>
        { pcb with remotePort := pkt.srcPort, remoteIp := pkt.srcIp }
      ackNext net p pkt .synReceived (tcpSyn ||| tcpAck)
    else net
  | .synSent =>
    if hasFlag pkt.flags tcpSyn ∧ hasFlag pkt.flags tcpAck then
      wakeSocket (ackNext net p pkt .established tcpAck) p
    else net
  | .synReceived =>
    if hasFlag pkt.flags tcpAck then net.editPcb p fun pcb => { pcb with state := .established }
    else net
  | .established =>
    -- data in a segment with FIN is not looked at
    if hasFlag pkt.flags tcpFin then wakeSocket (ackNext net p pkt .closeWait tcpAck) p
    else if pkt.headerLen < pkt.len.toNat then acceptData net p pkt
    else net
  | .finWait1 =>
    -- the ACK is seen first, and both flags together lead to TIME_WAIT
    let state := if hasFlag pkt.flags tcpAck then .finWait2 else .finWait1
    if hasFlag pkt.flags tcpFin then
      ackNext net p pkt (if state = .finWait2 then .timeWait else .closing) tcpAck
    else net.editPcb p fun pcb => { pcb with state := state }
  | .finWait2 =>
    -- TIME_WAIT is left at once, and the block is freed
    if hasFlag pkt.flags tcpFin then releasePcb (ackNext net p pkt .timeWait tcpAck) i p else net
  | .lastAck => if hasFlag pkt.flags tcpAck then releasePcb net i p else net
  -- no case in the source
  | .closed => net
  | .closeWait => net
  | .closing => net
  | .timeWait => net

/-- `tcp_input` -/
def tcpInput (net : NetState) (pkt : Packet) : NetState :=
  match tcpLookup net pkt with
  | none => net
  | some i =>
    match net.tcpPcbs.get i with
    | none => net
    | some p => tcpProcess net i p pkt

end PekerOS.Net
