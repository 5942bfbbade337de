import PekerOS.Net.Tcp
import PekerOS.Lib.Run

/-!
# Sockets

`socket.c`: thirty-two socket slots, the system calls on them, and the delivery of datagrams. A call is
given the index of its socket; a closed socket has no descriptor, so calls on it do not happen. Where a
call sleeps it is cut in two: `socket_connect` lets other tasks run between the choice of the ports and
the first segment, and a call that waits registers its task and is made again when the task is woken.

## Main definitions

* `socketCreate`, `socketBind`, `socketListen`, `socketConnect`, `socketConnectSyn`, `socketAccept`,
  `socketSendto`, `socketRecvfrom`, `socketClose`, `socketDispatchUdp`: the functions of `socket.c`
* `NetOp`, `NetState.step`: calls, packets and datagrams in any order
* `NetState.init`: the state at boot
-/

namespace PekerOS.Net

/-- A page fault in the kernel, as on a null control block. -/
def fault (net : NetState) : NetState := { net with halted := true }

/-- The slot `socket_create` takes. -/
def freeSocket (net : NetState) : Option ℕ :=
  (List.range 32).find? fun k => !(net.sockets.get k).inUse

/-- `socket_create`; `none` if there is no free slot. -/
def socketCreate (net : NetState) (domain type protocol : Word) : Option (NetState × ℕ) :=
  (freeSocket net).map fun k =>
    (net.editSocket k fun s =>
      { s with
        domain := domain
        type := type
        protocol := protocol
        inUse := true
        localPort := 0#16
        ring := { s.ring with head := 0, tail := 0, len := 0 }
        waitingTask := none }, k)

/-- The control block of a stream socket; other sockets have none. -/
def streamPcb (net : NetState) (k : ℕ) : Option Ptr :=
  if (net.sockets.get k).type = sockStream then (net.sockets.get k).tcpPcb else none

/-- `socket_bind` -/
def socketBind (net : NetState) (k : ℕ) (port : Port) (addr : Word) : NetState :=
  let net := net.editSocket k fun s => { s with localPort := port, localAddr := addr }
  match streamPcb net k with
  | none => net
  | some p => net.editPcb p fun pcb => { pcb with localPort := port, localIp := addr }

/-- The control block of a stream socket, made if it has none; `none` on a fault, if there is no free
slot. -/
def ensurePcb (net : NetState) (k : ℕ) (ptr : Ptr) : Option (NetState × Ptr) :=
  match (net.sockets.get k).tcpPcb with
  | some p => some (net, p)
  | none =>
    (tcpNewPcb net ptr).map fun net =>
      let net := net.editSocket k fun s => { s with tcpPcb := some ptr }
      (net.editPcb ptr fun pcb => { pcb with socket := some k }, ptr)

/-- `socket_listen` -/
def socketListen (net : NetState) (k : ℕ) (ptr : Ptr) : NetState :=
  if (net.sockets.get k).type = sockStream then
    match ensurePcb net k ptr with
    | none => fault net
    | some (net, p) =>
      net.editPcb p fun pcb => { pcb with localPort := (net.sockets.get k).localPort, state := .listen }
  else net

/-- `socket_connect`, up to the loop in which it lets other tasks run. -/
def socketConnect (net : NetState) (k : ℕ) (addr : Word) (port : Port) (ptr : Ptr) : NetState :=
  -- for a socket of any type
  let net := net.editSocket k fun s => { s with remoteAddr := addr, remotePort := port }
  if (net.sockets.get k).type = sockStream then
    match ensurePcb net k ptr with
    | none => fault net
    | some (net, p) =>
      let (net, localPort) := tcpGetFreePort net
      let net := net.editPcb p fun pcb =>
        { pcb with localPort := localPort, localIp := net.myIp, remotePort := port, remoteIp := addr }
      { net with connecting := net.connecting.set k true }
  else net

/-- The rest of `socket_connect`, up to the point where it sleeps. -/
def socketConnectSyn (net : NetState) (k task : ℕ) : NetState :=
  match net.connecting.get k, (net.sockets.get k).tcpPcb with
  | true, some p =>
    -- the initial sequence number is always 100
    let net := net.editPcb p fun pcb => { pcb with state := .synSent, sndNxt := 100#32 }
    let net := tcpSendSegment net p tcpSyn []
    let net := net.editSocket k fun s => { s with waitingTask := some task }
    { net with
      connecting := net.connecting.set k false
      tasks := Function.update net.tasks task .sleep }
  | _, _ => net

/-- A call that waits on a socket registers its task and sleeps. -/
def sleepOn (net : NetState) (k task : ℕ) : NetState :=
  { net.editSocket k fun s => { s with waitingTask := some task } with
    tasks := Function.update net.tasks task .sleep }

/-- One round of `socket_accept`. -/
def socketAccept (net : NetState) (k task : ℕ) : NetState :=
  if (net.sockets.get k).type = sockStream then
    match (net.sockets.get k).tcpPcb with
    | none => fault net
    | some p => if (net.heap p).state = .established then net else sleepOn net k task
  else net

/-- `socket_sendto`; the length goes into a `uint16_t`. A datagram changes nothing here. -/
def socketSendto (net : NetState) (k : ℕ) (message : List Byte) : NetState :=
  match streamPcb net k with
  | none => net
  | some p =>
    if (net.heap p).state = .established then
      tcpSendSegment net p (tcpAck ||| tcpPsh) (message.take (message.length % 2 ^ 16))
    else net

/-- A 16-bit and a 32-bit field in a stored packet header. -/
def u16At (bytes : List Byte) (i : ℕ) : ℕ := (bytes.getD i 0#8).toNat + 256 * (bytes.getD (i + 1) 0#8).toNat

/-- One round of `socket_recvfrom`: the bytes it returns, or `none` if it has to wait. A datagram
socket reads a header first, and skips what does not fit; any other socket reads a stream. -/
def socketRecvfrom (net : NetState) (k : ℕ) (length : Word) (task : ℕ) : NetState × Option (List Byte) :=
  let s := net.sockets.get k
  if s.ring.len = 0 then (sleepOn net k task, none)
  else if s.type = sockDgram then
    let (ring, header) := s.ring.loads 8
    let dataLen := u16At header 6
    let (ring, bytes) := ring.loads dataLen
    -- the whole datagram is taken off the length, also what was skipped
    let len := (s.ring.len + 2 ^ 32 - (8 + dataLen) % 2 ^ 32) % 2 ^ 32
    (net.editSocket k fun s => { s with ring := { ring with len := len } },
      some (bytes.take (min length.toNat dataLen)))
  else
    let toRead := min length.toNat s.ring.len
    let (ring, bytes) := s.ring.loads toRead
    (net.editSocket k fun s => { s with ring := { ring with len := s.ring.len - toRead } }, some bytes)

/-- `socket_close`; the freed buffer is not modelled. -/
def socketClose (net : NetState) (k : ℕ) : NetState :=
  let net :=
    match streamPcb net k with
    | none => net
    | some p => tcpClose net p
  net.editSocket k fun s => { s with inUse := false }

/-- A datagram: its ports, its source and its bytes, of which there are a `uint16_t`. -/
structure Datagram where
  destPort : Port
  srcPort : Port
  srcIp : Word
  data : List Byte
  short : data.length < 2 ^ 16

/-- `socket_packet_t`, and the data that follows it. -/
def Datagram.bytes (d : Datagram) : List Byte :=
  (List.range 4).map (wordByte d.srcIp) ++
    [d.srcPort.setWidth 8, (d.srcPort >>> 8).setWidth 8,
      BitVec.ofNat 8 d.data.length, BitVec.ofNat 8 (d.data.length / 256)] ++ d.data

/-- The socket a datagram is for: the first on its port, of whatever type. -/
def udpTarget (net : NetState) (port : Port) : Option ℕ :=
  (List.range 32).find? fun k => (net.sockets.get k).inUse && (net.sockets.get k).localPort == port

/-- `socket_dispatch_udp` -/
def socketDispatchUdp (net : NetState) (d : Datagram) : NetState :=
  match udpTarget net d.destPort with
  | none => net
  | some k =>
    let ring := (net.sockets.get k).ring
    let size := 8 + d.data.length
    if (ring.len + size) % 2 ^ 32 ≤ socketBufferSize then
      (net.editSocket k fun s =>
        { s with ring := { ring.stores d.bytes with len := (ring.len + size) % 2 ^ 32 } }).wake k
    -- a datagram that does not fit is dropped
    else net

/-! ## Runs -/

/-- A system call, an incoming segment or an incoming datagram; `ptr` is the address that `kmalloc`
returns if the call makes a control block. -/
inductive NetOp
  | create (domain type protocol : Word)
  | bind (k : ℕ) (port : Port) (addr : Word)
  | listen (k : ℕ) (ptr : Ptr)
  | connect (k : ℕ) (addr : Word) (port : Port) (ptr : Ptr)
  | connectSyn (k task : ℕ)
  | accept (k task : ℕ)
  | sendto (k : ℕ) (message : List Byte)
  | recvfrom (k : ℕ) (length : Word) (task : ℕ)
  | close (k : ℕ)
  | packet (pkt : Packet)
  | datagram (d : Datagram)

/-- The socket a call is made on. -/
def NetOp.socket? : NetOp → Option ℕ
  | .bind k _ _ => some k
  | .listen k _ => some k
  | .connect k _ _ _ => some k
  | .connectSyn k _ => some k
  | .accept k _ => some k
  | .sendto k _ => some k
  | .recvfrom k _ _ => some k
  | .close k => some k
  | _ => none

/-- The address `kmalloc` returns during a call. -/
def NetOp.ptr? : NetOp → Option Ptr
  | .listen _ ptr => some ptr
  | .connect _ _ _ ptr => some ptr
  | _ => none

/-- What can happen: calls are made on sockets in use, and `kmalloc` returns memory that is not in
use. -/
def NetOp.valid (net : NetState) (op : NetOp) : Bool :=
  (match op.socket? with
    | none => true
    | some k => k < 32 && (net.sockets.get k).inUse) &&
  match op.ptr? with
  | none => true
  | some ptr => (List.range 16).all fun i => net.tcpPcbs.get i != some ptr

def NetState.exec (net : NetState) : NetOp → NetState
  | .create domain type protocol =>
    match socketCreate net domain type protocol with
    | none => net
    | some (net, _) => net
  | .bind k port addr => socketBind net k port addr
  | .listen k ptr => socketListen net k ptr
  | .connect k addr port ptr => socketConnect net k addr port ptr
  | .connectSyn k task => socketConnectSyn net k task
  | .accept k task => socketAccept net k task
  | .sendto k message => socketSendto net k message
  | .recvfrom k length task => (socketRecvfrom net k length task).1
  | .close k => socketClose net k
  | .packet pkt => tcpInput net pkt
  | .datagram d => socketDispatchUdp net d

/-- One step of a run. After a fault nothing happens any more, and what cannot happen does not. -/
def NetState.step (net : NetState) (op : NetOp) : NetState :=
  if net.halted || !op.valid net then net else net.exec op

/-- The state at boot: no control blocks and no sockets. -/
def NetState.init (myIp : Word) (heap : Ptr → Pcb) : NetState where
  tcpPcbs := Table.ofFn fun _ => none
  heap := heap
  sockets := default
  nextPort := 10000#16
  tasks := fun _ => .ready
  myIp := myIp
  connecting := Table.ofFn fun _ => false
  sent := []
  halted := false

end PekerOS.Net
