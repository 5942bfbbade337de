import PekerOS.Lib.Run
import PekerOS.Mm.Windows
import PekerOS.Mm.PagingRuns

/-!
# The windows of the E1000

The driver maps its registers, both rings of descriptors and the receive buffers when it is
initialised, and the transmit buffers when it sends for the first time, at fixed addresses of one
directory entry. The receive buffers are 256 KB from `0xD0030000` on; the transmit descriptors, at
`0xD0040000`, and the transmit buffers, at `0xD0060000`, are mapped over them. Of the transmit buffers
128 KB are mapped, for 128 slots of 2 KB. What is behind a slot that is not mapped is a page fault.

The stores of the card, and those of the network code into a packet, are left out. A call is not
interrupted by another.

## Main definitions

* `State`: the variables of `e1000.c` and the memory
* `initE1000`, `e1000SendPacket`, `e1000Handler`: the functions
* `Event`, `run`: packets that are sent, and interrupts

## Main results

* `initE1000_machine`: the driver maps what the runs of the kernel's memory say
-/

namespace PekerOS.Drivers.E1000

open Mm

abbrev mmioBaseVirt : Word := 0xD0010000#32
/-- `rx_descs` and `rx_buffers` -/
abbrev rxDescsVirt : Word := 0xD0020000#32
abbrev rxBuffersVirt : Word := 0xD0030000#32
/-- `tx_descs` and `tx_buffers` -/
abbrev txDescsVirt : Word := 0xD0040000#32
abbrev txBuffersVirt : Word := 0xD0060000#32

structure RxDesc where
  addr : BitVec 64
  length : BitVec 16
  status : Byte
deriving DecidableEq, Inhabited

structure TxDesc where
  addr : BitVec 64
  length : BitVec 16
  cmd : Byte
  status : Byte
deriving DecidableEq, Inhabited

/-- The variables of `e1000.c`; `txBuffers` is null until the first packet is sent. `used` are the
transmit slots that have been used, and `handled` the calls of `net_handle_packet`. -/
structure State where
  machine : Machine
  rxDescs : Table 128 RxDesc
  txDescs : Table 128 TxDesc
  rxDescsPhys : Word
  txDescsPhys : Word
  rxBuffersPhys : Word
  txBuffers : Word
  txBuffersPhys : Word
  rxCur : ℕ
  txCur : ℕ
  rdt : ℕ
  tdt : ℕ
  used : List ℕ
  handled : List (Word × BitVec 16)

/-- `alloc_contiguous_frames` and `paging_map_memory` of the frames; the physical address as well. -/
def mapFrames (m : Machine) (count virt size : Word) : Option (Machine × Word) :=
  let (pmm, phys) := allocContiguousFrames m.pmm count
  (pagingMapMemory { m with pmm := pmm } phys virt size).map fun m => (m, phys)

/-- `init_e1000`, on the descriptors as it finds them; `none` on a page fault. The registers of the
card, the messages and the setup of the network are left out. -/
def initE1000 (m : Machine) (rxDescs : Table 128 RxDesc) (txDescs : Table 128 TxDesc)
    (physAddr : Word) : Option State := do
  let m ← pagingMapMemory m physAddr mmioBaseVirt (128#32 * 1024#32)
  let (m, rxDescsPhys) ← mapFrames m 1#32 rxDescsVirt 4096#32
  let (m, rxBuffersPhys) ← mapFrames m (128#32 * 2048#32 / 4096#32) rxBuffersVirt (128#32 * 2048#32)
  let rxDescs := Table.ofFn fun i =>
    { rxDescs.get i with
      addr := (rxBuffersPhys + BitVec.ofNat 32 (i * 2048)).setWidth 64, status := 0#8 }
  let (m, txDescsPhys) ← mapFrames m 1#32 txDescsVirt 4096#32
  -- every descriptor starts as one that has been sent
  let txDescs := Table.ofFn fun i => { txDescs.get i with status := 0x01#8 }
  return {
    machine := m, rxDescs := rxDescs, txDescs := txDescs, rxDescsPhys := rxDescsPhys
    txDescsPhys := txDescsPhys, rxBuffersPhys := rxBuffersPhys, txBuffers := 0#32, txBuffersPhys := 0#32
    rxCur := 0, txCur := 0, rdt := 127, tdt := 0, used := [], handled := [] }

/-- The transmit buffers are mapped before the first packet. -/
def ensureTxBuffers (s : State) : Option State :=
  if s.txBuffers = 0#32 then
    (mapFrames s.machine 64#32 txBuffersVirt (128#32 * 1024#32)).map fun (m, phys) =>
      { s with machine := m, txBuffers := txBuffersVirt, txBuffersPhys := phys }
  else some s

/-- The physical address of a transmit slot, as the driver computes it. -/
def txAddr (s : State) (slot : ℕ) : Word := s.txBuffersPhys + BitVec.ofNat 32 (slot * 2048)

/-- `e1000_send_packet`, up to the point where the card has sent the packet; `none` on a page fault. -/
def e1000SendPacket (s : State) (data : List Byte) : Option State := do
  let s ← ensureTxBuffers s
  let dest := s.txBuffers + BitVec.ofNat 32 (s.txCur * 2048)
  -- `memcpy` stores byte by byte
  if (List.range data.length).all fun k => (physOf s.machine (dest + BitVec.ofNat 32 k)).isSome then
    return { s with
      txDescs := s.txDescs.set s.txCur
        ⟨(txAddr s s.txCur).setWidth 64, BitVec.ofNat 16 data.length, 0x03#8, 0x01#8⟩
      txCur := (s.txCur + 1) % 128
      tdt := (s.txCur + 1) % 128
      used := s.used ++ [s.txCur] }
  else none

/-- The loop of `e1000_handler`; `replies` are the packets that `net_handle_packet` sends, call by
call. -/
def rxLoop : ℕ → State → List (List (List Byte)) → Option State
  | 0, s, _ => some s
  | n + 1, s, replies =>
    let desc := s.rxDescs.get s.rxCur
    if desc.status &&& 0x01#8 ≠ 0#8 then do
      let packetData := rxBuffersVirt + BitVec.ofNat 32 (s.rxCur * 2048)
      let s := { s with handled := s.handled ++ [(packetData, desc.length)] }
      -- what the packet makes the kernel send, before the descriptor is given back
      let s ← (replies.headD []).foldlM e1000SendPacket s
      let oldCur := s.rxCur
      rxLoop n
        { s with
          rxDescs := s.rxDescs.set oldCur { s.rxDescs.get oldCur with status := 0#8 }
          rxCur := (oldCur + 1) % 128
          rdt := oldCur }
        replies.tail
    else some s

/-- `e1000_handler`; each round of its loop clears the status of a descriptor. -/
def e1000Handler (s : State) (status : Word) (replies : List (List (List Byte))) : Option State :=
  if status &&& 0x80#32 ≠ 0#32 then rxLoop 128 s replies else some s

/-- The card has filled the buffers of some descriptors. -/
def received (s : State) (done : ℕ → Option (BitVec 16)) : State :=
  { s with
    rxDescs := Table.ofFn fun i =>
      let desc := s.rxDescs.get i
      match done i with
      | some length => { desc with length := length, status := desc.status ||| 0x01#8 }
      | none => desc }

/-- A packet is sent, or the card interrupts after it has filled some buffers. -/
inductive Event
  | send (data : List Byte)
  | interrupt (status : Word) (done : ℕ → Option (BitVec 16)) (replies : List (List (List Byte)))

def step (s : State) : Event → Option State
  | .send data => e1000SendPacket s data
  | .interrupt status done replies => e1000Handler (received s done) status replies

/-- A run of the driver; a page fault ends it. -/
def run (s : State) (es : List Event) : Option State := es.foldlM step s

section Machine

variable {m : Machine} {count virt size : Word}

theorem kernelStep_mapFrames : kernelStep (some m) (.map (.allocContiguousFrames count) virt size) =
    (mapFrames m count virt size).map Prod.fst := by
  show pagingMapMemory _ _ _ _ = Option.map Prod.fst (Option.map _ (pagingMapMemory _ _ _ _))
  rw [Option.map_map]
  exact (congrFun Option.map_id _).symm

/-- The driver maps what the runs of the kernel's memory say. -/
theorem initE1000_machine (m : Machine) (rx : Table 128 RxDesc) (tx : Table 128 TxDesc)
    (physAddr : Word) : (initE1000 m rx tx physAddr).map (·.machine) =
      (KernelCall.initE1000 physAddr).ops.foldl kernelStep (some m) := by
  simp only [KernelCall.ops, List.foldl]
  have hfirst : kernelStep (some m) (.map (.phys physAddr) mmioBaseVirt (128#32 * 1024#32)) =
      pagingMapMemory m physAddr mmioBaseVirt (128#32 * 1024#32) := rfl
  unfold initE1000
  rw [hfirst]
  cases pagingMapMemory m physAddr mmioBaseVirt (128#32 * 1024#32) with
  | none => rfl
  | some m₁ =>
    rw [kernelStep_mapFrames]
    cases h₂ : mapFrames m₁ 1#32 rxDescsVirt 4096#32 with
    | none =>
      simp only [Option.bind_eq_bind, Option.bind_some, h₂]
      rfl
    | some r₂ =>
      obtain ⟨m₂, rxDescsPhys⟩ := r₂
      rw [Option.map_some, kernelStep_mapFrames]
      cases h₃ : mapFrames m₂ (128#32 * 2048#32 / 4096#32) rxBuffersVirt (128#32 * 2048#32) with
      | none =>
        simp only [Option.bind_eq_bind, Option.bind_some, h₂, h₃]
        rfl
      | some r₃ =>
        obtain ⟨m₃, rxBuffersPhys⟩ := r₃
        rw [Option.map_some, kernelStep_mapFrames]
        cases h₄ : mapFrames m₃ 1#32 txDescsVirt 4096#32 with
        | none =>
          simp only [Option.bind_eq_bind, Option.bind_some, h₂, h₃, h₄]
          rfl
        | some r₄ =>
          simp only [Option.bind_eq_bind, Option.bind_some, h₂, h₃, h₄]
          rfl

end Machine

end PekerOS.Drivers.E1000
