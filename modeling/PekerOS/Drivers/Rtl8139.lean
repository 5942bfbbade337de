import PekerOS.Lib.Run
import PekerOS.Lib.Table

/-!
# The receive ring of the RTL8139

The card writes each packet behind a header of four bytes at an offset into the receive buffer, rounds
the offset of the next packet up to a multiple of four and wraps it at 8192; with the bit `WRAP` set a
packet that reaches the end goes on behind it. The driver keeps an offset of its own, which it computes
from the length in the header. It wraps that offset only when it is greater than 8192, and only once.

## Main definitions

* `Driver`, `rtl8139Handler`: the variables of the driver, its registers, and the interrupt handler
* `Packet`, `Card`, `Card.write`: what the card does
* `Event`, `step`: packets and other interrupts

## Main results

* `rxPtr_follows`: when the driver follows the card in a run
-/

namespace PekerOS.Drivers.Rtl8139

/-- `rx_buffer_virt` -/
abbrev rxBufferVirt : Word := 0xD0000000#32

/-- `current_rx_ptr`, the registers that the handler writes, and its calls of `net_handle_packet`. -/
structure Driver where
  currentRxPtr : Word
  isr : BitVec 16
  capr : BitVec 16
  handled : List (Word × Word)
deriving DecidableEq

/-- The 16-bit word at an address. -/
def readU16 (mem : Word → Byte) (addr : Word) : BitVec 16 := mem (addr + 1#32) ++ mem addr

/-- `rtl8139_handler`, with the interrupt status that the card gives. The message about the link is left
out. -/
def rtl8139Handler (mem : Word → Byte) (status : BitVec 16) (s : Driver) : Driver :=
  let s := { s with isr := status }
  if status &&& 0x01#16 ≠ 0#16 then
    let rx := rxBufferVirt + s.currentRxPtr
    let packetLength := (readU16 mem (rx + 2#32)).setWidth 32
    let packetData := rxBufferVirt + s.currentRxPtr + 4#32
    let realLength := packetLength - 4#32
    let ptr := (s.currentRxPtr + packetLength + 4#32 + 3#32) &&& ~~~3#32
    -- at the very end the pointer is left there
    let ptr := if ptr > 8192#32 then ptr - 8192#32 else ptr
    { s with
      handled := s.handled ++ [(packetData, realLength)]
      currentRxPtr := ptr
      capr := (ptr - 16#32).setWidth 16 }
  else s

/-! ## The card -/

/-- A packet, with the status in its header and the checksum at its end. -/
structure Packet where
  status : BitVec 16
  bytes : List Byte
  short : bytes.length < 2 ^ 16

/-- The header and the bytes behind it. -/
def Packet.stored (p : Packet) : List Byte :=
  [p.status.setWidth 8, (p.status >>> 8).setWidth 8, BitVec.ofNat 8 p.bytes.length,
    BitVec.ofNat 8 (p.bytes.length / 256)] ++ p.bytes

/-- Memory after bytes have been stored from an address on. -/
def writeBytes (mem : Word → Byte) (addr : Word) (bytes : List Byte) (a : Word) : Byte :=
  bytes[(a - addr).toNat]?.getD (mem a)

/-- Where the card writes the packet after one at the offset. -/
def nextOffset (offset length : ℕ) : ℕ := (offset + 4 + length + 3) / 4 * 4 % 8192

/-- The memory, the card's write offset, and the driver. -/
structure System where
  mem : Word → Byte
  offset : ℕ
  driver : Driver

/-- The card writes a packet at its offset. -/
def System.write (s : System) (p : Packet) : System :=
  { s with
    mem := writeBytes s.mem (rxBufferVirt + BitVec.ofNat 32 s.offset) p.stored
    offset := nextOffset s.offset p.bytes.length }

/-- An interrupt for one packet, or one for something else. -/
inductive Event
  | packet (p : Packet) (status : BitVec 16) (received : status &&& 0x01#16 ≠ 0#16)
  | other (status : BitVec 16) (unrelated : status &&& 0x01#16 = 0#16)

def System.step (s : System) : Event → System
  | .packet p status _ =>
    let s := s.write p
    { s with driver := rtl8139Handler s.mem status s.driver }
  | .other status _ => { s with driver := rtl8139Handler s.mem status s.driver }

/-- After `init_rtl8139`. -/
def System.init (mem : Word → Byte) : System := ⟨mem, 0, ⟨0#32, 0#16, 0#16, []⟩⟩

/-! ## Following the card -/

/-- `current_rx_ptr` is the card's offset, and inside the ring. -/
structure Follows (s : System) : Prop where
  ptr : s.driver.currentRxPtr.toNat = s.offset
  lt : s.driver.currentRxPtr.toNat < 8192

/-- The end of the packet, rounded up, is not the end of the ring itself, and not behind the end of a
second round. -/
def EndsWell (s : System) : Event → Prop
  | .packet p _ _ =>
    (s.offset + 4 + p.bytes.length + 3) / 4 * 4 ≠ 8192 ∧
      (s.offset + 4 + p.bytes.length + 3) / 4 * 4 < 16384
  | .other _ _ => True

section Handler

variable {mem : Word → Byte} {s : System} {p : Packet} {status : BitVec 16} {d : Driver}

/-- The two bytes of a length in the header. -/
theorem toNat_lengthBytes {length : ℕ} (h : length < 2 ^ 16) :
    (BitVec.ofNat 8 (length / 256) ++ BitVec.ofNat 8 length).toNat = length := by
  rw [BitVec.toNat_append, ← Nat.shiftLeft_add_eq_or_of_lt (BitVec.isLt _), BitVec.toNat_ofNat,
    BitVec.toNat_ofNat, Nat.shiftLeft_eq]
  omega

/-- The handler reads the length of the packet that the card has just written there. -/
theorem readU16_length (addr : Word) :
    (readU16 (writeBytes mem addr p.stored) (addr + 2#32)).toNat = p.bytes.length := by
  have hlow : addr + 2#32 - addr = 2#32 := add_sub_cancel_left addr 2#32
  have hhigh : addr + 2#32 + 1#32 - addr = 3#32 := by
    rw [add_assoc]
    exact add_sub_cancel_left addr 3#32
  rw [readU16, writeBytes, writeBytes, hlow, hhigh]
  exact toNat_lengthBytes p.short

/-- `& ~3` rounds down to a multiple of four. -/
theorem toNat_and_not_three (x : Word) : (x &&& ~~~3#32).toNat = x.toNat / 4 * 4 := by
  -- the two parts of `x` have no bit in common
  have hdisjoint : (x &&& ~~~3#32) &&& (x &&& 3#32) = 0#32 := by
    rw [BitVec.and_comm x 3#32, BitVec.and_assoc, ← BitVec.and_assoc (~~~3#32)]
    simp
  have hsum : (x &&& ~~~3#32) + (x &&& 3#32) = x := by
    rw [BitVec.add_eq_or_of_and_eq_zero _ _ hdisjoint, ← BitVec.and_or_distrib_left]
    exact BitVec.and_allOnes
  have hlow : (x &&& 3#32).toNat = x.toNat % 4 := Nat.and_two_pow_sub_one_eq_mod _ 2
  have hlt := x.isLt
  rw [eq_sub_of_add_eq hsum, BitVec.toNat_sub, hlow]
  omega

theorem toNat_wrap (x : Word) : (if x > 8192#32 then x - 8192#32 else x).toNat =
    if 8192 < x.toNat then x.toNat - 8192 else x.toNat := by
  have hlt : 8192#32 < x ↔ 8192 < x.toNat := BitVec.lt_def
  by_cases h : 8192 < x.toNat
  · rw [if_pos h, if_pos (hlt.mpr h), BitVec.toNat_sub_of_le (BitVec.le_of_lt (hlt.mpr h))]
    rfl
  · rw [if_neg h, if_neg fun hx => h (hlt.mp hx)]

/-- The driver's offset after a packet that it has read at its own offset. -/
theorem currentRxPtr_handler (hrx : status &&& 0x01#16 ≠ 0#16) {length : ℕ}
    (hlength : (readU16 mem (rxBufferVirt + d.currentRxPtr + 2#32)).toNat = length)
    (hptr : d.currentRxPtr.toNat < 8192) :
    (rtl8139Handler mem status d).currentRxPtr.toNat =
      if 8192 < (d.currentRxPtr.toNat + 4 + length + 3) / 4 * 4 then
        (d.currentRxPtr.toNat + 4 + length + 3) / 4 * 4 - 8192
      else (d.currentRxPtr.toNat + 4 + length + 3) / 4 * 4 := by
  have hshort : length < 2 ^ 16 := hlength ▸ BitVec.isLt _
  have hend : ((d.currentRxPtr + (readU16 mem (rxBufferVirt + d.currentRxPtr + 2#32)).setWidth 32 + 4#32
      + 3#32) &&& ~~~3#32).toNat = (d.currentRxPtr.toNat + 4 + length + 3) / 4 * 4 := by
    rw [toNat_and_not_three]
    simp only [BitVec.toNat_add, BitVec.toNat_setWidth, hlength, BitVec.toNat_ofNat]
    omega
  rw [rtl8139Handler, if_pos hrx]
  dsimp only
  rw [toNat_wrap, hend]

/-- A packet moves the driver's offset to the card's next one exactly if it ends well. -/
theorem follows_step {e : Event} (hs : Follows s) : Follows (s.step e) ↔ EndsWell s e := by
  cases e with
  | other status hnone =>
    -- without the bit for a received packet the handler moves nothing
    have hsame : (s.step (.other status hnone)).driver.currentRxPtr = s.driver.currentRxPtr := by
      rw [System.step, rtl8139Handler]
      simp [hnone]
    exact iff_of_true ⟨by rw [hsame]; exact hs.ptr, by rw [hsame]; exact hs.lt⟩ trivial
  | packet p status hrx =>
    have hoffset : BitVec.ofNat 32 s.offset = s.driver.currentRxPtr := by
      rw [← hs.ptr, BitVec.ofNat_toNat, BitVec.setWidth_eq]
    have hlength : (readU16 (s.write p).mem (rxBufferVirt + s.driver.currentRxPtr + 2#32)).toNat =
        p.bytes.length := by
      rw [System.write, hoffset]
      exact readU16_length _
    -- the handler reads the length that the card has stored
    have hptr := currentRxPtr_handler hrx hlength hs.lt
    rw [hs.ptr] at hptr
    have hlt := hs.lt
    rw [hs.ptr] at hlt
    have hshort := p.short
    have hnext : (s.step (.packet p status hrx)).offset = nextOffset s.offset p.bytes.length := rfl
    have hdriver : (s.step (.packet p status hrx)).driver =
        rtl8139Handler (s.write p).mem status s.driver := rfl
    constructor
    · rintro ⟨heq, hlt'⟩
      rw [hdriver, hptr] at heq hlt'
      rw [hnext, nextOffset] at heq
      rw [EndsWell]
      split at heq <;> omega
    · rintro ⟨hne, hbound⟩
      have hval : (s.step (.packet p status hrx)).driver.currentRxPtr.toNat =
          nextOffset s.offset p.bytes.length := by
        rw [hdriver, hptr, nextOffset]
        split <;> omega
      exact ⟨hval.trans hnext.symm, hval ▸ Nat.mod_lt _ (by decide)⟩

end Handler

/-- From any state in which the offsets agree. -/
theorem along_follows_iff {s : System} (hs : Follows s) (es : List Event) :
    Along System.step Follows s es ↔ Steps System.step EndsWell s es :=
  along_iff_steps (I := fun _ => True) (fun _ => trivial) (fun _ hs => follows_step hs) trivial hs

theorem follows_init (mem : Word → Byte) : Follows (System.init mem) := ⟨rfl, show 0 < 8192 by decide⟩

/-- **The receive ring.** The driver's offset is the card's, and inside the ring, in all states of a run
exactly if no packet of the run ends, rounded up, at the end of the ring or behind a second round. -/
theorem rxPtr_follows (mem : Word → Byte) (es : List Event) :
    Along System.step Follows (System.init mem) es ↔ Steps System.step EndsWell (System.init mem) es :=
  along_follows_iff (follows_init mem) es

/-- An interrupt for a packet of 1020 bytes, which takes 1024 bytes of the ring. -/
def kilobyte : Event := .packet ⟨1#16, List.replicate 1020 0#8, by rw [List.length_replicate]; decide⟩ 1#16
  (by decide)

theorem kilobyte_offset (s : System) : (s.step kilobyte).offset = (s.offset + 1027) / 4 * 4 % 8192 := by
  change (s.offset + 4 + (List.replicate 1020 0#8).length + 3) / 4 * 4 % 8192 = _
  rw [List.length_replicate]

/-- The eighth such packet ends at the end of the ring. -/
theorem kilobytes_end {s : System} (hzero : s.offset = 0) :
    ¬Steps System.step EndsWell s (List.replicate 8 kilobyte) := by
  rintro ⟨-, -, -, -, -, -, -, ⟨hne, -⟩, -⟩
  simp only [kilobyte_offset] at hne
  change (_ + 4 + (List.replicate 1020 0#8).length + 3) / 4 * 4 ≠ 8192 at hne
  rw [List.length_replicate, hzero] at hne
  exact hne (by decide)

/-- After eight such packets the card goes on at 0, and the driver at 8192. -/
theorem rxPtr_left_behind :
    ¬Along System.step Follows (System.init fun _ => 0#8) (List.replicate 8 kilobyte) :=
  fun h => kilobytes_end rfl ((along_follows_iff (follows_init _) _).mp h)

end PekerOS.Drivers.Rtl8139
