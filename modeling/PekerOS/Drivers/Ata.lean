import PekerOS.Lib.Memory
import PekerOS.Lib.Table

/-!
# Reading a range of a drive

`ata_read_device1` reads a range of bytes sector by sector. From the first sector it copies what is behind
the offset, from the last what is before the end of the range, and all of those between.

## Main definitions

* `ataReadDevice1`: the function, on what `ata_read_sector` leaves in its buffer
* `flatDisk`: the sectors of a drive one after the other

## Main results

* `readSectors_spec`: what the loop leaves in the buffer from a sector on
* `device_read_flat`: a range that is read is that of the drive
-/

namespace PekerOS.Drivers.Ata

open Memory

/-- The loop of `ata_read_device1`; `sector` is what `ata_read_sector` leaves in `sector_buf`. There is no
result if the loop has not ended after the given number of rounds. -/
def readSectors (sector : Word → ℕ → Byte) (offset size : Word) :
    ℕ → Word → Word → (ℕ → Byte) → Option (Word × (ℕ → Byte))
  | 0, _, _, _ => none
  | rounds + 1, s, readBytes, buffer =>
    let startSector := offset / 512#32
    let endSector := (offset + size - 1#32) / 512#32
    if s ≤ endSector then
      -- the first sector from the offset on, the last one up to the end
      let off := if s = startSector then offset % 512#32 else 0#32
      let len := if s = endSector then (offset + size - 1#32) % 512#32 - off + 1#32 else 512#32 - off
      let buffer := store buffer readBytes.toNat (slice (sector s) off.toNat len.toNat)
      readSectors sector offset size rounds (s + 1#32) (readBytes + len) buffer
    else some (readBytes, buffer)

/-- `ata_read_device1`; `status` is what the drive answers in its status register. -/
def ataReadDevice1 (status : Byte) (sector : Word → ℕ → Byte) (rounds : ℕ) (offset size : Word)
    (buffer : ℕ → Byte) : Option (Word × (ℕ → Byte)) :=
  if status = 0xFF#8 ∨ status = 0x00#8 then some (0#32, buffer)
  else readSectors sector offset size rounds (offset / 512#32) 0#32 buffer

/-- The drive is there. -/
def Present (status : Byte) : Prop := status ≠ 0xFF#8 ∧ status ≠ 0x00#8

instance : DecidablePred Present := fun _ => inferInstanceAs (Decidable (_ ∧ _))

/-- The bytes of a drive. -/
def flatDisk (sectors : ℕ → ℕ → Byte) (p : ℕ) : Byte := sectors (p / 512) (p % 512)

section Loop

variable {sectors : ℕ → ℕ → Byte} {offset size s readBytes : Word} {buffer : ℕ → Byte} {rounds : ℕ}

/-- Where the range is taken up in a sector. -/
def place (offset size : Word) (s : ℕ) : ℕ :=
  max offset.toNat (min (512 * s) (offset.toNat + size.toNat))

theorem place_end (h : offset.toNat + size.toNat ≤ 512 * s.toNat) :
    place offset size s.toNat = offset.toNat + size.toNat := by
  rw [place]
  omega

section Bounds

variable (hsize : 1 ≤ size.toNat) (hend : offset.toNat + size.toNat ≤ 2 ^ 32)

include hsize hend

/-- The last byte of the range. -/
theorem last_toNat : (offset + size - 1#32).toNat = offset.toNat + size.toNat - 1 := by
  have hone : (1#32).toNat = 1 := rfl
  rw [BitVec.toNat_sub, BitVec.toNat_add, hone]
  omega

/-- In a sector of the range, it goes from one place to the next. -/
theorem off_len (hlo : offset.toNat / 512 ≤ s.toNat)
    (hhi : s.toNat ≤ (offset.toNat + size.toNat - 1) / 512) :
    let off := if s = offset / 512#32 then offset % 512#32 else 0#32
    let len := if s = (offset + size - 1#32) / 512#32 then
      (offset + size - 1#32) % 512#32 - off + 1#32 else 512#32 - off
    512 * s.toNat + off.toNat = place offset size s.toNat ∧
      place offset size s.toNat + len.toNat = place offset size (s.toNat + 1) ∧
      off.toNat + len.toNat ≤ 512 := by
  intro off len
  -- the last byte of the range, and the sectors that it starts and ends in
  have hlast := last_toNat hsize hend
  have hstart : s = offset / 512#32 ↔ s.toNat = offset.toNat / 512 := by
    rw [← BitVec.toNat_inj, BitVec.toNat_udiv]
    rfl
  have hstop : s = (offset + size - 1#32) / 512#32 ↔
      s.toNat = (offset.toNat + size.toNat - 1) / 512 := by
    rw [← BitVec.toNat_inj, BitVec.toNat_udiv, hlast]
    rfl
  have hmod : (offset % 512#32).toNat = offset.toNat % 512 := by
    rw [BitVec.toNat_umod]
    rfl
  have hlastMod : ((offset + size - 1#32) % 512#32).toNat = (offset.toNat + size.toNat - 1) % 512 := by
    rw [BitVec.toNat_umod, hlast]
    rfl
  have hoff : off.toNat = if s.toNat = offset.toNat / 512 then offset.toNat % 512 else 0 := by
    by_cases hs : s = offset / 512#32
    · simp only [off, if_pos hs, if_pos (hstart.mp hs), hmod]
    · simp only [off, if_neg hs, if_neg (hs ∘ hstart.mpr)]
      rfl
  have hlen : len.toNat = (if s.toNat = (offset.toNat + size.toNat - 1) / 512 then
      (offset.toNat + size.toNat - 1) % 512 + 1 else 512) - off.toNat := by
    by_cases hs : s = (offset + size - 1#32) / 512#32
    · have hle : off.toNat ≤ (offset.toNat + size.toNat - 1) % 512 := by
        have hs' := hstop.mp hs
        split_ifs at hoff <;> omega
      simp only [len, if_pos hs, if_pos (hstop.mp hs), BitVec.toNat_add, BitVec.toNat_sub, hlastMod]
      have hone : (1#32).toNat = 1 := rfl
      omega
    · have hle : off.toNat < 512 := by
        split_ifs at hoff <;> omega
      simp only [len, if_neg hs, if_neg (hs ∘ hstop.mpr), BitVec.toNat_sub]
      have hsector : (512#32).toNat = 512 := rfl
      omega
  -- from here on it is arithmetic with the two numbers
  clear_value off len
  simp only [place]
  split_ifs at hoff hlen <;> omega

/-- What the loop leaves in the buffer from a sector of the range on. -/
theorem readSectors_spec (hrounds : (offset.toNat + size.toNat - 1) / 512 + 1 < rounds + s.toNat)
    (hlo : offset.toNat / 512 ≤ s.toNat) (hhi : s.toNat ≤ (offset.toNat + size.toNat - 1) / 512 + 1)
    (hread : offset.toNat + readBytes.toNat = place offset size s.toNat) :
    ∃ buffer', readSectors (fun l => sectors l.toNat) offset size rounds s readBytes buffer =
      some (size, buffer') ∧ ∀ i, buffer' i =
        if readBytes.toNat ≤ i ∧ i < size.toNat then flatDisk sectors (offset.toNat + i) else buffer i := by
  have hstop : ((offset + size - 1#32) / 512#32).toNat = (offset.toNat + size.toNat - 1) / 512 := by
    rw [BitVec.toNat_udiv, last_toNat hsize hend]
    rfl
  -- by the sectors that are left; `readBytes` is the place that has been reached
  induction rounds generalizing s readBytes buffer with
  | zero => omega
  | succ rounds ih =>
    rw [readSectors]
    by_cases hs : s ≤ (offset + size - 1#32) / 512#32
    · have hle : s.toNat ≤ (offset.toNat + size.toNat - 1) / 512 := by
        rwa [← hstop, ← BitVec.le_def]
      obtain ⟨ho, hl, hfit⟩ := off_len hsize hend hlo hle
      rw [if_pos hs]
      dsimp only at ho hl hfit ⊢
      generalize (if s = offset / 512#32 then offset % 512#32 else 0#32) = off at ho hl hfit ⊢
      generalize (if s = (offset + size - 1#32) / 512#32 then
        (offset + size - 1#32) % 512#32 - off + 1#32 else 512#32 - off) = len at hl hfit ⊢
      have hsize' := size.isLt
      have hplace : place offset size (s.toNat + 1) ≤ offset.toNat + size.toNat := by
        rw [place]
        omega
      have hs' : (s + 1#32).toNat = s.toNat + 1 := by
        have hone : (1#32).toNat = 1 := rfl
        rw [BitVec.toNat_add]
        omega
      have hread' : (readBytes + len).toNat = readBytes.toNat + len.toNat := by
        rw [BitVec.toNat_add]
        omega
      obtain ⟨buffer', hrun, hbuf⟩ := @ih (s + 1#32) (readBytes + len)
        (store buffer readBytes.toNat (slice (sectors s.toNat) off.toNat len.toNat)) (by omega)
        (by omega) (by omega)
        (by rw [hread', hs']; omega)
      refine ⟨buffer', hrun, fun i => ?_⟩
      rw [hbuf i, hread']
      by_cases hi : readBytes.toNat ≤ i ∧ i < readBytes.toNat + len.toNat
      · -- the byte is one of this sector
        obtain ⟨j, rfl⟩ := Nat.exists_eq_add_of_le hi.1
        rw [if_neg (by omega), if_pos (by omega), store_slice _ (show j < len.toNat by omega),
          flatDisk]
        congr <;> omega
      · -- the byte is of a sector before or after
        rw [store_of_disjoint _ (by simp only [length_slice]; omega)]
        split_ifs <;> first | rfl | omega
    · have hover : (offset.toNat + size.toNat - 1) / 512 < s.toNat := by
        rw [← hstop]
        exact BitVec.not_le.mp hs
      -- the loop has ended behind the last sector
      rw [place_end (by omega)] at hread
      rw [if_neg hs]
      refine ⟨buffer, by rw [BitVec.eq_of_toNat_eq (show readBytes.toNat = size.toNat by omega)],
        fun i => ?_⟩
      rw [if_neg (by omega)]

end Bounds

end Loop

/-- A range of bytes that is read from a drive that is there is that of the drive. -/
theorem device_read_flat (sectors : ℕ → ℕ → Byte) {status : Byte} (hstatus : Present status)
    {offset size : Word} (hsize : 1 ≤ size.toNat) (hend : offset.toNat + size.toNat ≤ 2 ^ 32) {rounds : ℕ}
    (hrounds : 2 ^ 23 < rounds) (buffer : ℕ → Byte) :
    ∃ buffer', ataReadDevice1 status (fun s => sectors s.toNat) rounds offset size buffer =
      some (size, buffer') ∧
        ∀ i, buffer' i = if i < size.toNat then flatDisk sectors (offset.toNat + i) else buffer i := by
  have hstart : (offset / 512#32).toNat = offset.toNat / 512 := by
    rw [BitVec.toNat_udiv]
    rfl
  rw [ataReadDevice1, if_neg (not_or.mpr hstatus)]
  obtain ⟨buffer', hrun, hbuf⟩ := @readSectors_spec sectors offset size (offset / 512#32) 0#32
    buffer rounds hsize hend (by omega) (by omega) (by omega)
    (by rw [hstart, place, BitVec.toNat_ofNat]; omega)
  refine ⟨buffer', hrun, fun i => ?_⟩
  rw [hbuf i, BitVec.toNat_ofNat]
  split_ifs <;> first | rfl | omega

/-- Three bytes over the end of the first sector. -/
theorem device_read_across : ∃ buffer',
    ataReadDevice1 0x50#8 (fun s i => BitVec.ofNat 8 (s.toNat + i)) (2 ^ 23 + 1) 510#32 3#32
        (fun _ => 0#8) =
      some (3#32, buffer') ∧ [buffer' 0, buffer' 1, buffer' 2, buffer' 3] = [254#8, 255#8, 1#8, 0#8] := by
  obtain ⟨buffer', hrun, hbuf⟩ := @device_read_flat (fun s i => BitVec.ofNat 8 (s + i)) 0x50#8 (by decide)
    510#32 3#32 (by decide) (by decide) (2 ^ 23 + 1) (by omega) (fun _ => 0#8)
  exact ⟨buffer', hrun, by rw [hbuf, hbuf, hbuf, hbuf]; decide⟩

end PekerOS.Drivers.Ata
