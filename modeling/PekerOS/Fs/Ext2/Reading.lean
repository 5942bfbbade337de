import PekerOS.Fs.Ext2.Ext2
import PekerOS.Lib.Memory

/-!
# ext2: reading a file

A file is blocks that the inode names: twelve by itself, and the others in blocks of block numbers. A
block number 0 is a hole, which reads as zeros. `ext2_read` copies from the first twelve blocks and goes
over the others without copying; it takes the number 0 for that of a block.

## Main definitions

* `ext2Read`: the function
* `inodeOf`, `fileBlock`, `fileByte`: the bytes of a file on a device
* `Image`: what is used of a valid image
* `ReadsFile`: a call returns bytes of the file
* `Readable`: the ranges for which it does

## Main results

* `readLoop_spec`: what the loop leaves in the buffer
* `ext2_read_iff`: the calls that return bytes of the file
-/

namespace PekerOS.Ext2

open Memory

/-! ## The function -/

/-- The loop of `ext2_read`, which has counted `readBytes` bytes; `none` if it has not ended after the
given number of rounds. -/
def readLoop (fs : Ext2Fs) (inode : Inode) (offset size : Word) :
    ℕ → Word → (ℕ → Byte) → Option (Word × (ℕ → Byte))
  | 0, _, _ => none
  | rounds + 1, readBytes, buffer =>
    if readBytes < size then
      let blockIdx := (offset + readBytes) / fs.blockSize
      let blockOff := (offset + readBytes) % fs.blockSize
      let toRead := fs.blockSize - blockOff
      let toRead := if toRead > size - readBytes then size - readBytes else toRead
      -- only the direct blocks are supported
      let buffer :=
        if blockIdx < 12#32 then
          store buffer readBytes.toNat
            (slice (ext2ReadBlock fs (inode.block blockIdx.toNat)) blockOff.toNat toRead.toNat)
        else buffer
      readLoop fs inode offset size rounds (readBytes + toRead) buffer
    else some (readBytes, buffer)

/-- The bytes of `i_block`, where the target of a fast symlink is. -/
def Inode.inline (inode : Inode) (i : ℕ) : Byte := (inode.block (i / 4) >>> (8 * (i % 4))).setWidth 8

/-- `ext2_read`: the number it returns and the buffer then; `none` on a division by zero. -/
def ext2Read (fs : Ext2Fs) (node : VfsNode) (offset size : Word) (buffer : ℕ → Byte) :
    Option (Word × (ℕ → Byte)) := do
  let inode ← ext2ReadInode fs node.inode
  if inode.size ≤ offset then return (0#32, buffer)
  -- a sum that wraps is not above the size
  let size := if offset + size > inode.size then inode.size - offset else size
  if node.flags &&& vfsSymlink ≠ 0#32 ∧ inode.size < 60#32 then
    -- a short link has its target in the inode
    let toCopy := if size < inode.size - offset then size else inode.size - offset
    return (toCopy, store buffer 0 (slice inode.inline offset.toNat toCopy.toNat))
  readLoop fs inode offset size (size.toNat + 1) 0#32 buffer

/-! ## Files on a device -/

section Files

variable (fs : Ext2Fs)

/-- Where an inode is on the device. -/
def inodeAddr (ino : Word) : ℕ :=
  (fs.bgInodeTable ((ino.toNat - 1) / fs.inodesPerGroup.toNat)).toNat * fs.blockSize.toNat +
    (ino.toNat - 1) % fs.inodesPerGroup.toNat * fs.inodeSize.toNat

/-- The inode there. -/
def inodeOf (ino : Word) : Inode :=
  let mem := fun i => fs.dev (inodeAddr fs ino + i)
  ⟨le16 mem 0, le32 mem 4, fun i => le32 mem (40 + 4 * i)⟩

/-- A number in a block of block numbers. -/
def indirect (block : Word) (i : ℕ) : Word :=
  if block = 0#32 then 0#32 else le32 (fun j => fs.dev (block.toNat * fs.blockSize.toNat + j)) (4 * i)

/-- The number of a block of a file, 0 for a hole: twelve are in the inode, and the others are behind
one, two or three blocks of block numbers. -/
def fileBlock (inode : Inode) (idx : ℕ) : Word :=
  let n := fs.blockSize.toNat / 4
  if idx < 12 then inode.block idx
  else if idx < 12 + n then indirect fs (inode.block 12) (idx - 12)
  else if idx < 12 + n + n ^ 2 then
    let i := idx - (12 + n)
    indirect fs (indirect fs (inode.block 13) (i / n)) (i % n)
  else
    let i := idx - (12 + n + n ^ 2)
    indirect fs (indirect fs (indirect fs (inode.block 14) (i / n ^ 2)) (i / n % n)) (i % n)

/-- A byte of a file. -/
def fileByte (inode : Inode) (p : ℕ) : Byte :=
  let block := fileBlock fs inode (p / fs.blockSize.toNat)
  if block = 0#32 then 0#8
  else fs.dev (block.toNat * fs.blockSize.toNat + p % fs.blockSize.toNat)

/-- An inode of an image on a device, whose offsets are 32-bit words: the sizes are those of the format,
and the inode and its direct blocks are on the device. -/
structure Image (ino : Word) : Prop where
  groups : 0 < fs.inodesPerGroup.toNat
  pos : 0 < ino.toNat
  blockSize : ∃ k, fs.blockSize.toNat = 1024 * 2 ^ k
  inodeSize : 128 ≤ fs.inodeSize.toNat ∧ fs.inodeSize.toNat ∣ fs.blockSize.toNat
  inode : inodeAddr fs ino + 128 ≤ 2 ^ 32
  blocks : ∀ i < 12, ((inodeOf fs ino).block i).toNat * fs.blockSize.toNat + fs.blockSize.toNat ≤ 2 ^ 32

/-- A node of a regular file, or of a symlink whose target is in a block. -/
def IsFile (node : VfsNode) : Prop :=
  node.flags = vfsFile ∨ node.flags = vfsSymlink ∧ 60 ≤ (inodeOf fs node.inode).size.toNat

/-- The result of a call is bytes of the file, of which none are behind its end. -/
structure ReadsFile (inode : Inode) (offset r : Word) (buffer : ℕ → Byte) : Prop where
  bytes : ∀ i < r.toNat, buffer i = fileByte fs inode (offset.toNat + i)
  past : inode.size ≤ offset → r = 0#32
  within : offset < inode.size → r.toNat ≤ inode.size.toNat - offset.toNat

/-- A range of a file: it is behind the end; or its end does not wrap, all of it that is in the file is in
the first twelve blocks, and where there are holes block 0 has zeros. -/
def Readable (inode : Inode) (offset size : Word) : Prop :=
  inode.size ≤ offset ∨ offset.toNat + size.toNat < 2 ^ 32 ∧
    ∀ p, offset.toNat ≤ p → p < offset.toNat + size.toNat → p < inode.size.toNat →
      p / fs.blockSize.toNat < 12 ∧
        (inode.block (p / fs.blockSize.toNat) = 0#32 → fs.dev (p % fs.blockSize.toNat) = 0#8)

end Files

/-! ## The loop -/

section Loop

variable {fs : Ext2Fs} {inode : Inode} {offset size : Word}

/-- A byte of the buffer after the loop: from the block it is in, if that is one of the first twelve. -/
def copied (fs : Ext2Fs) (inode : Inode) (offset : Word) (buffer : ℕ → Byte) (i : ℕ) : Byte :=
  let p := offset.toNat + i
  if p / fs.blockSize.toNat < 12 then
    ext2ReadBlock fs (inode.block (p / fs.blockSize.toNat)) (p % fs.blockSize.toNat)
  else buffer i

/-- The number of bytes of one round: up to the end of the block, and not more than are left. -/
theorem toRead_toNat {readBytes blockOff : Word} (hoff : blockOff.toNat < fs.blockSize.toNat)
    (hread : readBytes.toNat < size.toNat) :
    (if fs.blockSize - blockOff > size - readBytes then size - readBytes
      else fs.blockSize - blockOff).toNat =
        min (fs.blockSize.toNat - blockOff.toNat) (size.toNat - readBytes.toNat) := by
  have hblock := BitVec.toNat_sub_of_le (BitVec.le_def.mpr hoff.le)
  have hleft := BitVec.toNat_sub_of_le (BitVec.le_def.mpr hread.le)
  split
  · next h =>
    rw [gt_iff_lt, BitVec.lt_def] at h
    omega
  · next h =>
    rw [gt_iff_lt, BitVec.lt_def] at h
    omega

/-- Places of one block. -/
theorem div_mod_add {b q j : ℕ} (h : q % b + j < b) : (q + j) / b = q / b ∧ (q + j) % b = q % b + j := by
  have hq := Nat.div_add_mod q b
  have hsum : q + j = q % b + j + b * (q / b) := by omega
  constructor
  · rw [hsum, Nat.add_mul_div_left _ _ (by omega), Nat.div_eq_of_lt h, Nat.zero_add]
  · rw [hsum, Nat.add_mul_mod_self_left, Nat.mod_eq_of_lt h]

/-- A byte of one round. -/
theorem readRound_byte {readBytes toRead : Word} {buffer : ℕ → Byte} {j : ℕ}
    (hwrap : offset.toNat + readBytes.toNat < 2 ^ 32) (hj : j < toRead.toNat)
    (hblock : (offset.toNat + readBytes.toNat) % fs.blockSize.toNat + j < fs.blockSize.toNat) :
    (if (offset + readBytes) / fs.blockSize < 12#32 then
        store buffer readBytes.toNat (slice (ext2ReadBlock fs
          (inode.block ((offset + readBytes) / fs.blockSize).toNat))
            ((offset + readBytes) % fs.blockSize).toNat toRead.toNat)
      else buffer) (readBytes.toNat + j) = copied fs inode offset buffer (readBytes.toNat + j) := by
  have hplace : (offset + readBytes).toNat = offset.toNat + readBytes.toNat := by
    rw [BitVec.toNat_add]
    exact Nat.mod_eq_of_lt hwrap
  have hdirect : (offset + readBytes) / fs.blockSize < 12#32 ↔
      ((offset + readBytes) / fs.blockSize).toNat < 12 := BitVec.lt_def
  obtain ⟨hdiv, hmod⟩ := div_mod_add hblock
  rw [copied, ← Nat.add_assoc, hdiv, hmod, ← hplace, ← BitVec.toNat_udiv, ← BitVec.toNat_umod]
  split
  · next h => rw [store_slice _ hj, if_pos (hdirect.mp h)]
  · next h => rw [if_neg (mt hdirect.mpr h)]

/-- **The loop** counts all bytes; where the end does not wrap, it copies those of the first twelve
blocks. -/
theorem readLoop_spec (hblock : 0 < fs.blockSize.toNat) {rounds : ℕ} {readBytes : Word}
    {buffer : ℕ → Byte} (hle : readBytes.toNat ≤ size.toNat)
    (hrounds : size.toNat - readBytes.toNat < rounds) :
    ∃ buffer', readLoop fs inode offset size rounds readBytes buffer = some (size, buffer') ∧
      (offset.toNat + size.toNat < 2 ^ 32 → ∀ i, readBytes.toNat ≤ i → i < size.toNat →
        buffer' i = copied fs inode offset buffer i) ∧
      ∀ i < readBytes.toNat, buffer' i = buffer i := by
  induction rounds generalizing readBytes buffer with
  | zero => omega
  | succ rounds ih =>
    rw [readLoop]
    by_cases hlt : readBytes < size
    swap
    · have heq : readBytes = size := BitVec.eq_of_toNat_eq (by rw [BitVec.lt_def] at hlt; omega)
      rw [if_neg hlt, heq]
      exact ⟨buffer, rfl, fun _ i hi hi' => absurd hi (Nat.not_le_of_lt hi'), fun _ _ => rfl⟩
    rw [if_pos hlt]
    have hlt' : readBytes.toNat < size.toNat := BitVec.lt_def.mp hlt
    have hoff : ((offset + readBytes) % fs.blockSize).toNat < fs.blockSize.toNat := by
      rw [BitVec.toNat_umod]
      exact Nat.mod_lt _ hblock
    have htoRead := toRead_toNat hoff hlt'
    dsimp only
    generalize (if fs.blockSize - (offset + readBytes) % fs.blockSize > size - readBytes then
      size - readBytes else fs.blockSize - (offset + readBytes) % fs.blockSize) = toRead at htoRead ⊢
    have hnext : (readBytes + toRead).toNat = readBytes.toNat + toRead.toNat := by
      rw [BitVec.toNat_add]
      have := size.isLt
      omega
    generalize hbuffer : (if (offset + readBytes) / fs.blockSize < 12#32 then
      store buffer readBytes.toNat (slice (ext2ReadBlock fs
        (inode.block ((offset + readBytes) / fs.blockSize).toNat))
          ((offset + readBytes) % fs.blockSize).toNat toRead.toNat) else buffer) = next
    -- the round leaves the rest of the buffer alone
    have hother (i : ℕ) (hi : i < readBytes.toNat ∨ readBytes.toNat + toRead.toNat ≤ i) :
        next i = buffer i := by
      rw [← hbuffer]
      split
      · exact store_of_disjoint buffer (by rwa [length_slice])
      · rfl
    obtain ⟨buffer', hloop, hbytes, hbefore⟩ := @ih (readBytes + toRead) next (by omega) (by omega)
    refine ⟨buffer', hloop, fun hwrap i hi hi' => ?_, fun i hi => ?_⟩
    · by_cases hround : i < readBytes.toNat + toRead.toNat
      swap
      · rw [hbytes hwrap i (by omega) hi', copied, copied, hother i (by omega)]
      -- a byte of this round
      obtain ⟨j, rfl⟩ : ∃ j, i = readBytes.toNat + j := ⟨i - readBytes.toNat, by omega⟩
      have hplace : (offset + readBytes).toNat = offset.toNat + readBytes.toNat := by
        rw [BitVec.toNat_add]
        exact Nat.mod_eq_of_lt (by omega)
      rw [BitVec.toNat_umod, hplace] at htoRead
      rw [hbefore _ (by omega), ← hbuffer]
      exact readRound_byte (by omega) (by omega) (by omega)
    · rw [hbefore i (by omega), hother i (.inl hi)]

end Loop

/-! ## The image -/

section Image

variable {fs : Ext2Fs} {ino : Word}

theorem le32_congr {mem mem' : ℕ → Byte} {i : ℕ} (h : ∀ j < 4, mem (i + j) = mem' (i + j)) :
    le32 mem i = le32 mem' i := by
  have h0 : mem i = mem' i := h 0 (by decide)
  have h1 : mem (i + 1) = mem' (i + 1) := h 1 (by decide)
  have h2 : mem (i + 2) = mem' (i + 2) := h 2 (by decide)
  have h3 : mem (i + 2 + 1) = mem' (i + 2 + 1) := h 3 (by decide)
  rw [le32, le32, le16, le16, le16, le16, h0, h1, h2, h3]

theorem Image.blockSize_pos (h : Image fs ino) : 0 < fs.blockSize.toNat := by
  obtain ⟨k, hk⟩ := h.blockSize
  rw [hk]
  exact Nat.mul_pos (by decide) (Nat.two_pow_pos k)

/-- An inode does not go over the end of its block. -/
theorem Image.inode_fits (h : Image fs ino) (x : ℕ) :
    x * fs.inodeSize.toNat % fs.blockSize.toNat + 128 ≤ fs.blockSize.toNat := by
  have hlt := Nat.mod_lt (x * fs.inodeSize.toNat) h.blockSize_pos
  obtain ⟨hsize, hdvd⟩ := h.inodeSize
  -- both are multiples of the size of an inode
  obtain ⟨a, ha⟩ := (Nat.dvd_mod_iff hdvd).mpr (Nat.dvd_mul_left fs.inodeSize.toNat x)
  obtain ⟨b, hb⟩ := hdvd
  rw [ha, hb] at hlt ⊢
  have hab : a + 1 ≤ b := Nat.lt_of_mul_lt_mul_left hlt
  have hmul := Nat.mul_le_mul_left fs.inodeSize.toNat hab
  rw [Nat.mul_add, Nat.mul_one] at hmul
  omega

/-- The place of a block on the device. -/
theorem ext2ReadBlock_of_lt {block : Word} {i : ℕ} (hwrap : block.toNat * fs.blockSize.toNat < 2 ^ 32)
    (h : i < fs.blockSize.toNat) :
    ext2ReadBlock fs block i = fs.dev (block.toNat * fs.blockSize.toNat + i) := by
  rw [ext2ReadBlock, if_pos h, BitVec.toNat_mul, Nat.mod_eq_of_lt hwrap]

/-- The bytes that `ext2_read_inode` takes an inode from, if they are on the device and in one block. -/
theorem inode_byte (hblock : 0 < fs.blockSize.toNat) (hpos : 0 < ino.toNat)
    (haddr : inodeAddr fs ino + 128 ≤ 2 ^ 32)
    (hfits : (ino.toNat - 1) % fs.inodesPerGroup.toNat * fs.inodeSize.toNat % fs.blockSize.toNat + 128 ≤
      fs.blockSize.toNat) {j : ℕ} (hj : j < 128) :
    ext2ReadBlock fs
        (fs.bgInodeTable ((ino - 1#32) / fs.inodesPerGroup).toNat +
          (ino - 1#32) % fs.inodesPerGroup * fs.inodeSize.setWidth 32 / fs.blockSize)
        (((ino - 1#32) % fs.inodesPerGroup * fs.inodeSize.setWidth 32 % fs.blockSize).toNat + j) =
      fs.dev (inodeAddr fs ino + j) := by
  have hino : (ino - 1#32).toNat = ino.toNat - 1 := BitVec.toNat_sub_of_le (BitVec.le_def.mpr hpos)
  have hsize := fs.inodeSize.isLt
  rw [inodeAddr] at haddr ⊢
  rw [BitVec.toNat_udiv, hino]
  generalize hindex : (ino.toNat - 1) % fs.inodesPerGroup.toNat = index at haddr hfits ⊢
  generalize fs.bgInodeTable ((ino.toNat - 1) / fs.inodesPerGroup.toNat) = table at haddr ⊢
  -- none of the three products wraps
  have hproduct : ((ino - 1#32) % fs.inodesPerGroup * fs.inodeSize.setWidth 32).toNat =
      index * fs.inodeSize.toNat := by
    rw [BitVec.toNat_mul, BitVec.toNat_umod, hino, hindex, BitVec.toNat_setWidth,
      Nat.mod_eq_of_lt (hsize.trans (by decide) : fs.inodeSize.toNat < 2 ^ 32), Nat.mod_eq_of_lt (by omega)]
  have hsplit := Nat.div_add_mod (index * fs.inodeSize.toNat) fs.blockSize.toNat
  have hplace : (table.toNat + index * fs.inodeSize.toNat / fs.blockSize.toNat) * fs.blockSize.toNat +
      index * fs.inodeSize.toNat % fs.blockSize.toNat =
        table.toNat * fs.blockSize.toNat + index * fs.inodeSize.toNat := by
    rw [Nat.add_mul, Nat.mul_comm (_ / _)]
    omega
  have hle := Nat.le_mul_of_pos_right
    (table.toNat + index * fs.inodeSize.toNat / fs.blockSize.toNat) hblock
  have hnumber :
      (table + (ino - 1#32) % fs.inodesPerGroup * fs.inodeSize.setWidth 32 / fs.blockSize).toNat =
        table.toNat + index * fs.inodeSize.toNat / fs.blockSize.toNat := by
    rw [BitVec.toNat_add, BitVec.toNat_udiv, hproduct, Nat.mod_eq_of_lt (by omega)]
  rw [ext2ReadBlock_of_lt (by rw [hnumber]; omega) (by rw [BitVec.toNat_umod, hproduct]; omega),
    hnumber, BitVec.toNat_umod, hproduct, ← Nat.add_assoc, hplace]

theorem Image.inode_byte (h : Image fs ino) {j : ℕ} (hj : j < 128) :
    ext2ReadBlock fs
        (fs.bgInodeTable ((ino - 1#32) / fs.inodesPerGroup).toNat +
          (ino - 1#32) % fs.inodesPerGroup * fs.inodeSize.setWidth 32 / fs.blockSize)
        (((ino - 1#32) % fs.inodesPerGroup * fs.inodeSize.setWidth 32 % fs.blockSize).toNat + j) =
      fs.dev (inodeAddr fs ino + j) :=
  Ext2.inode_byte h.blockSize_pos h.pos h.inode (h.inode_fits _) hj

/-- **`ext2_read_inode`** reads the inode. -/
theorem ext2ReadInode_image (h : Image fs ino) : ∃ inode, ext2ReadInode fs ino = some inode ∧
    inode.size = (inodeOf fs ino).size ∧ ∀ i < 12, inode.block i = (inodeOf fs ino).block i := by
  have hgroups : fs.inodesPerGroup ≠ 0#32 := fun h0 => absurd h.groups (by rw [h0]; decide)
  have hzero : fs.blockSize ≠ 0#32 := fun h0 => absurd h.blockSize_pos (by rw [h0]; decide)
  rw [ext2ReadInode, if_neg (not_or.mpr ⟨hgroups, hzero⟩)]
  refine ⟨_, rfl, ?_, fun i hi => ?_⟩
  · exact le32_congr fun j hj => h.inode_byte (by omega)
  · exact le32_congr fun j hj => h.inode_byte (by omega)

end Image

/-! ## Reading -/

section Read

variable {fs : Ext2Fs} {node : VfsNode} {inode : Inode} {offset size : Word}

/-- How many bytes are asked for inside the file. -/
def clipped (inode : Inode) (offset size : Word) : Word :=
  if offset + size > inode.size then inode.size - offset else size

theorem clipped_toNat (hoffset : offset < inode.size) (hwrap : offset.toNat + size.toNat < 2 ^ 32) :
    (clipped inode offset size).toNat = min size.toNat (inode.size.toNat - offset.toNat) := by
  rw [BitVec.lt_def] at hoffset
  have hsum : (offset + size).toNat = offset.toNat + size.toNat := by
    rw [BitVec.toNat_add, Nat.mod_eq_of_lt hwrap]
  have hsub := BitVec.toNat_sub_of_le (BitVec.le_def.mpr hoffset.le)
  rw [clipped]
  split
  · next h =>
    rw [gt_iff_lt, BitVec.lt_def] at h
    omega
  · next h =>
    rw [gt_iff_lt, BitVec.lt_def] at h
    omega

/-- An end that wraps is not behind the end of the file. -/
theorem clipped_wrapped (hoffset : offset < inode.size) (hwrap : 2 ^ 32 ≤ offset.toNat + size.toNat) :
    clipped inode offset size = size := by
  have hsize := size.isLt
  rw [BitVec.lt_def] at hoffset
  refine if_neg fun h => ?_
  rw [gt_iff_lt, BitVec.lt_def, BitVec.toNat_add] at h
  omega

theorem ext2Read_past (hinode : ext2ReadInode fs node.inode = some inode) (h : inode.size ≤ offset)
    (buffer : ℕ → Byte) : ext2Read fs node offset size buffer = some (0#32, buffer) := by
  rw [ext2Read, hinode]
  exact if_pos h

/-- In a file that is not a fast symlink the loop runs. -/
theorem ext2Read_loop (hinode : ext2ReadInode fs node.inode = some inode) (hoffset : offset < inode.size)
    (hslow : node.flags &&& vfsSymlink = 0#32 ∨ 60 ≤ inode.size.toNat) (buffer : ℕ → Byte) :
    ext2Read fs node offset size buffer =
      readLoop fs inode offset (clipped inode offset size) ((clipped inode offset size).toNat + 1) 0#32
        buffer := by
  have hfast : ¬(node.flags &&& vfsSymlink ≠ 0#32 ∧ inode.size < 60#32) := by
    rintro ⟨hlink, hsize⟩
    have hsize : inode.size.toNat < 60 := BitVec.lt_def.mp hsize
    rcases hslow with hflag | hlong
    · exact hlink hflag
    · omega
  have hbefore : ¬inode.size ≤ offset := by rwa [BitVec.not_le]
  rw [ext2Read, hinode]
  exact (if_neg hbefore).trans (if_neg hfast)

/-- **`ext2_read`** counts what is asked for inside the file; where the end does not wrap, it copies what
is in the first twelve blocks. -/
theorem ext2Read_spec (hblock : 0 < fs.blockSize.toNat) (hinode : ext2ReadInode fs node.inode = some inode)
    (hoffset : offset < inode.size) (hslow : node.flags &&& vfsSymlink = 0#32 ∨ 60 ≤ inode.size.toNat)
    (size : Word) (buffer : ℕ → Byte) :
    ∃ buffer', ext2Read fs node offset size buffer = some (clipped inode offset size, buffer') ∧
      (offset.toNat + size.toNat < 2 ^ 32 → ∀ i < (clipped inode offset size).toNat,
        buffer' i = copied fs inode offset buffer i) := by
  have hstart : (0#32).toNat ≤ (clipped inode offset size).toNat := Nat.zero_le _
  obtain ⟨buffer', hloop, hbytes, -⟩ :=
    readLoop_spec hblock hstart (Nat.lt_succ_of_le (Nat.sub_le _ _))
  refine ⟨buffer', (ext2Read_loop hinode hoffset hslow buffer).trans hloop, fun hwrap i hi => ?_⟩
  refine hbytes ?_ i (Nat.zero_le i) hi
  rw [clipped_toNat hoffset hwrap]
  omega

/-- A byte of a direct block is that of the file, unless there is a hole where block 0 is not zero. -/
theorem copied_eq_iff (h : Image fs node.inode)
    (hblocks : ∀ i < 12, inode.block i = (inodeOf fs node.inode).block i) (buffer : ℕ → Byte) {i : ℕ}
    (hdirect : (offset.toNat + i) / fs.blockSize.toNat < 12) :
    copied fs inode offset buffer i = fileByte fs (inodeOf fs node.inode) (offset.toNat + i) ↔
      ((inodeOf fs node.inode).block ((offset.toNat + i) / fs.blockSize.toNat) = 0#32 →
        fs.dev ((offset.toNat + i) % fs.blockSize.toNat) = 0#8) := by
  have hpos := h.blockSize_pos
  have hdevice := h.blocks _ hdirect
  rw [copied, fileByte, fileBlock]
  dsimp only
  rw [if_pos hdirect, if_pos hdirect, hblocks _ hdirect,
    ext2ReadBlock_of_lt (by omega) (Nat.mod_lt _ hpos)]
  split
  · next hhole =>
    rw [hhole]
    simp
  · next hhole => exact iff_of_true rfl fun h0 => absurd h0 hhole

end Read

/-- **Reading**: for every image, every regular file and slow symlink in it, and every offset and size,
`ext2_read` returns bytes of the file whatever is in the buffer, if and only if the range is readable. -/
theorem ext2_read_iff {fs : Ext2Fs} {node : VfsNode} (himage : Image fs node.inode) (hfile : IsFile fs node)
    (offset size : Word) :
    (∀ buffer, ∃ r buffer', ext2Read fs node offset size buffer = some (r, buffer') ∧
      ReadsFile fs (inodeOf fs node.inode) offset r buffer') ↔
        Readable fs (inodeOf fs node.inode) offset size := by
  obtain ⟨inode, hinode, hsize, hblocks⟩ := ext2ReadInode_image himage
  -- a short link is read out of the inode itself, and is no file here
  have hslow : node.flags &&& vfsSymlink = 0#32 ∨ 60 ≤ inode.size.toNat := by
    rcases hfile with hflags | ⟨-, hlong⟩
    · exact .inl (by rw [hflags]; decide)
    · exact .inr (by rwa [hsize])
  by_cases hpast : inode.size ≤ offset
  · refine iff_of_true (fun buffer => ⟨0#32, buffer, ext2Read_past hinode hpast buffer, ?_⟩) (.inl ?_)
    · exact ⟨nofun, fun _ => rfl, fun _ => Nat.zero_le _⟩
    · rwa [← hsize]
  have hoffset : offset < inode.size := BitVec.not_le.mp hpast
  have hspec := ext2Read_spec himage.blockSize_pos hinode hoffset hslow size
  have hpast' : ¬(inodeOf fs node.inode).size ≤ offset := by rwa [← hsize]
  rw [Readable, or_iff_right hpast']
  constructor
  · intro hreads
    -- whatever is in the buffer, the number of bytes is the same
    have hresult (buffer : ℕ → Byte) : ∃ buffer',
        ReadsFile fs (inodeOf fs node.inode) offset (clipped inode offset size) buffer' ∧
          (offset.toNat + size.toNat < 2 ^ 32 → ∀ i < (clipped inode offset size).toNat,
            buffer' i = copied fs inode offset buffer i) := by
      obtain ⟨buffer', hread, hbytes⟩ := hspec buffer
      obtain ⟨r, buffer'', hread', hfile⟩ := hreads buffer
      cases hread.symm.trans hread'
      exact ⟨buffer', hfile, hbytes⟩
    -- the end that wraps lies before the offset, and the length comes out too large
    have hwrap : offset.toNat + size.toNat < 2 ^ 32 := by
      by_contra hwrap
      obtain ⟨buffer', hfile, -⟩ := hresult fun _ => 0#8
      have hwithin := hfile.within (by rwa [← hsize])
      rw [clipped_wrapped hoffset (by omega)] at hwithin
      have hlt := (inodeOf fs node.inode).size.isLt
      rw [BitVec.lt_def, hsize] at hoffset
      omega
    refine ⟨hwrap, fun p hlo hhi hend => ?_⟩
    obtain ⟨i, rfl⟩ : ∃ i, p = offset.toNat + i := ⟨p - offset.toNat, by omega⟩
    have hi : i < (clipped inode offset size).toNat := by
      rw [clipped_toNat hoffset hwrap, hsize]
      omega
    have hdirect : (offset.toNat + i) / fs.blockSize.toNat < 12 := by
      by_contra hfar
      -- nothing is stored over a wrong byte
      obtain ⟨buffer', hfile, hbytes⟩ :=
        hresult fun i => fileByte fs (inodeOf fs node.inode) (offset.toNat + i) + 1#8
      have hbyte := (hbytes hwrap i hi).symm.trans (hfile.bytes i hi)
      rw [copied, if_neg hfar] at hbyte
      simp at hbyte
    obtain ⟨buffer', hfile, hbytes⟩ := hresult fun _ => 0#8
    have hbyte := (hbytes hwrap i hi).symm.trans (hfile.bytes i hi)
    exact ⟨hdirect, (copied_eq_iff himage hblocks _ hdirect).mp hbyte⟩
  · rintro ⟨hwrap, hrange⟩ buffer
    obtain ⟨buffer', hread, hbytes⟩ := hspec buffer
    have hcount := clipped_toNat hoffset hwrap
    rw [hsize] at hcount
    refine ⟨_, buffer', hread, fun i hi => ?_, fun h => absurd h hpast', fun _ => by omega⟩
    obtain ⟨hdirect, hhole⟩ := hrange (offset.toNat + i) (by omega) (by omega) (by omega)
    rw [hbytes hwrap i hi]
    exact (copied_eq_iff himage hblocks buffer hdirect).mpr hhole

/-- A device with a file of 13 KB, inode 2. Its first block is block 9, its last block 11 by way of the
block numbers in block 10, and between them is a hole. -/
def sparseFs : Ext2Fs where
  dev i :=
    if i = 5253 then 0x34#8
    else if i = 5288 then 9#8
    else if i = 5336 then 10#8
    else if i = 10240 then 11#8
    else if 9216 ≤ i ∧ i < 10240 then 0x61#8
    else if 11264 ≤ i ∧ i < 12288 then 0x62#8
    else 0#8
  inodesPerGroup := 8#32
  inodeSize := 128#16
  blockSize := 1024#32
  bgInodeTable _ := 5#32
  behind _ := 0#8

def sparseNode : VfsNode := ⟨[0x66#8], vfsFile, 2#32, 13312#32, some .ext2Read, none⟩

theorem image_sparse : Image sparseFs sparseNode.inode where
  groups := by decide
  pos := by decide
  blockSize := ⟨0, rfl⟩
  inodeSize := by decide
  inode := by decide
  blocks := by decide +kernel

/-- Ten bytes, the last six of them in the hole. -/
theorem ext2_read_hole : ∃ r buffer',
    (ext2Read sparseFs sparseNode 1020#32 10#32 fun _ => 0xFF#8) = some (r, buffer') ∧
      ReadsFile sparseFs (inodeOf sparseFs sparseNode.inode) 1020#32 r buffer' := by
  have hrange : Readable sparseFs (inodeOf sparseFs sparseNode.inode) 1020#32 10#32 := by
    refine .inr ⟨by decide, fun p _ hhi _ => ⟨?_, fun _ => ?_⟩⟩
    · have hend : p < 1030 := hhi
      exact Nat.div_lt_of_lt_mul (hend.trans (by decide))
    · -- block 0 is zero
      have hlt : p % 1024 < 1024 := Nat.mod_lt p (by decide)
      show sparseFs.dev (p % 1024) = 0#8
      simp only [sparseFs]
      repeat rw [if_neg (by omega)]
  exact (ext2_read_iff image_sparse (.inl rfl) 1020#32 10#32).mpr hrange fun _ => 0xFF#8

/-- A byte of the last block is counted and not copied. -/
theorem ext2_read_uncopied : ¬∀ (fs : Ext2Fs) (node : VfsNode), Image fs node.inode → IsFile fs node →
    ∀ offset size buffer, ∃ r buffer', ext2Read fs node offset size buffer = some (r, buffer') ∧
      ReadsFile fs (inodeOf fs node.inode) offset r buffer' := by
  intro h
  obtain ⟨r, buffer', hread, hfile⟩ :=
    h sparseFs sparseNode image_sparse (.inl rfl) 12288#32 1#32 fun _ => 0#8
  have hresult : (ext2Read sparseFs sparseNode 12288#32 1#32 fun _ => 0#8).map
      (fun res => (res.1, res.2 0)) = some (1#32, 0#8) := by decide +kernel
  rw [hread, Option.map_some, Option.some_inj, Prod.mk.injEq] at hresult
  obtain ⟨rfl, hbyte⟩ := hresult
  have hbyte' := hfile.bytes 0 (by decide)
  dsimp only at hbyte
  rw [hbyte] at hbyte'
  exact absurd hbyte' (by decide +kernel)

end PekerOS.Ext2
