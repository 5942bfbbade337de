import PekerOS.Fs.Ext2.Reading

/-!
# ext2: mounting

`ext2_init` compares the magic number and takes the other fields of the superblock as they are. Here is
for which fields the divisions and the shift are defined, the inodes lie in their blocks, and the offsets
on the device, which are 32-bit words, do not wrap.

## Main definitions

* `Superblock`, `ext2Init`: the fields that are used, and the function
* `AddressesExact`: what the arithmetic for an inode has to do
* `FieldsFit`: the fields for which it does

## Main results

* `ext2_addresses_iff`: the superblocks and inodes for which the arithmetic is exact
-/

namespace PekerOS.Ext2

/-- What is used of `struct ext2_superblock`. -/
structure Superblock where
  inodesCount : Word
  blocksCount : Word
  logBlockSize : Word
  blocksPerGroup : Word
  inodesPerGroup : Word
  magic : BitVec 16
  inodeSize : BitVec 16
deriving DecidableEq

def superblockAt (mem : ℕ → Byte) : Superblock where
  inodesCount := le32 mem 0
  blocksCount := le32 mem 4
  logBlockSize := le32 mem 24
  blocksPerGroup := le32 mem 32
  inodesPerGroup := le32 mem 40
  magic := le16 mem 56
  inodeSize := le16 mem 88

/-- `EXT2_SUPER_MAGIC` -/
abbrev ext2SuperMagic : BitVec 16 := 0xEF53#16

/-- An `ext2_fs_t` with the fields that `ext2_init` leaves in it. -/
structure Ext2Mount extends Ext2Fs where
  sb : Superblock
  groupsCount : Word

/-- How `ext2_init` ends: with a null pointer, at a shift by the width of the word or more, at a division
by zero, or with the file system. -/
inductive InitResult
  | rejected
  | overShift
  | divideError
  | mounted (m : Ext2Mount)

section Init

/-! The bytes behind a block buffer and behind `bgdt` on the heap are `behind` and `bgdtBehind`. -/

variable (dev behind bgdtBehind : ℕ → Byte)

/-- The superblock of the device. -/
def sbOf : Superblock := superblockAt fun i => dev (1024 + i)

/-- What `ext2_init` makes of the device, after the shift and the division. -/
def mountOf : Ext2Mount :=
  let sb := sbOf dev
  let blockSize := 1024#32 <<< sb.logBlockSize.toNat
  let groupsCount := (sb.blocksCount + sb.blocksPerGroup - 1#32) / sb.blocksPerGroup
  -- the descriptors are in the block behind the superblock's
  let bgdtOffset := if blockSize = 1024#32 then 2048#32 else blockSize
  let bgdt := fun i =>
    if i < (groupsCount * 32#32).toNat then dev (bgdtOffset.toNat + i) else bgdtBehind i
  { dev := dev
    inodesPerGroup := sb.inodesPerGroup
    inodeSize := sb.inodeSize
    blockSize := blockSize
    bgInodeTable := fun group => le32 bgdt (32 * group + 8)
    behind := behind
    sb := sb
    groupsCount := groupsCount }

/-- `ext2_init`. `kmalloc` is taken to succeed; blocks of 4 MB and more would not fit the heap. -/
def ext2Init : InitResult :=
  let sb := sbOf dev
  if sb.magic ≠ ext2SuperMagic then .rejected
  else if 32 ≤ sb.logBlockSize.toNat then .overShift
  else if sb.blocksPerGroup = 0#32 then .divideError
  else
    let m := mountOf dev behind bgdtBehind
    -- the node of the root
    match ext2InodeToVfs m.toExt2Fs 2#32 [47#8] with
    | none => .divideError
    | some _ => .mounted m

end Init

/-- `block` and `offset` of `ext2_read_inode`. -/
def inodeBlock (fs : Ext2Fs) (ino : Word) : Word :=
  fs.bgInodeTable ((ino - 1#32) / fs.inodesPerGroup).toNat +
    (ino - 1#32) % fs.inodesPerGroup * fs.inodeSize.setWidth 32 / fs.blockSize

def inodeOffset (fs : Ext2Fs) (ino : Word) : Word :=
  (ino - 1#32) % fs.inodesPerGroup * fs.inodeSize.setWidth 32 % fs.blockSize

theorem ext2ReadInode_eq (fs : Ext2Fs) (ino : Word) : ext2ReadInode fs ino =
    if fs.inodesPerGroup = 0#32 ∨ fs.blockSize = 0#32 then none
    else
      let inode := fun i => ext2ReadBlock fs (inodeBlock fs ino) ((inodeOffset fs ino).toNat + i)
      some ⟨le16 inode 0, le32 inode 4, fun i => le32 inode (40 + 4 * i)⟩ := rfl

/-- The arithmetic for an inode: no division by zero, a group that there is, an inode inside its block,
offsets of blocks that do not wrap; and where the inode lies in a block of the file system, it is read
from its place on the device. -/
structure AddressesExact (m : Ext2Mount) (ino : Word) : Prop where
  divides : ext2ReadInode m.toExt2Fs ino ≠ none
  group : (ino - 1#32) / m.inodesPerGroup < m.groupsCount
  inside : (inodeOffset m.toExt2Fs ino).toNat + 128 ≤ m.blockSize.toNat
  product : ∀ block < m.sb.blocksCount, (block * m.blockSize).toNat = block.toNat * m.blockSize.toNat
  inode : inodeAddr m.toExt2Fs ino / m.blockSize.toNat < m.sb.blocksCount.toNat → ∀ i < 128,
    ext2ReadBlock m.toExt2Fs (inodeBlock m.toExt2Fs ino) ((inodeOffset m.toExt2Fs ino).toNat + i) =
      m.dev (inodeAddr m.toExt2Fs ino + i)

/-- The fields: the block size is a 32-bit word, there are blocks and inodes in a group, the group of the
inode is one of those that are counted, the inode ends inside its block, and the last block of the file
system starts below 2^32. -/
structure FieldsFit (sb : Superblock) (ino : Word) : Prop where
  shift : sb.logBlockSize.toNat ≤ 21
  blocksPerGroup : sb.blocksPerGroup ≠ 0#32
  inodesPerGroup : sb.inodesPerGroup ≠ 0#32
  group : (ino.toNat - 1) / sb.inodesPerGroup.toNat <
    (sb.blocksCount.toNat + sb.blocksPerGroup.toNat - 1) % 2 ^ 32 / sb.blocksPerGroup.toNat
  inode : (ino.toNat - 1) % sb.inodesPerGroup.toNat * sb.inodeSize.toNat %
    (1024 * 2 ^ sb.logBlockSize.toNat) + 128 ≤ 1024 * 2 ^ sb.logBlockSize.toNat
  device : (sb.blocksCount.toNat - 1) * (1024 * 2 ^ sb.logBlockSize.toNat) < 2 ^ 32

section Fields

variable {s : ℕ}

theorem shift_toNat (h : s ≤ 21) : (1024#32 <<< s).toNat = 1024 * 2 ^ s := by
  have hpow := Nat.pow_le_pow_right (show 0 < 2 by decide) h
  rw [BitVec.toNat_shiftLeft, Nat.shiftLeft_eq]
  exact Nat.mod_eq_of_lt (by show 1024 * 2 ^ s < 2 ^ 32; omega)

/-- The bits that are shifted out. -/
theorem shift_eq_zero (h : 22 ≤ s) : 1024#32 <<< s = 0#32 := by
  obtain ⟨k, rfl⟩ := Nat.exists_eq_add_of_le h
  apply BitVec.eq_of_toNat_eq
  rw [BitVec.toNat_shiftLeft, Nat.shiftLeft_eq, Nat.pow_add]
  show 1024 * (2 ^ 22 * 2 ^ k) % 2 ^ 32 = 0
  rw [← Nat.mul_assoc]
  exact Nat.mul_mod_right (2 ^ 32) (2 ^ k)

end Fields

section Mounting

variable {dev behind bgdtBehind : ℕ → Byte} {m : Ext2Mount} {ino : Word}

/-- The block size is that of the superblock. -/
theorem blockSize_mountOf (behind bgdtBehind : ℕ → Byte) (h : (sbOf dev).logBlockSize.toNat ≤ 21) :
    (mountOf dev behind bgdtBehind).blockSize.toNat = 1024 * 2 ^ (sbOf dev).logBlockSize.toNat :=
  shift_toNat h

/-- The superblocks that `ext2_init` mounts. -/
theorem ext2Init_eq_mounted : ext2Init dev behind bgdtBehind = .mounted m ↔
    (sbOf dev).magic = ext2SuperMagic ∧ (sbOf dev).logBlockSize.toNat ≤ 21 ∧
      (sbOf dev).blocksPerGroup ≠ 0#32 ∧ (sbOf dev).inodesPerGroup ≠ 0#32 ∧
        mountOf dev behind bgdtBehind = m := by
  rw [ext2Init]
  dsimp only
  -- in the order in which `ext2_init` reads and divides
  by_cases hmagic : (sbOf dev).magic = ext2SuperMagic
  swap
  · rw [if_pos hmagic]
    exact iff_of_false nofun fun h => hmagic h.1
  rw [if_neg (not_not_intro hmagic), and_iff_right hmagic]
  by_cases hshift : 32 ≤ (sbOf dev).logBlockSize.toNat
  · rw [if_pos hshift]
    exact iff_of_false nofun fun h => absurd h.1 (by omega)
  rw [if_neg hshift]
  by_cases hblocks : (sbOf dev).blocksPerGroup = 0#32
  · rw [if_pos hblocks]
    exact iff_of_false nofun fun h => h.2.1 hblocks
  rw [if_neg hblocks, ext2InodeToVfs, ext2ReadInode_eq]
  by_cases hzero : (mountOf dev behind bgdtBehind).inodesPerGroup = 0#32 ∨
      (mountOf dev behind bgdtBehind).blockSize = 0#32
  · rw [if_pos hzero]
    refine iff_of_false nofun ?_
    rintro ⟨hlog, -, hinodes, -⟩
    rcases hzero with h | h
    · exact hinodes h
    · have hsize := blockSize_mountOf behind bgdtBehind hlog
      have := Nat.two_pow_pos (sbOf dev).logBlockSize.toNat
      rw [h, BitVec.toNat_zero] at hsize
      omega
  · rw [if_neg hzero]
    obtain ⟨hinodes, hsize⟩ := not_or.mp hzero
    -- a larger shift makes the block size 0
    have hlog : (sbOf dev).logBlockSize.toNat ≤ 21 := by
      by_contra hlog
      exact hsize (shift_eq_zero (by omega))
    constructor
    · intro h
      exact ⟨hlog, hblocks, hinodes, InitResult.mounted.inj h⟩
    · rintro ⟨-, -, -, rfl⟩
      rfl

/-- The last block of the file system starts below 2^32 if all of them do. -/
theorem product_iff {count size : Word} :
    (∀ block < count, (block * size).toNat = block.toNat * size.toNat) ↔
      (count.toNat - 1) * size.toNat < 2 ^ 32 := by
  constructor
  · intro h
    by_cases hzero : count = 0#32
    · rw [hzero, BitVec.toNat_zero, Nat.zero_sub, Nat.zero_mul]
      decide
    · have hpos : 1 ≤ count.toNat := Nat.pos_of_ne_zero fun h => hzero (BitVec.eq_of_toNat_eq h)
      have hpred : (count - 1#32).toNat = count.toNat - 1 :=
        BitVec.toNat_sub_of_le (BitVec.le_def.mpr hpos)
      have hlast := h (count - 1#32) (BitVec.lt_def.mpr (by omega))
      rw [hpred] at hlast
      rw [← hlast]
      exact BitVec.isLt _
  · intro h block hlt
    have hle : block.toNat ≤ count.toNat - 1 := by
      have := BitVec.lt_def.mp hlt
      omega
    rw [BitVec.toNat_mul]
    exact Nat.mod_eq_of_lt ((Nat.mul_le_mul_right _ hle).trans_lt h)

theorem size_dvd {k : ℕ} (h : k ≤ 21) : 1024 * 2 ^ k ∣ 2 ^ 32 := by
  have hpow : 1024 * 2 ^ k = 2 ^ (10 + k) := (Nat.pow_add 2 10 k).symm
  rw [hpow]
  exact Nat.pow_dvd_pow 2 (by omega)

theorem index_toNat (hino : 0 < ino.toNat) : (ino - 1#32).toNat = ino.toNat - 1 :=
  BitVec.toNat_sub_of_le (BitVec.le_def.mpr hino)

/-- The place of an inode in its block. -/
theorem inodeOffset_toNat {fs : Ext2Fs} {k : ℕ} (hk : k ≤ 21) (hsize : fs.blockSize.toNat = 1024 * 2 ^ k)
    (hino : 0 < ino.toNat) : (inodeOffset fs ino).toNat =
      (ino.toNat - 1) % fs.inodesPerGroup.toNat * fs.inodeSize.toNat % (1024 * 2 ^ k) := by
  have hinode := fs.inodeSize.isLt
  rw [inodeOffset, BitVec.toNat_umod, BitVec.toNat_mul, BitVec.toNat_umod, index_toNat hino, hsize,
    BitVec.toNat_setWidth, Nat.mod_eq_of_lt (hinode.trans (by decide) : fs.inodeSize.toNat < 2 ^ 32),
    Nat.mod_mod_of_dvd _ (size_dvd hk)]

/-- An inode in a block of the file system is below 2^32, as all blocks are. -/
theorem inodeAddr_le {fs : Ext2Fs} {k : ℕ} (hk : k ≤ 21) (hsize : fs.blockSize.toNat = 1024 * 2 ^ k)
    {count : ℕ} (hdevice : (count - 1) * (1024 * 2 ^ k) < 2 ^ 32)
    (hinside : (ino.toNat - 1) % fs.inodesPerGroup.toNat * fs.inodeSize.toNat % (1024 * 2 ^ k) + 128 ≤
      1024 * 2 ^ k) (hblock : inodeAddr fs ino / fs.blockSize.toNat < count) :
    inodeAddr fs ino + 128 ≤ 2 ^ 32 := by
  have hmod : inodeAddr fs ino % (1024 * 2 ^ k) =
      (ino.toNat - 1) % fs.inodesPerGroup.toNat * fs.inodeSize.toNat % (1024 * 2 ^ k) := by
    rw [inodeAddr, hsize]
    exact Nat.mul_add_mod' _ _ _
  rw [hsize] at hblock
  obtain ⟨q, hq⟩ := size_dvd hk
  generalize 1024 * 2 ^ k = b at hmod hinside hblock hdevice hq
  have hsplit := Nat.div_add_mod (inodeAddr fs ino) b
  -- the blocks before the end of the last one are the multiples of `b` before 2^32
  have hcount : count ≤ q := by
    rw [hq, Nat.mul_comm b] at hdevice
    have := Nat.lt_of_mul_lt_mul_right hdevice
    omega
  have hnext : (inodeAddr fs ino / b + 1) * b ≤ q * b := Nat.mul_le_mul_right b (by omega)
  rw [Nat.add_mul, Nat.one_mul, Nat.mul_comm _ b, Nat.mul_comm q] at hnext
  omega

/-- The number of groups; the sum wraps. -/
theorem groups_toNat {b p : Word} (hp : p ≠ 0#32) :
    ((b + p - 1#32) / p).toNat = (b.toNat + p.toNat - 1) % 2 ^ 32 / p.toNat := by
  have hpos : 1 ≤ p.toNat := Nat.pos_of_ne_zero fun h => hp (BitVec.eq_of_toNat_eq h)
  have hb := b.isLt
  have hp' := p.isLt
  have hone : (1#32).toNat = 1 := rfl
  rw [BitVec.toNat_udiv, BitVec.toNat_sub, BitVec.toNat_add, hone]
  congr 1
  omega

theorem group_iff (hino : 0 < ino.toNat) (hblocks : (sbOf dev).blocksPerGroup ≠ 0#32) :
    (ino - 1#32) / (mountOf dev behind bgdtBehind).inodesPerGroup <
        (mountOf dev behind bgdtBehind).groupsCount ↔
      (ino.toNat - 1) / (sbOf dev).inodesPerGroup.toNat <
        ((sbOf dev).blocksCount.toNat + (sbOf dev).blocksPerGroup.toNat - 1) % 2 ^ 32 /
          (sbOf dev).blocksPerGroup.toNat := by
  rw [BitVec.lt_def, BitVec.toNat_udiv, index_toNat hino, ← groups_toNat hblocks]
  exact Iff.rfl

end Mounting

/-- **Addresses.** For every device whose superblock has the magic number and every inode from 1 on, the
arithmetic of `ext2_init` and `ext2_read_inode` is defined and exact if and only if the fields fit. -/
theorem ext2_addresses_iff {dev behind bgdtBehind : ℕ → Byte} {ino : Word}
    (hmagic : (sbOf dev).magic = ext2SuperMagic) (hino : 0 < ino.toNat) :
    (∃ m, ext2Init dev behind bgdtBehind = .mounted m ∧ AddressesExact m ino) ↔
      FieldsFit (sbOf dev) ino := by
  constructor
  · rintro ⟨m, hinit, hexact⟩
    obtain ⟨-, hlog, hblocks, hinodes, rfl⟩ := ext2Init_eq_mounted.mp hinit
    have hsize := blockSize_mountOf behind bgdtBehind hlog
    refine ⟨hlog, hblocks, hinodes, (group_iff hino hblocks).mp hexact.group, ?_, ?_⟩
    · have hinside := hexact.inside
      rwa [inodeOffset_toNat hlog hsize hino, hsize] at hinside
    · have hproduct := product_iff.mp hexact.product
      rwa [hsize] at hproduct
  · rintro ⟨hlog, hblocks, hinodes, hgroup, hinside, hdevice⟩
    have hsize := blockSize_mountOf behind bgdtBehind hlog
    refine ⟨_, ext2Init_eq_mounted.mpr ⟨hmagic, hlog, hblocks, hinodes, rfl⟩, ?_,
      (group_iff hino hblocks).mpr hgroup, ?_, ?_, ?_⟩
    · -- the inode is read without a division by zero
      have hzero : (mountOf dev behind bgdtBehind).blockSize ≠ 0#32 := by
        intro h
        rw [h, BitVec.toNat_zero] at hsize
        omega
      have hinodes' : (mountOf dev behind bgdtBehind).inodesPerGroup ≠ 0#32 := hinodes
      rw [ext2ReadInode_eq, if_neg (not_or.mpr ⟨hinodes', hzero⟩)]
      exact nofun
    · rwa [inodeOffset_toNat hlog hsize hino, hsize]
    · exact product_iff.mpr (by rwa [hsize])
    · intro hblock i hi
      have haddr := inodeAddr_le hlog hsize hdevice hinside hblock
      exact inode_byte (by rw [hsize]; omega) hino haddr (by rwa [hsize]) hi

/-- A volume of `b` times 65536 blocks of 4 KB, in groups of 32768 blocks and 8192 inodes. -/
def volume (b : Byte) (i : ℕ) : Byte :=
  if i = 1026 then b >>> 2
  else if i = 1030 then b
  else if i = 1048 then 2#8
  else if i = 1057 then 0x80#8
  else if i = 1065 then 0x20#8
  else if i = 1080 then 0x53#8
  else if i = 1081 then 0xEF#8
  else if i = 1112 then 0x80#8
  else 0#8

/-- The root inode of a volume of 1 GB. -/
theorem ext2_addresses_small : ∃ m, ext2Init (volume 4#8) (fun _ => 0#8) (fun _ => 0#8) = .mounted m ∧
    AddressesExact m 2#32 :=
  (ext2_addresses_iff (by decide +kernel) (by decide)).mpr
    ⟨by decide +kernel, by decide +kernel, by decide +kernel, by decide +kernel, by decide +kernel,
      by decide +kernel⟩

/-- A volume of 8 GB, whose offsets wrap from the block in the middle on. -/
theorem large_volume_wraps : ¬∀ dev behind bgdtBehind, (sbOf dev).magic = ext2SuperMagic →
    ∀ ino, 1 ≤ ino.toNat → ino.toNat ≤ (sbOf dev).inodesCount.toNat →
      ∃ m, ext2Init dev behind bgdtBehind = .mounted m ∧ AddressesExact m ino := by
  intro h
  obtain ⟨m, hinit, hexact⟩ := h (volume 0x20#8) (fun _ => 0#8) (fun _ => 0#8) (by decide +kernel) 2#32
    (by decide) (by decide +kernel)
  obtain ⟨-, -, -, -, rfl⟩ := ext2Init_eq_mounted.mp hinit
  have hproduct := hexact.product 0x100000#32 (by decide +kernel)
  exact absurd hproduct (by decide +kernel)

end PekerOS.Ext2
