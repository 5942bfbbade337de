import PekerOS.Lib.Bitmap
import PekerOS.Core.CString

/-!
# PAFS: the disk layout

A PAFS disk is a superblock sector, sixteen sectors of inodes, one sector of block bitmap and the data
blocks. The kernel keeps the first three in memory and writes back the sectors it changes. A
directory block holds sixteen entries of 32 bytes: an inode number, zero in an empty entry, and a name
field of 28 bytes.

## Main definitions

* `Superblock`, `Inode`: the structures of `pafs.h`
* `Superblock.toSector`, `inodeSector`: their bytes on disk
* `Superblock.ofSector`, `loadInodes`: the same bytes read back
* `entryInode`, `entryName`, `writeEntry`, `copyEntry`, `clearEntry`: directory entries in a block

## Main results

* `Superblock.ofSector_toSector`, `loadInodes_of_sectors`: metadata read back from its sectors is
  the metadata
* `entryInode_writeEntry`, `entryName_writeEntry`: an entry after it is written
* `EntryFrom.inode`, `EntryFrom.name`: an entry copied from elsewhere
-/

namespace PekerOS.Pafs

/-- `PAFS_MAGIC` -/
abbrev pafsMagic : Word := 0xAF5#32
/-- `PAFS_BLOCK_SIZE` -/
abbrev pafsBlockSize : ℕ := 512
/-- `PAFS_MAX_INODES` -/
abbrev pafsMaxInodes : ℕ := 128
/-- `PAFS_TOTAL_BLOCKS` -/
abbrev pafsTotalBlocks : ℕ := 4096

/-- `PAFS_TYPE_FREE` -/
abbrev pafsTypeFree : Word := 0#32
/-- `PAFS_TYPE_FILE` -/
abbrev pafsTypeFile : Word := 1#32
/-- `PAFS_TYPE_DIR` -/
abbrev pafsTypeDir : Word := 2#32

abbrev lbaSuperblock : ℕ := 0
abbrev lbaInodesStart : ℕ := 1
abbrev lbaInodesCount : ℕ := 16
abbrev lbaBitmap : ℕ := 17
abbrev lbaDataStart : ℕ := 18

/-- One 512-byte sector. -/
abbrev Sector : Type := Table 512 Byte

/-- `struct pafs_superblock`, in its buffer of one sector. -/
structure Superblock where
  magic : Word
  totalBlocks : Word
  totalInodes : Word
  freeBlocks : Word
  freeInodes : Word
  rootInode : Word
  /-- The rest of the 512-byte buffer, which no field uses. -/
  slack : Table 488 Byte
deriving DecidableEq, Inhabited

/-- `struct pafs_inode` -/
structure Inode where
  type : Word
  size : Word
  blocks : Table 14 Word
deriving DecidableEq, Inhabited

@[simp] theorem default_type : (default : Inode).type = 0#32 := rfl
@[simp] theorem default_size : (default : Inode).size = 0#32 := rfl
@[simp] theorem default_blocks : (default : Inode).blocks = default := rfl

/-! ## Metadata sectors -/

/-- The words of the superblock in order. -/
def Superblock.field (sb : Superblock) : ℕ → Word
  | 0 => sb.magic
  | 1 => sb.totalBlocks
  | 2 => sb.totalInodes
  | 3 => sb.freeBlocks
  | 4 => sb.freeInodes
  | _ => sb.rootInode

/-- The superblock's buffer as bytes. -/
def Superblock.toSector (sb : Superblock) : Sector :=
  Table.ofFn fun i => if i < 24 then wordByte (sb.field (i / 4)) (i % 4) else sb.slack.get (i - 24)

/-- The superblock in a sector. -/
def Superblock.ofSector (s : Sector) : Superblock where
  magic := s.getWord 0
  totalBlocks := s.getWord 4
  totalInodes := s.getWord 8
  freeBlocks := s.getWord 12
  freeInodes := s.getWord 16
  rootInode := s.getWord 20
  slack := Table.ofFn fun i => s.get (24 + i)

theorem Superblock.getWord_toSector (sb : Superblock) {k : ℕ} (hk : k < 6) :
    sb.toSector.getWord (4 * k) = sb.field k := by
  rw [toSector, Table.getWord_ofFn (by omega), ← wordOfBytes_wordByte (sb.field k)]
  refine wordOfBytes_congr fun i hi => ?_
  rw [if_pos (by omega), show (4 * k + i) / 4 = k by omega,
    show (4 * k + i) % 4 = i by omega]

theorem Superblock.ofSector_toSector (sb : Superblock) : ofSector sb.toSector = sb := by
  have hslack : (Table.ofFn fun i => sb.toSector.get (24 + i) : Table 488 Byte) = sb.slack := by
    refine Table.ext_get fun i hi => ?_
    rw [Table.get_ofFn _ hi, toSector, Table.get_ofFn _ (by omega), if_neg (by omega),
      Nat.add_sub_cancel_left]
  have h0 := sb.getWord_toSector (k := 0) (by decide)
  have h1 := sb.getWord_toSector (k := 1) (by decide)
  have h2 := sb.getWord_toSector (k := 2) (by decide)
  have h3 := sb.getWord_toSector (k := 3) (by decide)
  have h4 := sb.getWord_toSector (k := 4) (by decide)
  have h5 := sb.getWord_toSector (k := 5) (by decide)
  simp only [Nat.reduceMul, field] at h0 h1 h2 h3 h4 h5
  simp only [ofSector, h0, h1, h2, h3, h4, h5, hslack]

/-- The words of an inode in order. -/
def Inode.field (ino : Inode) : ℕ → Word
  | 0 => ino.type
  | 1 => ino.size
  | k + 2 => ino.blocks.get k

/-- Sector `k` of the inode table: eight inodes of 64 bytes. -/
def inodeSector (inodes : Table 128 Inode) (k : ℕ) : Sector :=
  Table.ofFn fun i => wordByte ((inodes.get (8 * k + i / 64)).field (i % 64 / 4)) (i % 4)

/-- A sector depends on its own eight inodes. -/
theorem inodeSector_set_ne (inodes : Table 128 Inode) {i k : ℕ} (h : i / 8 ≠ k) (ino : Inode) :
    inodeSector (inodes.set i ino) k = inodeSector inodes k := by
  refine Table.ext_get fun j hj => ?_
  rw [inodeSector, inodeSector, Table.get_ofFn _ hj, Table.get_ofFn _ hj,
    Table.get_set_ne _ (by omega)]

/-- Inode `j` of a sector of the inode table. -/
def inodeAt (s : Sector) (j : ℕ) : Inode where
  type := s.getWord (64 * j)
  size := s.getWord (64 * j + 4)
  blocks := Table.ofFn fun b => s.getWord (64 * j + 8 + 4 * b)

/-- The inode table read from its sixteen sectors. -/
def loadInodes (disk : ℕ → Sector) : Table 128 Inode :=
  Table.ofFn fun i => inodeAt (disk (lbaInodesStart + i / 8)) (i % 8)

theorem getWord_inodeSector (inodes : Table 128 Inode) (k : ℕ) {j f : ℕ} (hj : j < 8)
    (hf : f < 16) :
    (inodeSector inodes k).getWord (64 * j + 4 * f) = (inodes.get (8 * k + j)).field f := by
  rw [inodeSector, Table.getWord_ofFn (by omega),
    ← wordOfBytes_wordByte ((inodes.get (8 * k + j)).field f)]
  refine wordOfBytes_congr fun i hi => ?_
  rw [show (64 * j + 4 * f + i) / 64 = j by omega,
    show (64 * j + 4 * f + i) % 64 / 4 = f by omega, show (64 * j + 4 * f + i) % 4 = i by omega]

theorem inodeAt_inodeSector (inodes : Table 128 Inode) (k : ℕ) {j : ℕ} (hj : j < 8) :
    inodeAt (inodeSector inodes k) j = inodes.get (8 * k + j) := by
  have htype := getWord_inodeSector inodes k hj (f := 0) (by decide)
  have hsize := getWord_inodeSector inodes k hj (f := 1) (by decide)
  have hblocks : (Table.ofFn fun b => (inodeSector inodes k).getWord (64 * j + 8 + 4 * b) :
      Table 14 Word) = (inodes.get (8 * k + j)).blocks := by
    refine Table.ext_get fun b hb => ?_
    rw [Table.get_ofFn _ hb, show 64 * j + 8 + 4 * b = 64 * j + 4 * (b + 2) by omega,
      getWord_inodeSector inodes k hj (by omega), Inode.field]
  simp only [Nat.mul_zero, Nat.add_zero, Nat.mul_one, Inode.field] at htype hsize
  simp only [inodeAt, htype, hsize, hblocks]

/-- The inode table read back from the sectors it was written to. -/
theorem loadInodes_of_sectors {disk : ℕ → Sector} {inodes : Table 128 Inode}
    (h : ∀ k < 16, disk (lbaInodesStart + k) = inodeSector inodes k) : loadInodes disk = inodes := by
  refine Table.ext_get fun i hi => ?_
  rw [loadInodes, Table.get_ofFn _ hi, h _ (by omega),
    inodeAt_inodeSector _ _ (Nat.mod_lt _ (by decide)), Nat.div_add_mod]

/-! ## Directory entries -/

/-- `entries[j].inode` -/
def entryInode (block : Sector) (j : ℕ) : Word := block.getWord (32 * j)

/-- The string at `entries[j].name`. -/
def entryName (block : Sector) (j : ℕ) : List Byte := cstrAt block (32 * j + 4)

/-- `entries[j].inode = ino`, then the characters of the name up to 27 and a zero. -/
def writeEntry (block : Sector) (j : ℕ) (ino : Word) (name : CString) : Sector :=
  let chars := name.chars.take 27
  (block.setWord (32 * j) ino).patch (32 * j + 4) (chars.length + 1) fun k => chars.getD k 0#8

/-- `entries[j] = from[i]` -/
def copyEntry (block : Sector) (j : ℕ) (src : Sector) (i : ℕ) : Sector :=
  block.patch (32 * j) 32 fun k => src.get (32 * i + k)

/-- `memset(&entries[j], 0, sizeof(struct pafs_dir_entry))` -/
def clearEntry (block : Sector) (j : ℕ) : Sector := block.patch (32 * j) 32 fun _ => 0#8

/-- Entry `j` of block `b'` holds the bytes of entry `i` of block `b`. -/
def EntryFrom (b : Sector) (i : ℕ) (b' : Sector) (j : ℕ) : Prop :=
  ∀ k < 32, b'.get (32 * j + k) = b.get (32 * i + k)

theorem EntryFrom.refl (b : Sector) (i : ℕ) : EntryFrom b i b i := fun _ _ => rfl

theorem EntryFrom.inode {b b' : Sector} {i j : ℕ} (h : EntryFrom b i b' j) :
    entryInode b' j = entryInode b i := by
  unfold entryInode Table.getWord
  exact wordOfBytes_congr fun k hk => h k (by omega)

theorem EntryFrom.name {b b' : Sector} {i j : ℕ} (hi : i < 16) (hj : j < 16)
    (h : EntryFrom b i b' j) (hlen : (entryName b i).length ≤ 27) :
    entryName b' j = entryName b i := by
  have hbyte : ∀ k < 28, b'.get (32 * j + 4 + k) = b.get (32 * i + 4 + k) := fun k hk => by
    rw [Nat.add_assoc, Nat.add_assoc]
    exact h (4 + k) (by omega)
  unfold entryName at hlen ⊢
  refine cstrAt_eq_of_bytes (cstrAt_noNul _ _) (by omega) (fun k hk => ?_) ?_
  · rw [hbyte k (by omega), get_cstrAt b hk]
  · rw [hbyte _ (by omega), get_cstrAt_length b (by omega)]

theorem length_take_name_le (name : CString) : (name.chars.take 27).length ≤ 27 := by
  simp

theorem writeEntry_of_ne (block : Sector) {i j : ℕ} (hij : i ≠ j) (ino : Word) (name : CString) :
    EntryFrom block i (writeEntry block j ino name) i := by
  intro k hk
  have := length_take_name_le name
  rw [writeEntry, Table.get_patch_of_not_mem _ _ (by omega), Table.setWord,
    Table.get_patch_of_not_mem _ _ (by omega)]

theorem entryInode_writeEntry (block : Sector) {j : ℕ} (hj : j < 16) (ino : Word) (name : CString) :
    entryInode (writeEntry block j ino name) j = ino := by
  rw [entryInode, writeEntry, Table.getWord_patch_of_disjoint _ _ (Or.inl le_rfl),
    Table.getWord_setWord _ (by omega)]

/-- A written entry is found under the first 27 characters of its name. -/
theorem entryName_writeEntry (block : Sector) {j : ℕ} (hj : j < 16) (ino : Word) (name : CString) :
    entryName (writeEntry block j ino name) j = name.chars.take 27 := by
  have hlen := length_take_name_le name
  refine cstrAt_eq_of_bytes (fun c hc => name.noNul c (List.mem_of_mem_take hc)) (by omega)
    (fun k hk => ?_) ?_
  · rw [writeEntry, Table.get_patch_of_mem _ _ (by omega) (by omega)]
    exact List.getD_eq_getElem _ _ hk
  · rw [writeEntry, Table.get_patch_of_mem _ _ (by omega) (by omega)]
    exact List.getD_eq_default _ _ le_rfl

theorem copyEntry_of_ne (block src : Sector) {i j l : ℕ} (h : l ≠ j) :
    EntryFrom block l (copyEntry block j src i) l := by
  intro k hk
  rw [copyEntry, Table.get_patch_of_not_mem _ _ (by omega)]

theorem copyEntry_self (block src : Sector) {i j : ℕ} (hj : j < 16) :
    EntryFrom src i (copyEntry block j src i) j := by
  intro k hk
  rw [copyEntry, Table.get_patch_of_mem _ _ (by omega) hk]

theorem clearEntry_of_ne (block : Sector) {i j : ℕ} (h : i ≠ j) :
    EntryFrom block i (clearEntry block j) i := by
  intro k hk
  rw [clearEntry, Table.get_patch_of_not_mem _ _ (by omega)]

theorem entryInode_clearEntry (block : Sector) {j : ℕ} (hj : j < 16) :
    entryInode (clearEntry block j) j = 0#32 := by
  unfold entryInode Table.getWord
  rw [wordOfBytes_congr (g := fun _ => 0#8) fun k hk => by
    rw [clearEntry, Table.get_patch_of_mem _ _ (by omega) (by omega)]]
  rfl

theorem entryInode_default (j : ℕ) : entryInode default j = 0#32 := by
  unfold entryInode Table.getWord
  rw [wordOfBytes_congr (g := fun _ => 0#8) fun k _ => Table.get_default _]
  rfl

end PekerOS.Pafs
