import PekerOS.Fs.Vfs.Node

/-!
# ext2: inodes and directories

How `ext2.c` reads an inode, looks a name up in a directory and lists one. A directory is up to 12
blocks of records, each with the length of the way to the next; a record whose inode is 0 is a deleted
one. A call with a bound on the rounds of its inner loop has no result if it does not return within
them, or if it faults at a division by zero.

## Main definitions

* `Ext2Fs`: an `ext2_fs_t`
* `ext2ReadInode`, `ext2InodeToVfs`, `ext2Finddir`, `ext2Readdir`: the functions
* `direntStore`: the static `struct vfs_dirent` of `ext2_readdir`
-/

namespace PekerOS.Ext2

/-- Fields in memory, the low byte first. -/
def le16 (mem : ℕ → Byte) (i : ℕ) : BitVec 16 := mem (i + 1) ++ mem i

def le32 (mem : ℕ → Byte) (i : ℕ) : Word := le16 mem (i + 2) ++ le16 mem i

/-- What is used of `struct ext2_inode`. -/
structure Inode where
  mode : BitVec 16
  size : Word
  block : ℕ → Word

/-- `ext2_fs_t`: the bytes of the device, what is used of the superblock, and the array `bgdt` with what
is behind it. The bytes behind a block buffer on the heap are `behind`. -/
structure Ext2Fs where
  dev : ℕ → Byte
  inodesPerGroup : Word
  inodeSize : BitVec 16
  blockSize : Word
  bgInodeTable : ℕ → Word
  behind : ℕ → Byte

/-- `ext2_read_block`; the offset on the device wraps. -/
def ext2ReadBlock (fs : Ext2Fs) (block : Word) (i : ℕ) : Byte :=
  if i < fs.blockSize.toNat then fs.dev ((block * fs.blockSize).toNat + i) else fs.behind i

/-- `ext2_read_inode`; `none` on a division by zero. `kmalloc` is taken to find room for the block. -/
def ext2ReadInode (fs : Ext2Fs) (ino : Word) : Option Inode :=
  if fs.inodesPerGroup = 0#32 ∨ fs.blockSize = 0#32 then none
  else
    let group := (ino - 1#32) / fs.inodesPerGroup
    let index := (ino - 1#32) % fs.inodesPerGroup
    let block := fs.bgInodeTable group.toNat + index * fs.inodeSize.setWidth 32 / fs.blockSize
    let offset := index * fs.inodeSize.setWidth 32 % fs.blockSize
    -- an inode at the end of its block is read on behind the buffer
    let inode := fun i => ext2ReadBlock fs block (offset.toNat + i)
    some ⟨le16 inode 0, le32 inode 4, fun i => le32 inode (40 + 4 * i)⟩

/-- `ext2_inode_to_vfs` -/
def ext2InodeToVfs (fs : Ext2Fs) (ino : Word) (name : List Byte) : Option VfsNode := do
  let inode ← ext2ReadInode fs ino
  return {
    name := name
    flags :=
      if inode.mode &&& 0xF000#16 = 0x4000#16 then vfsDirectory
      else if inode.mode &&& 0xF000#16 = 0xA000#16 then vfsSymlink
      else vfsFile
    inode := ino
    length := inode.size
    read := some .ext2Read
    write := none }

/-- `struct ext2_dir_entry`, with the `name_len` bytes of the name. -/
structure DirEntry where
  inode : Word
  recLen : BitVec 16
  name : List Byte
deriving DecidableEq

def dirEntry (buf : ℕ → Byte) (offset : ℕ) : DirEntry where
  inode := le32 buf offset
  recLen := le16 buf (offset + 4)
  name := (List.range (buf (offset + 6)).toNat).map fun i => buf (offset + 8 + i)

/-- The blocks that both functions go through: `i < 12 && einode.i_block[i]`. -/
def Inode.dirBlocks (inode : Inode) : List Word :=
  ((List.range 12).map inode.block).takeWhile fun block => block ≠ 0#32

/-- The inner loop of `ext2_finddir`. -/
def findInBlock (buf : ℕ → Byte) (size : Word) (name : CString) : ℕ → Word → Option (Option DirEntry)
  | 0, _ => none
  | rounds + 1, offset =>
    if offset < size then
      let entry := dirEntry buf offset.toNat
      -- a deleted record is compared like any other
      if strcmp (CString.ofBytes entry.name).chars name.chars = 0 then some (some entry)
      -- with a length of 0 the loop stays where it is
      else findInBlock buf size name rounds (offset + entry.recLen.setWidth 32)
    else some none

def findInBlocks (fs : Ext2Fs) (rounds : ℕ) (name : CString) : List Word → Option (Option DirEntry)
  | [] => some none
  | block :: blocks =>
    match findInBlock (ext2ReadBlock fs block) fs.blockSize name rounds 0#32 with
    | none => none
    | some (some entry) => some (some entry)
    | some none => findInBlocks fs rounds name blocks

/-- `ext2_finddir` -/
def ext2Finddir (fs : Ext2Fs) (rounds : ℕ) (dir : Word) (name : CString) : Option (Option VfsNode) := do
  let inode ← ext2ReadInode fs dir
  match ← findInBlocks fs rounds name inode.dirBlocks with
  | none => some none
  | some entry =>
    let node ← ext2InodeToVfs fs entry.inode (CString.ofBytes entry.name).chars
    return some node

/-- How a scan of `ext2_readdir` ends: at the entry with the index, or with `current_index` behind the
entries it has counted. -/
inductive Scan
  | found (entry : DirEntry)
  | counted (current : Word)

/-- The inner loop of `ext2_readdir`. -/
def readInBlock (buf : ℕ → Byte) (size index : Word) : ℕ → Word → Word → Option Scan
  | 0, _, _ => none
  | rounds + 1, offset, current =>
    if offset < size then
      let entry := dirEntry buf offset.toNat
      if entry.inode ≠ 0#32 ∧ current = index then some (.found entry)
      else
        let current := if entry.inode ≠ 0#32 then current + 1#32 else current
        -- here a length of 0 ends the scan of the block
        if entry.recLen = 0#16 then some (.counted current)
        else readInBlock buf size index rounds (offset + entry.recLen.setWidth 32) current
    else some (.counted current)

def readInBlocks (fs : Ext2Fs) (rounds : ℕ) (index : Word) : List Word → Word → Option Scan
  | [], current => some (.counted current)
  | block :: blocks, current =>
    match readInBlock (ext2ReadBlock fs block) fs.blockSize index rounds 0#32 current with
    | none => none
    | some (.found entry) => some (.found entry)
    | some (.counted current) => readInBlocks fs rounds index blocks current

/-- What `ext2_readdir` stores, in the memory from `dirent` on: the name and its terminator in
`name[128]` and behind it, and then `ino`. -/
def direntStore (mem : ℕ → Byte) (entry : DirEntry) (i : ℕ) : Byte :=
  if 128 ≤ i ∧ i < 132 then (entry.inode >>> (8 * (i - 128))).setWidth 8
  else if i ≤ entry.name.length then entry.name.getD i 0#8
  else mem i

/-- `ext2_readdir`; the result is the memory from `dirent` on. -/
def ext2Readdir (fs : Ext2Fs) (rounds : ℕ) (dir index : Word) (mem : ℕ → Byte) :
    Option (Option (ℕ → Byte)) := do
  let inode ← ext2ReadInode fs dir
  match ← readInBlocks fs rounds index inode.dirBlocks 0#32 with
  | .found entry => return some (direntStore mem entry)
  | .counted _ => return none

/-- The string in `dirent.name`, and `dirent.ino`. -/
structure DirentIs (mem : ℕ → Byte) (name : CString) (ino : Word) : Prop where
  name : ∀ i ≤ name.chars.length, mem i = name.chars.getD i 0#8
  ino : le32 mem 128 = ino

end PekerOS.Ext2
