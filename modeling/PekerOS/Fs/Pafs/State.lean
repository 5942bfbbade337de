import PekerOS.Fs.Pafs.Layout

/-!
# PAFS: the state and the functions on it

The state is the metadata in memory and the sectors of the disk, which is assumed to store exactly
the sectors written to it, be it an ATA drive or the RAM disk. This module has the functions of
`pafs.c` that run inside the lock: block allocation, the metadata writes, and lookup, insertion and
removal of directory entries.

## Main definitions

* `State`: `sb`, `inodes`, `block_bitmap` and the disk
* `allocBlock`, `findFreeInode`: first-fit allocation
* `pafsSaveSuperblock`, `pafsSaveInode`, `pafsSaveBitmap`, `saveMetadata`: metadata writes
* `pafsFindEntry`, `pafsAddEntry`, `pafsRemoveEntry`: directory entries
* `ensureBlock`, `writeLoop`, `vfsWriteLoop`, `readLoop`, `vfsReadLoop`: the block loops
* `formatState`, `pafsInitRead`: `pafs_format`, and what `pafs_init` reads from a PAFS drive

## Main results

* `State.SameData`: two states that differ at most in the metadata sectors of the disk and in the
  inode counter, as before and after any of the saving functions
* `findFreeBlock_some`, `findFreeInode_some`: what the first-fit searches return
-/

namespace PekerOS.Pafs

/-- The in-memory metadata and the disk. -/
structure State where
  sb : Superblock
  inodes : Table 128 Inode
  blockBitmap : Table 512 Byte
  disk : ℕ → Sector

namespace State

/-- `inodes[i]` -/
def inode (fs : State) (i : ℕ) : Inode := fs.inodes.get i

/-- `inodes[i].blocks[s]` -/
def block (fs : State) (i s : ℕ) : Word := (fs.inode i).blocks.get s

def setInode (fs : State) (i : ℕ) (ino : Inode) : State :=
  { fs with inodes := fs.inodes.set i ino }

def setBlock (fs : State) (i s : ℕ) (b : Word) : State :=
  fs.setInode i { fs.inode i with blocks := (fs.inode i).blocks.set s b }

def setSize (fs : State) (i : ℕ) (size : Word) : State :=
  fs.setInode i { fs.inode i with size := size }

end State

/-- `pafs_disk_write` -/
def pafsDiskWrite (fs : State) (lba : ℕ) (buffer : Sector) : State :=
  { fs with disk := Function.update fs.disk lba buffer }

/-- `pafs_disk_read` -/
def pafsDiskRead (fs : State) (lba : ℕ) : Sector := fs.disk lba

/-! ## Metadata writes -/

def pafsSaveSuperblock (fs : State) : State := pafsDiskWrite fs lbaSuperblock fs.sb.toSector

def pafsSaveInode (fs : State) (ino : ℕ) : State :=
  pafsDiskWrite fs (lbaInodesStart + ino / 8) (inodeSector fs.inodes (ino / 8))

def pafsSaveBitmap (fs : State) : State := pafsDiskWrite fs lbaBitmap fs.blockBitmap

def saveMetadata (fs : State) : State :=
  pafsSaveBitmap <| (List.range lbaInodesCount).foldl
    (fun fs i => pafsDiskWrite fs (lbaInodesStart + i) (inodeSector fs.inodes i))
    (pafsSaveSuperblock fs)

/-! ## Allocation -/

def pafsBitmapTest (fs : State) (bit : ℕ) : Bool := Bitmap.test fs.blockBitmap bit

def pafsBitmapSet (fs : State) (bit : ℕ) : State :=
  { fs with blockBitmap := Bitmap.set fs.blockBitmap bit }

def pafsBitmapClear (fs : State) (bit : ℕ) : State :=
  { fs with blockBitmap := Bitmap.clear fs.blockBitmap bit }

/-- `find_free_inode`: the first free inode, `none` for `-1`. -/
def findFreeInode (fs : State) : Option ℕ :=
  (List.range pafsMaxInodes).find? fun i => (fs.inode i).type = pafsTypeFree

/-- The first clear bit from `LBA_DATA_START` on. -/
def findFreeBlock (fs : State) : Option ℕ :=
  (List.range' lbaDataStart (pafsTotalBlocks - lbaDataStart)).find? fun i => !pafsBitmapTest fs i

/-- The state in which `alloc_block` returns block `b`: marked, counted, both sectors saved. -/
def takeBlock (fs : State) (b : ℕ) : State :=
  let fs := pafsBitmapSet fs b
  let fs := { fs with sb := { fs.sb with freeBlocks := fs.sb.freeBlocks - 1#32 } }
  -- the bitmap is written first
  pafsSaveSuperblock (pafsSaveBitmap fs)

/-- `alloc_block`: `none` for `-1`. -/
def allocBlock (fs : State) : Option (State × ℕ) :=
  (findFreeBlock fs).map fun b => (takeBlock fs b, b)

/-! ## Directory entries -/

/-- `entries[j].inode != 0 && strcmp(entries[j].name, name) == 0` -/
def entryMatches (block : Sector) (name : CString) (j : ℕ) : Bool :=
  entryInode block j ≠ 0#32 && strcmp (entryName block j) name.chars = 0

/-- The scan shared by lookup and removal: block and index of the first matching entry, the blocks
taken in order up to the first zero block number. -/
def findSlot (fs : State) (dir : Inode) (name : CString) : Option (ℕ × ℕ) :=
  ((List.range 14).takeWhile fun i => dir.blocks.get i ≠ 0#32).findSome? fun i =>
    ((List.range 16).find? (entryMatches (pafsDiskRead fs (dir.blocks.get i).toNat) name)).map
      fun j => (i, j)

/-- `pafs_find_entry`; the inode number is converted from `unsigned int` to `int`. -/
def pafsFindEntry (fs : State) (dirIno : ℕ) (name : CString) : ℤ :=
  let dir := fs.inode dirIno
  if dir.type ≠ pafsTypeDir ∨ dir.size = 0#32 then -1
  else
    match findSlot fs dir name with
    | some (i, j) => (entryInode (pafsDiskRead fs (dir.blocks.get i).toNat) j).toInt
    | none => -1

/-- The body of `pafs_add_entry`'s loop over the blocks from `i` on, `n` of them left. A zero block
number is replaced by a new zeroed block before the block is searched. -/
def addEntryLoop (dirIno : ℕ) (name : CString) (fileIno : ℕ) : ℕ → State → ℕ → State × ℤ
  | 0, fs, _ => (fs, -1)
  | n + 1, fs, i =>
    match
      -- a directory grows here, and keeps the block
      if fs.block dirIno i = 0#32 then
        (allocBlock fs).map fun (fs, b) =>
          pafsDiskWrite (fs.setBlock dirIno i (BitVec.ofNat 32 b)) b default
      else some fs
    with
    | none => (fs, -1)
    | some fs =>
      let lba := (fs.block dirIno i).toNat
      let blockData := pafsDiskRead fs lba
      match (List.range 16).find? fun j => entryInode blockData j = 0#32 with
      | some j =>
        let fs := pafsDiskWrite fs lba (writeEntry blockData j (BitVec.ofNat 32 fileIno) name)
        let fs := fs.setSize dirIno ((fs.inode dirIno).size + 32#32)
        (pafsSaveInode fs dirIno, 0)
      | none => addEntryLoop dirIno name fileIno n fs (i + 1)

/-- `pafs_add_entry` -/
def pafsAddEntry (fs : State) (dirIno : ℕ) (name : CString) (fileIno : ℕ) : State × ℤ :=
  if (fs.inode dirIno).type ≠ pafsTypeDir then (fs, -1)
  else addEntryLoop dirIno name fileIno 14 fs 0

/-- `pafs_is_dir_empty` -/
def pafsIsDirEmpty (fs : State) (ino : ℕ) : Bool :=
  (fs.inode ino).type = pafsTypeDir && (fs.inode ino).size = 0#32

/-- `last_entry_total_idx` of `pafs_remove_entry`: the number of the last slot, from the size. -/
def lastEntryTotalIdx (dir : Inode) : ℤ := (dir.size / 32#32 - 1#32).toInt

/-- `pafs_remove_entry`: the last entry, its position computed from the size, is copied over the
target. Both blocks are read before either is written. -/
def pafsRemoveEntry (fs : State) (dirIno : ℕ) (name : CString) : State × ℤ :=
  let dir := fs.inode dirIno
  match findSlot fs dir name with
  | none => (fs, -1)
  | some (targetBlock, targetIdx) =>
    let targetLba := (dir.blocks.get targetBlock).toNat
    let targetData := pafsDiskRead fs targetLba
    let lastBlockIdx := (lastEntryTotalIdx dir).tdiv 16
    let lastEntryInBlock := (lastEntryTotalIdx dir).tmod 16
    let lastLba := (dir.blocks.get lastBlockIdx.toNat).toNat
    let lastBlockData := pafsDiskRead fs lastLba
    let fs :=
      if (targetBlock : ℤ) ≠ lastBlockIdx ∨ (targetIdx : ℤ) ≠ lastEntryInBlock then
        pafsDiskWrite fs targetLba
          (copyEntry targetData targetIdx lastBlockData lastEntryInBlock.toNat)
      else fs
    -- in the target's block this takes the copy back: it was read before
    let fs := pafsDiskWrite fs lastLba (clearEntry lastBlockData lastEntryInBlock.toNat)
    let fs := fs.setSize dirIno ((fs.inode dirIno).size - 32#32)
    (pafsSaveInode fs dirIno, 0)

/-- The body of the loop of `pafs_delete` over the block slots of a file. -/
def freeBlock (ino : ℕ) (fs : State) (i : ℕ) : State :=
  if fs.block ino i ≠ 0#32 then
    let fs := pafsBitmapClear fs (fs.block ino i).toNat
    let fs := { fs with sb := { fs.sb with freeBlocks := fs.sb.freeBlocks + 1#32 } }
    -- nothing is saved before the entry is gone
    fs.setBlock ino i 0#32
  else fs

/-- The loop of `pafs_delete` over the block slots of a file. -/
def freeBlocks (fs : State) (ino : ℕ) : State := (List.range 14).foldl (freeBlock ino) fs

/-- Steps 1 and 2 of `pafs_delete`: the blocks and the inode are given back. -/
def releaseInode (fs : State) (ino : ℕ) : State :=
  let fs := freeBlocks fs ino
  let fs := fs.setInode ino { fs.inode ino with type := pafsTypeFree, size := 0#32 }
  { fs with sb := { fs.sb with freeInodes := fs.sb.freeInodes + 1#32 } }

/-- The new inode of `pafs_create`, before its entry is added. -/
def newInode (fs : State) (ino : ℕ) (isDir : Bool) : State :=
  let fs := fs.setInode ino
    ⟨if isDir then pafsTypeDir else pafsTypeFile, 0#32, Table.ofFn fun _ => 0#32⟩
  { fs with sb := { fs.sb with freeInodes := fs.sb.freeInodes - 1#32 } }

/-! ## File blocks -/

/-- `if (file->blocks[i] == 0) { b = alloc_block(); if (b == -1) break; file->blocks[i] = b; }`,
with `none` for the `break`. -/
def ensureBlock (fs : State) (ino i : ℕ) : Option State :=
  if fs.block ino i = 0#32 then
    (allocBlock fs).map fun (fs, b) => fs.setBlock ino i (BitVec.ofNat 32 b)
  else some fs

/-- The loop of `pafs_write` from block `i` on, `n` block slots left, `done` bytes written of
`len`. -/
def writeLoop (ino : ℕ) (data : ℕ → Byte) (len : ℕ) : ℕ → State → ℕ → ℕ → State × ℕ
  | 0, fs, _, done => (fs, done)
  | n + 1, fs, i, done =>
    if done < len then
      match ensureBlock fs ino i with
      | none => (fs, done)
      | some fs =>
        let toWrite := min (len - done) 512
        let tempBuf := (default : Sector).patch 0 toWrite fun k => data (done + k)
        writeLoop ino data len n (pafsDiskWrite fs (fs.block ino i).toNat tempBuf) (i + 1)
          (done + toWrite)
    else (fs, done)

/-- The loop of `pafs_vfs_write` from block `i` and offset `off` inside it on, `n` block slots left,
`done` bytes written of `size`. -/
def vfsWriteLoop (ino : ℕ) (buffer : ℕ → Byte) (size : ℕ) : ℕ → State → ℕ → ℕ → ℕ → State × ℕ
  | 0, fs, _, _, done => (fs, done)
  | n + 1, fs, i, off, done =>
    if done < size then
      match ensureBlock fs ino i with
      | none => (fs, done)
      | some fs =>
        let lba := (fs.block ino i).toNat
        -- a partial write keeps the rest of the block
        let tempBuf := if 0 < off ∨ size - done < 512 then pafsDiskRead fs lba else default
        let toWrite := min (512 - off) (size - done)
        let tempBuf := tempBuf.patch off toWrite fun k => buffer (done + k)
        vfsWriteLoop ino buffer size n (pafsDiskWrite fs lba tempBuf) (i + 1) 0 (done + toWrite)
    else (fs, done)

/-- The bytes `[off, off + len)` of a block. -/
def blockBytes (block : Sector) (off len : ℕ) : List Byte :=
  (List.range len).map fun k => block.get (off + k)

/-- The loop of `pafs_read`: the bytes copied to the buffer from block `i` on. -/
def readLoop (fs : State) (file : Inode) : ℕ → ℕ → ℕ → List Byte
  | 0, _, _ => []
  | n + 1, i, left =>
    if 0 < left ∧ file.blocks.get i ≠ 0#32 then
      let toCopy := min left 512
      blockBytes (pafsDiskRead fs (file.blocks.get i).toNat) 0 toCopy ++
        readLoop fs file n (i + 1) (left - toCopy)
    else []

/-- The loop of `pafs_vfs_read`: the bytes copied to the buffer from block `i` and offset `off`
inside it on. A zero block number is read as block 0. -/
def vfsReadLoop (fs : State) (file : Inode) : ℕ → ℕ → ℕ → ℕ → List Byte
  | 0, _, _, _ => []
  | n + 1, i, off, left =>
    if 0 < left then
      let toCopy := min (512 - off) left
      blockBytes (pafsDiskRead fs (file.blocks.get i).toNat) off toCopy ++
        vfsReadLoop fs file n (i + 1) 0 (left - toCopy)
    else []

/-! ## Formatting and loading -/

/-- The first part of `pafs_format`: counters, inodes and bitmap of an empty disk. -/
def blankState (fs : State) : State :=
  { fs with
    sb := { fs.sb with
      magic := pafsMagic
      totalBlocks := BitVec.ofNat 32 pafsTotalBlocks
      totalInodes := BitVec.ofNat 32 pafsMaxInodes
      freeBlocks := BitVec.ofNat 32 (pafsTotalBlocks - lbaDataStart)
      freeInodes := BitVec.ofNat 32 pafsMaxInodes }
    inodes := Table.ofFn fun _ => ⟨pafsTypeFree, 0#32, Table.ofFn fun _ => 0#32⟩
    blockBitmap := (List.range lbaDataStart).foldl Bitmap.set default }

/-- `pafs_format` -/
def formatState (fs : State) : State :=
  let fs := blankState fs
  let rootIdx := (findFreeInode fs).getD 0
  let fs := fs.setInode rootIdx ⟨pafsTypeDir, 0#32, Table.ofFn fun _ => 0#32⟩
  -- `-1` becomes a block number like any other
  let (fs, b) := (allocBlock fs).getD (fs, 0xFFFFFFFF)
  let fs := fs.setBlock rootIdx 0 (BitVec.ofNat 32 b)
  let fs := pafsDiskWrite fs b default
  let fs := { fs with sb := { fs.sb with
    rootInode := BitVec.ofNat 32 rootIdx
    freeInodes := fs.sb.freeInodes - 1#32 } }
  saveMetadata fs

/-- What `pafs_init` reads from a drive that holds a PAFS superblock. -/
def pafsInitRead (disk : ℕ → Sector) : State where
  sb := Superblock.ofSector (disk lbaSuperblock)
  inodes := loadInodes disk
  blockBitmap := disk lbaBitmap
  disk := disk

/-! ## Reading a state after a change -/

/-- The loop of `save_metadata` over the inode sectors. -/
theorem foldl_saveInodes (fs : State) (m : ℕ) :
    (List.range m).foldl
      (fun fs i => pafsDiskWrite fs (lbaInodesStart + i) (inodeSector fs.inodes i)) fs =
    { fs with disk := fun lba =>
        if 1 ≤ lba ∧ lba < 1 + m then inodeSector fs.inodes (lba - 1) else fs.disk lba } := by
  induction m with
  | zero =>
    have hnone : ∀ lba, ¬(1 ≤ lba ∧ lba < 1 + 0) := fun lba => by omega
    simp only [hnone, if_false]
    rfl
  | succ m ih =>
    rw [List.range_succ, List.foldl_append, ih, List.foldl_cons, List.foldl_nil, pafsDiskWrite]
    congr 1
    funext lba
    unfold lbaInodesStart
    by_cases h : lba = 1 + m
    · subst h
      rw [Function.update_self, if_pos (by omega), Nat.add_sub_cancel_left]
    · rw [Function.update_of_ne h]
      dsimp only
      by_cases hlt : 1 ≤ lba ∧ lba < 1 + m
      · rw [if_pos hlt, if_pos (by omega)]
      · rw [if_neg hlt, if_neg (by omega)]

/-- `save_metadata` writes the 18 metadata sectors and nothing else. -/
theorem saveMetadata_eq (fs : State) : saveMetadata fs =
    { fs with disk := fun lba =>
        if lba = 0 then fs.sb.toSector
        else if lba < 17 then inodeSector fs.inodes (lba - 1)
        else if lba = 17 then fs.blockBitmap
        else fs.disk lba } := by
  rw [saveMetadata, foldl_saveInodes, pafsSaveBitmap, pafsSaveSuperblock, pafsDiskWrite, pafsDiskWrite]
  congr 1
  funext lba
  simp only [Function.update_apply, lbaBitmap, lbaSuperblock, lbaInodesCount]
  split_ifs <;> first | rfl | omega

namespace State

variable (fs : State) {i j s : ℕ}

theorem inode_setInode_self (h : i < 128) (ino : Inode) : (fs.setInode i ino).inode i = ino :=
  Table.get_set_self _ h _

theorem inode_setInode_ne (h : j ≠ i) (ino : Inode) : (fs.setInode i ino).inode j = fs.inode j :=
  Table.get_set_ne _ h _

theorem inode_of_le (h : 128 ≤ i) : fs.inode i = default := Table.get_of_le _ h

theorem block_of_le (h : 14 ≤ s) : fs.block i s = 0#32 := Table.get_of_le _ h

theorem block_eq_zero_of_le (h : 128 ≤ i) : fs.block i s = 0#32 := by
  rw [block, fs.inode_of_le h]
  exact Table.get_default _

theorem inode_setBlock_self (h : i < 128) (b : Word) : (fs.setBlock i s b).inode i =
    { fs.inode i with blocks := (fs.inode i).blocks.set s b } :=
  fs.inode_setInode_self h _

theorem inode_setBlock_ne (h : j ≠ i) (b : Word) : (fs.setBlock i s b).inode j = fs.inode j :=
  fs.inode_setInode_ne h _

theorem inode_setSize_self (h : i < 128) (size : Word) :
    (fs.setSize i size).inode i = { fs.inode i with size := size } :=
  fs.inode_setInode_self h _

theorem inode_setSize_ne (h : j ≠ i) (size : Word) : (fs.setSize i size).inode j = fs.inode j :=
  fs.inode_setInode_ne h _

theorem block_setBlock_self (h : i < 128) (hs : s < 14) (b : Word) :
    (fs.setBlock i s b).block i s = b := by
  rw [block, inode_setBlock_self fs h, Table.get_set_self _ hs]

theorem block_setBlock_ne (h : i < 128) {s' : ℕ} (hne : (j, s') ≠ (i, s)) (b : Word) :
    (fs.setBlock i s b).block j s' = fs.block j s' := by
  by_cases hj : j = i
  · subst hj
    have hs : s' ≠ s := fun hs => hne (by rw [hs])
    rw [block, inode_setBlock_self fs h, Table.get_set_ne _ hs, block]
  · rw [block, inode_setBlock_ne fs hj, block]

theorem block_setSize (h : i < 128) (size : Word) : (fs.setSize i size).block j s = fs.block j s := by
  by_cases hj : j = i
  · subst hj
    rw [block, inode_setSize_self fs h, block]
  · rw [block, inode_setSize_ne fs hj, block]

theorem type_setBlock (h : i < 128) (b : Word) :
    ((fs.setBlock i s b).inode j).type = (fs.inode j).type := by
  by_cases hj : j = i
  · subst hj
    rw [inode_setBlock_self fs h]
  · rw [inode_setBlock_ne fs hj]

theorem type_setSize (h : i < 128) (size : Word) :
    ((fs.setSize i size).inode j).type = (fs.inode j).type := by
  by_cases hj : j = i
  · subst hj
    rw [inode_setSize_self fs h]
  · rw [inode_setSize_ne fs hj]

/-- Two states that differ at most in the metadata sectors of the disk, in the inode counter and in
superblock fields the file system does not use. -/
structure SameData (fs fs' : State) : Prop where
  freeBlocks : fs'.sb.freeBlocks = fs.sb.freeBlocks
  rootInode : fs'.sb.rootInode = fs.sb.rootInode
  inodes : fs'.inodes = fs.inodes
  blockBitmap : fs'.blockBitmap = fs.blockBitmap
  data : ∀ lba, 18 ≤ lba → fs'.disk lba = fs.disk lba

namespace SameData

variable {fs}

theorem refl (fs : State) : SameData fs fs := ⟨rfl, rfl, rfl, rfl, fun _ _ => rfl⟩

theorem trans {fs₁ fs₂ fs₃ : State} (h : SameData fs₁ fs₂) (h' : SameData fs₂ fs₃) :
    SameData fs₁ fs₃ where
  freeBlocks := h'.freeBlocks.trans h.freeBlocks
  rootInode := h'.rootInode.trans h.rootInode
  inodes := h'.inodes.trans h.inodes
  blockBitmap := h'.blockBitmap.trans h.blockBitmap
  data lba hlba := (h'.data lba hlba).trans (h.data lba hlba)

theorem inode {fs fs' : State} (h : SameData fs fs') (i : ℕ) : fs'.inode i = fs.inode i := by
  rw [State.inode, h.inodes, State.inode]

theorem block {fs fs' : State} (h : SameData fs fs') (i s : ℕ) : fs'.block i s = fs.block i s := by
  rw [State.block, h.inode, State.block]

theorem diskWrite {lba : ℕ} (h : lba < 18) (buf : Sector) : SameData fs (pafsDiskWrite fs lba buf) where
  freeBlocks := rfl
  rootInode := rfl
  inodes := rfl
  blockBitmap := rfl
  data l hl := Function.update_of_ne (by omega) _ _

theorem saveSuperblock : SameData fs (pafsSaveSuperblock fs) := diskWrite (by decide) _

theorem saveBitmap : SameData fs (pafsSaveBitmap fs) := diskWrite (by decide) _

theorem saveInode {ino : ℕ} (h : ino < 128) : SameData fs (pafsSaveInode fs ino) :=
  diskWrite (by unfold lbaInodesStart; omega) _

theorem saveMetadata : SameData fs (saveMetadata fs) := by
  rw [saveMetadata_eq]
  refine ⟨rfl, rfl, rfl, rfl, fun lba hlba => ?_⟩
  dsimp only
  rw [if_neg (by omega), if_neg (by omega), if_neg (by omega)]

end SameData

end State

theorem disk_pafsDiskWrite_self (fs : State) (lba : ℕ) (buf : Sector) :
    (pafsDiskWrite fs lba buf).disk lba = buf :=
  Function.update_self _ _ _

theorem disk_pafsDiskWrite_ne (fs : State) {lba lba' : ℕ} (h : lba' ≠ lba) (buf : Sector) :
    (pafsDiskWrite fs lba buf).disk lba' = fs.disk lba' :=
  Function.update_of_ne h _ _

@[simp] theorem inode_pafsDiskWrite (fs : State) (lba : ℕ) (buf : Sector) (i : ℕ) :
    (pafsDiskWrite fs lba buf).inode i = fs.inode i := rfl

@[simp] theorem block_pafsDiskWrite (fs : State) (lba : ℕ) (buf : Sector) (i s : ℕ) :
    (pafsDiskWrite fs lba buf).block i s = fs.block i s := rfl

@[simp] theorem inode_takeBlock (fs : State) (b i : ℕ) : (takeBlock fs b).inode i = fs.inode i := rfl

@[simp] theorem block_takeBlock (fs : State) (b i s : ℕ) : (takeBlock fs b).block i s = fs.block i s :=
  rfl

@[simp] theorem blockBitmap_takeBlock (fs : State) (b : ℕ) :
    (takeBlock fs b).blockBitmap = Bitmap.set fs.blockBitmap b := rfl

@[simp] theorem freeBlocks_takeBlock (fs : State) (b : ℕ) :
    (takeBlock fs b).sb.freeBlocks = fs.sb.freeBlocks - 1#32 := rfl

@[simp] theorem rootInode_takeBlock (fs : State) (b : ℕ) :
    (takeBlock fs b).sb.rootInode = fs.sb.rootInode := rfl

@[simp] theorem freeInodes_takeBlock (fs : State) (b : ℕ) :
    (takeBlock fs b).sb.freeInodes = fs.sb.freeInodes := rfl

theorem disk_takeBlock (fs : State) (b : ℕ) {lba : ℕ} (h : 18 ≤ lba) :
    (takeBlock fs b).disk lba = fs.disk lba := by
  simp only [takeBlock, pafsSaveSuperblock, pafsSaveBitmap, lbaSuperblock, lbaBitmap]
  rw [disk_pafsDiskWrite_ne _ (by omega), disk_pafsDiskWrite_ne _ (by omega)]
  rfl

theorem findFreeBlock_some {fs : State} {b : ℕ} :
    findFreeBlock fs = some b ↔ b ∈ Bitmap.clearBits fs.blockBitmap 18 4096 ∧
      ∀ c, 18 ≤ c → c < b → pafsBitmapTest fs c = true := by
  rw [findFreeBlock, List.find?_range'_eq_some]
  simp only [Bitmap.mem_clearBits, List.mem_range'_1, Bool.not_eq_true', pafsBitmapTest,
    Bool.not_not, lbaDataStart, pafsTotalBlocks]
  tauto

theorem findFreeBlock_none {fs : State} :
    findFreeBlock fs = none ↔ Bitmap.clearCount fs.blockBitmap 18 4096 = 0 := by
  rw [findFreeBlock, List.find?_range'_eq_none, Bitmap.clearCount_eq_zero]
  simp [pafsBitmapTest, lbaDataStart, pafsTotalBlocks]

theorem findFreeInode_some {fs : State} {i : ℕ} :
    findFreeInode fs = some i ↔ (i < 128 ∧ (fs.inode i).type = 0#32) ∧
      ∀ j < i, (fs.inode j).type ≠ 0#32 := by
  rw [findFreeInode, List.find?_range_eq_some]
  simp only [decide_eq_true_eq, List.mem_range, Bool.not_eq_true', decide_eq_false_iff_not]
  tauto

theorem findFreeInode_none {fs : State} :
    findFreeInode fs = none ↔ ∀ i < 128, (fs.inode i).type ≠ 0#32 := by
  rw [findFreeInode, List.find?_range_eq_none]
  simp

end PekerOS.Pafs
