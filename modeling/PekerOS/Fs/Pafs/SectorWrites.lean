import PekerOS.Lib.WriteLog
import PekerOS.Fs.Pafs.Steps

/-!
# PAFS: the sector writes of a call

Every call of `pafs_disk_write` is one sector, and each is on the disk before the next one starts: the
driver waits, and flushes the drive's cache. Here are the writes of each function of `pafs.c`, in the order
that it makes them.

## Main definitions

* `takeBlockWrites`, `addEntryWrites`, `removeEntryWrites`: the writes of the functions inside the lock
* `createWrites`, `deleteWrites`, `writeWrites`, `vfsWriteWrites`, `formatWrites`: those of the operations
* `opWrites`: those of a call

## Main results

* `replay_opWrites`: **the writes of a call are what it does to the disk**
-/

namespace PekerOS.Pafs

open WriteLog

/-- A sector and what is written to it. -/
abbrev Write : Type := ℕ × Sector

/-! ## The functions inside the lock -/

/-- `pafs_save_superblock` -/
def superblockWrite (fs : State) : Write := (lbaSuperblock, fs.sb.toSector)

/-- `pafs_save_inode` -/
def inodeWrite (fs : State) (ino : ℕ) : Write :=
  (lbaInodesStart + ino / 8, inodeSector fs.inodes (ino / 8))

/-- `pafs_save_bitmap` -/
def bitmapWrite (fs : State) : Write := (lbaBitmap, fs.blockBitmap)

/-- `save_metadata` -/
def metadataWrites (fs : State) : List Write :=
  superblockWrite fs ::
    ((List.range lbaInodesCount).map fun i => (lbaInodesStart + i, inodeSector fs.inodes i)) ++
    [bitmapWrite fs]

/-- `alloc_block`, when it returns block `b`: memory has changed before the first of the two. -/
def takeBlockWrites (fs : State) (b : ℕ) : List Write :=
  [bitmapWrite (takeBlock fs b), superblockWrite (takeBlock fs b)]

/-- `alloc_block` -/
def allocBlockWrites (fs : State) : List Write :=
  match findFreeBlock fs with
  | none => []
  | some b => takeBlockWrites fs b

/-- A new block of a directory, taken and zeroed. -/
def growWrites (fs : State) (b : ℕ) : List Write := takeBlockWrites fs b ++ [(b, default)]

/-- Block `i` of the directory, which is there, is searched for an empty slot: the two writes if there is
one, and those of the rest of the loop if not. -/
def slotWrites (dirIno : ℕ) (name : CString) (fileIno : ℕ) (fs : State) (i : ℕ)
    (rest : List Write) : List Write :=
  let lba := (fs.block dirIno i).toNat
  let blockData := pafsDiskRead fs lba
  match (List.range 16).find? fun j => entryInode blockData j = 0#32 with
  | some j =>
    [(lba, writeEntry blockData j (BitVec.ofNat 32 fileIno) name),
      inodeWrite (fs.setSize dirIno ((fs.inode dirIno).size + 32#32)) dirIno]
  | none => rest

/-- The loop of `pafs_add_entry` from block `i` on, `n` of them left. -/
def addEntryLoopWrites (dirIno : ℕ) (name : CString) (fileIno : ℕ) : ℕ → State → ℕ → List Write
  | 0, _, _ => []
  | n + 1, fs, i =>
    if fs.block dirIno i = 0#32 then
      match findFreeBlock fs with
      | none => []
      | some b =>
        let fs' := growDir fs dirIno i b
        growWrites fs b ++ slotWrites dirIno name fileIno fs' i
          (addEntryLoopWrites dirIno name fileIno n fs' (i + 1))
    else slotWrites dirIno name fileIno fs i
      (addEntryLoopWrites dirIno name fileIno n fs (i + 1))

/-- `pafs_add_entry` -/
def addEntryWrites (fs : State) (dirIno : ℕ) (name : CString) (fileIno : ℕ) : List Write :=
  if (fs.inode dirIno).type ≠ pafsTypeDir then []
  else addEntryLoopWrites dirIno name fileIno 14 fs 0

/-- `pafs_remove_entry` -/
def removeEntryWrites (fs : State) (dirIno : ℕ) (name : CString) : List Write :=
  let dir := fs.inode dirIno
  match findSlot fs dir name with
  | none => []
  | some (targetBlock, targetIdx) =>
    let targetLba := (dir.blocks.get targetBlock).toNat
    let targetData := pafsDiskRead fs targetLba
    let lastBlockIdx := (lastEntryTotalIdx dir).tdiv 16
    let lastEntryInBlock := (lastEntryTotalIdx dir).tmod 16
    let lastLba := (dir.blocks.get lastBlockIdx.toNat).toNat
    let lastBlockData := pafsDiskRead fs lastLba
    let swap : List Write :=
      if (targetBlock : ℤ) ≠ lastBlockIdx ∨ (targetIdx : ℤ) ≠ lastEntryInBlock then
        [(targetLba, copyEntry targetData targetIdx lastBlockData lastEntryInBlock.toNat)]
      else []
    swap ++ [(lastLba, clearEntry lastBlockData lastEntryInBlock.toNat),
      inodeWrite (fs.setSize dirIno ((fs.inode dirIno).size - 32#32)) dirIno]

/-- `alloc_block` for an empty slot of a file. -/
def ensureBlockWrites (fs : State) (ino i : ℕ) : List Write :=
  if fs.block ino i = 0#32 then allocBlockWrites fs else []

/-- The loop of `pafs_write`. -/
def writeLoopWrites (ino : ℕ) (data : ℕ → Byte) (len : ℕ) : ℕ → State → ℕ → ℕ → List Write
  | 0, _, _, _ => []
  | n + 1, fs, i, done =>
    if done < len then
      match ensureBlock fs ino i with
      | none => []
      | some fs' =>
        let toWrite := min (len - done) 512
        let tempBuf := (default : Sector).patch 0 toWrite fun k => data (done + k)
        let lba := (fs'.block ino i).toNat
        ensureBlockWrites fs ino i ++ (lba, tempBuf) ::
          writeLoopWrites ino data len n (pafsDiskWrite fs' lba tempBuf) (i + 1) (done + toWrite)
    else []

/-- The loop of `pafs_vfs_write`. -/
def vfsWriteLoopWrites (ino : ℕ) (buffer : ℕ → Byte) (size : ℕ) :
    ℕ → State → ℕ → ℕ → ℕ → List Write
  | 0, _, _, _, _ => []
  | n + 1, fs, i, off, done =>
    if done < size then
      match ensureBlock fs ino i with
      | none => []
      | some fs' =>
        let lba := (fs'.block ino i).toNat
        let tempBuf := if 0 < off ∨ size - done < 512 then pafsDiskRead fs' lba else default
        let toWrite := min (512 - off) (size - done)
        let tempBuf := tempBuf.patch off toWrite fun k => buffer (done + k)
        ensureBlockWrites fs ino i ++ (lba, tempBuf) ::
          vfsWriteLoopWrites ino buffer size n (pafsDiskWrite fs' lba tempBuf) (i + 1) 0
            (done + toWrite)
    else []

/-! ## The operations -/

/-- `pafs_create` -/
def createWrites (fs : State) (parentIno : ℕ) (name : CString) (isDir : Bool) : List Write :=
  if fs.sb.freeInodes = 0#32 then []
  else if pafsFindEntry fs parentIno name ≠ -1 then []
  else
    match findFreeInode fs with
    | none => []
    | some newIno =>
      let new := newInode fs newIno isDir
      let (fs', res) := pafsAddEntry new parentIno name newIno
      addEntryWrites new parentIno name newIno ++ if res = 0 then [inodeWrite fs' newIno] else []

/-- `pafs_delete` -/
def deleteWrites (fs : State) (parentIno : ℕ) (name : CString) : List Write :=
  let ino := pafsFindEntry fs parentIno name
  if ino = -1 then []
  else
    let ino := ino.toNat
    if (fs.inode ino).type = pafsTypeDir ∧ pafsIsDirEmpty fs ino = false then []
    else
      let released := releaseInode fs ino
      let fs' := (pafsRemoveEntry released parentIno name).1
      removeEntryWrites released parentIno name ++
        [superblockWrite fs', bitmapWrite fs', inodeWrite fs' ino]

/-- The part of `pafs_write` after the inode is known. -/
def writeFileWrites (fs : State) (ino : ℕ) (data : ℕ → Byte) (len : ℤ) : List Write :=
  if (fs.inode ino).type ≠ pafsTypeFile then []
  else
    let (fs', bytesWritten) := writeLoop ino data len.toNat 14 fs 0 0
    writeLoopWrites ino data len.toNat 14 fs 0 0 ++
      [inodeWrite (fs'.setSize ino (BitVec.ofNat 32 bytesWritten)) ino]

/-- `pafs_write` -/
def writeWrites (k : Kernel) (name : CString) (data : ℕ → Byte) (len : ℤ) : List Write :=
  let k := k.lock.touchDisk
  let root := k.fs.sb.rootInode.toNat
  let ino := pafsFindEntry k.fs root name
  if ino = -1 then
    let (k', ino) := pafsCreate k root name false
    createWrites k.fs root name false ++
      if ino = -1 then [] else writeFileWrites k'.fs ino.toNat data len
  else writeFileWrites k.fs ino.toNat data len

/-- `pafs_vfs_write` -/
def vfsWriteWrites (fs : State) (ino : ℕ) (offset size : Word) (buffer : ℕ → Byte) : List Write :=
  if (fs.inode ino).type ≠ pafsTypeFile then []
  else
    let blockIdx := offset.toNat / 512
    let (fs', bytesWritten) :=
      vfsWriteLoop ino buffer size.toNat (14 - blockIdx) fs blockIdx (offset.toNat % 512) 0
    let newEnd := offset + BitVec.ofNat 32 bytesWritten
    let fs' := if (fs'.inode ino).size < newEnd then fs'.setSize ino newEnd else fs'
    vfsWriteLoopWrites ino buffer size.toNat (14 - blockIdx) fs blockIdx (offset.toNat % 512) 0 ++
      [inodeWrite fs' ino]

/-- `pafs_format` -/
def formatWrites (fs : State) : List Write :=
  let fs := blankState fs
  let rootIdx := (findFreeInode fs).getD 0
  let fs := fs.setInode rootIdx ⟨pafsTypeDir, 0#32, Table.ofFn fun _ => 0#32⟩
  let (fs', b) := (allocBlock fs).getD (fs, 0xFFFFFFFF)
  let fs' := fs'.setBlock rootIdx 0 (BitVec.ofNat 32 b)
  let fs' := { fs' with sb := { fs'.sb with
    rootInode := BitVec.ofNat 32 rootIdx
    freeInodes := fs'.sb.freeInodes - 1#32 } }
  allocBlockWrites fs ++ (b, default) :: metadataWrites fs'

/-- The sector writes of a call. -/
def opWrites (k : Kernel) : Op → List Write
  | .create parentIno name isDir => createWrites k.fs parentIno name isDir
  | .mkdir parentIno name => createWrites k.fs parentIno name true
  | .delete parentIno name => deleteWrites k.fs parentIno name
  | .write name data len => writeWrites k name data len
  | .vfsWrite ino offset size buffer => vfsWriteWrites k.fs ino offset size buffer
  | .format => formatWrites k.fs

/-! ## What they do to the disk -/

section Replay

variable {fs fs' : State} {ino b i : ℕ}

theorem replay_metadataWrites (fs : State) (disk : ℕ → Sector) :
    replay disk (metadataWrites fs) = (saveMetadata { fs with disk := disk }).disk := by
  have hmap : ∀ (l : List ℕ) (fs : State), (l.foldl
      (fun fs i => pafsDiskWrite fs (lbaInodesStart + i) (inodeSector fs.inodes i)) fs) =
        { fs with disk := replay fs.disk (l.map fun i =>
          (lbaInodesStart + i, inodeSector fs.inodes i)) } := by
    intro l
    induction l with
    | nil => exact fun _ => rfl
    | cons i l ih => exact fun fs => ih _
  rw [saveMetadata, hmap, metadataWrites, List.cons_append, replay_cons, replay_append]
  rfl

theorem replay_takeBlockWrites (fs : State) (b : ℕ) :
    replay fs.disk (takeBlockWrites fs b) = (takeBlock fs b).disk := rfl

theorem replay_allocBlockWrites (h : allocBlock fs = some (fs', b)) :
    replay fs.disk (allocBlockWrites fs) = fs'.disk := by
  obtain ⟨b', hb, heq⟩ := Option.map_eq_some_iff.mp h
  obtain ⟨rfl, rfl⟩ := Prod.mk.inj heq
  rw [allocBlockWrites, hb]
  rfl

theorem replay_growWrites (fs : State) (dirIno i b : ℕ) :
    replay fs.disk (growWrites fs b) = (growDir fs dirIno i b).disk := rfl

/-- What the loop of `pafs_add_entry` does with a block that is there. -/
def addEntrySlot (dirIno : ℕ) (name : CString) (fileIno : ℕ) (fs : State) (i : ℕ)
    (rest : State × ℤ) : State × ℤ :=
  let lba := (fs.block dirIno i).toNat
  let blockData := pafsDiskRead fs lba
  match (List.range 16).find? fun j => entryInode blockData j = 0#32 with
  | some j =>
    let fs := pafsDiskWrite fs lba (writeEntry blockData j (BitVec.ofNat 32 fileIno) name)
    (pafsSaveInode (fs.setSize dirIno ((fs.inode dirIno).size + 32#32)) dirIno, 0)
  | none => rest

/-- A round of the loop of `pafs_add_entry`. -/
theorem addEntryLoop_succ (dirIno : ℕ) (name : CString) (fileIno n : ℕ) (fs : State) (i : ℕ) :
    addEntryLoop dirIno name fileIno (n + 1) fs i =
      if fs.block dirIno i = 0#32 then
        match findFreeBlock fs with
        | none => (fs, -1)
        | some b =>
          addEntrySlot dirIno name fileIno (growDir fs dirIno i b) i
            (addEntryLoop dirIno name fileIno n (growDir fs dirIno i b) (i + 1))
      else addEntrySlot dirIno name fileIno fs i
        (addEntryLoop dirIno name fileIno n fs (i + 1)) := by
  rw [addEntryLoop]
  by_cases hzero : fs.block dirIno i = 0#32
  · rw [if_pos hzero, if_pos hzero, allocBlock]
    cases findFreeBlock fs <;> rfl
  · rw [if_neg hzero, if_neg hzero]
    rfl

theorem replay_slotWrites (dirIno : ℕ) (name : CString) (fileIno : ℕ) (fs : State) (i : ℕ)
    {ws : List Write} {rest : State × ℤ} (h : replay fs.disk ws = rest.1.disk) :
    replay fs.disk (slotWrites dirIno name fileIno fs i ws) =
      (addEntrySlot dirIno name fileIno fs i rest).1.disk := by
  unfold slotWrites addEntrySlot
  dsimp only
  split
  · rfl
  · exact h

theorem replay_addEntryLoopWrites (dirIno : ℕ) (name : CString) (fileIno n : ℕ) (fs : State)
    (i : ℕ) : replay fs.disk (addEntryLoopWrites dirIno name fileIno n fs i) =
      (addEntryLoop dirIno name fileIno n fs i).1.disk := by
  induction n generalizing fs i with
  | zero => rfl
  | succ n ih =>
    rw [addEntryLoopWrites, addEntryLoop_succ]
    split
    · cases findFreeBlock fs with
      | none => rfl
      | some b =>
        dsimp only
        rw [replay_append, replay_growWrites fs dirIno i b]
        exact replay_slotWrites dirIno name fileIno _ i (ih _ _)
    · exact replay_slotWrites dirIno name fileIno fs i (ih fs (i + 1))

theorem replay_addEntryWrites (fs : State) (dirIno : ℕ) (name : CString) (fileIno : ℕ) :
    replay fs.disk (addEntryWrites fs dirIno name fileIno) =
      (pafsAddEntry fs dirIno name fileIno).1.disk := by
  unfold addEntryWrites pafsAddEntry
  split
  · rfl
  · exact replay_addEntryLoopWrites dirIno name fileIno 14 fs 0

theorem replay_removeEntryWrites (fs : State) (dirIno : ℕ) (name : CString) :
    replay fs.disk (removeEntryWrites fs dirIno name) =
      (pafsRemoveEntry fs dirIno name).1.disk := by
  unfold removeEntryWrites pafsRemoveEntry
  dsimp only
  cases findSlot fs (fs.inode dirIno) name with
  | none => rfl
  | some p =>
    dsimp only
    split <;> rfl

theorem replay_ensureBlockWrites (h : ensureBlock fs ino i = some fs') :
    replay fs.disk (ensureBlockWrites fs ino i) = fs'.disk := by
  unfold ensureBlock at h
  unfold ensureBlockWrites
  split
  · next hzero =>
    rw [if_pos hzero] at h
    obtain ⟨⟨fs₁, b⟩, halloc, rfl⟩ := Option.map_eq_some_iff.mp h
    rw [replay_allocBlockWrites halloc]
    rfl
  · next hne =>
    rw [if_neg hne] at h
    rw [← Option.some.inj h]
    rfl

theorem replay_writeLoopWrites (ino : ℕ) (data : ℕ → Byte) (len n : ℕ) (fs : State) (i done : ℕ) :
    replay fs.disk (writeLoopWrites ino data len n fs i done) =
      (writeLoop ino data len n fs i done).1.disk := by
  induction n generalizing fs i done with
  | zero => rfl
  | succ n ih =>
    rw [writeLoopWrites, writeLoop]
    split
    · cases he : ensureBlock fs ino i with
      | none => rfl
      | some fs' =>
        dsimp only
        rw [replay_append, replay_ensureBlockWrites he, replay_cons, ← ih]
        rfl
    · rfl

theorem replay_vfsWriteLoopWrites (ino : ℕ) (buffer : ℕ → Byte) (size n : ℕ) (fs : State)
    (i off done : ℕ) : replay fs.disk (vfsWriteLoopWrites ino buffer size n fs i off done) =
      (vfsWriteLoop ino buffer size n fs i off done).1.disk := by
  induction n generalizing fs i off done with
  | zero => rfl
  | succ n ih =>
    rw [vfsWriteLoopWrites, vfsWriteLoop]
    split
    · cases he : ensureBlock fs ino i with
      | none => rfl
      | some fs' =>
        dsimp only
        rw [replay_append, replay_ensureBlockWrites he, replay_cons, ← ih]
        rfl
    · rfl

end Replay

section Operations

variable (k : Kernel)

theorem replay_createWrites (parentIno : ℕ) (name : CString) (isDir : Bool) :
    replay k.fs.disk (createWrites k.fs parentIno name isDir) =
      (pafsCreate k parentIno name isDir).1.fs.disk := by
  simp only [createWrites, pafsCreate, Kernel.fs_touch, Kernel.fs_lock, Kernel.fs_touchDisk]
  by_cases hc : k.fs.sb.freeInodes = 0#32
  · rw [if_pos hc, if_pos hc]
    rfl
  rw [if_neg hc, if_neg hc]
  by_cases ha : pafsFindEntry k.fs parentIno name ≠ -1
  · rw [if_pos ha, if_pos ha, Kernel.fs_unlock, Kernel.fs_touchDisk]
    rfl
  rw [if_neg ha, if_neg ha]
  cases hf : findFreeInode k.fs with
  | none => simp
  | some new =>
    dsimp only
    have hadd := replay_addEntryWrites (newInode k.fs new isDir) parentIno name new
    have hdisk : (newInode k.fs new isDir).disk = k.fs.disk := rfl
    rw [hdisk] at hadd
    rw [replay_append, hadd]
    split
    · simp only [Kernel.fs_unlock, Kernel.fs_touchDisk, Kernel.fs_setFs]
      rfl
    · simp only [Kernel.fs_unlock, Kernel.fs_touch, Kernel.fs_setFs]
      rfl

theorem disk_releaseInode_eq (fs : State) (ino : ℕ) : (releaseInode fs ino).disk = fs.disk := by
  have hloop : ∀ (slots : List ℕ) (fs : State),
      (slots.foldl (freeBlock ino) fs).disk = fs.disk := by
    intro slots
    induction slots with
    | nil => exact fun _ => rfl
    | cons s slots ih =>
      intro fs
      rw [List.foldl_cons, ih, freeBlock]
      split <;> rfl
  exact hloop (List.range 14) fs

theorem replay_deleteWrites (parentIno : ℕ) (name : CString) :
    replay k.fs.disk (deleteWrites k.fs parentIno name) =
      (pafsDelete k parentIno name).1.fs.disk := by
  simp only [deleteWrites, pafsDelete, Kernel.fs_touch, Kernel.fs_lock, Kernel.fs_touchDisk]
  split
  · simp
  · split
    · simp
    · have hremove := replay_removeEntryWrites
        (releaseInode k.fs (pafsFindEntry k.fs parentIno name).toNat) parentIno name
      rw [disk_releaseInode_eq] at hremove
      rw [replay_append, hremove]
      simp only [Kernel.fs_unlock, Kernel.fs_touchDisk, Kernel.fs_setFs]
      rfl

theorem replay_writeFileWrites (ino : ℕ) (data : ℕ → Byte) (len : ℤ) :
    replay k.fs.disk (writeFileWrites k.fs ino data len) =
      (pafsWriteFile k ino data len).1.fs.disk := by
  by_cases ht : (k.fs.inode ino).type = pafsTypeFile
  · rw [fs_pafsWriteFile ht, writeFileWrites, if_neg (not_not.mpr ht), replay_append,
      replay_writeLoopWrites]
    rfl
  · rw [fs_pafsWriteFile_of_not_file ht, writeFileWrites, if_pos ht]
    rfl

theorem replay_vfsWriteWrites (ino : ℕ) (offset size : Word) (buffer : ℕ → Byte) :
    replay k.fs.disk (vfsWriteWrites k.fs ino offset size buffer) =
      (pafsVfsWrite k ino offset size buffer).1.fs.disk := by
  by_cases ht : (k.fs.inode ino).type = pafsTypeFile
  · rw [fs_pafsVfsWrite ht, vfsWriteWrites, if_neg (not_not.mpr ht), replay_append,
      replay_vfsWriteLoopWrites]
    dsimp only
    split <;> rfl
  · rw [fs_pafsVfsWrite_of_not_file ht, vfsWriteWrites, if_pos ht]
    rfl

theorem replay_writeWrites (name : CString) (data : ℕ → Byte) (len : ℤ) :
    replay k.fs.disk (writeWrites k name data len) = (pafsWrite k name data len).1.fs.disk := by
  have hfs : k.lock.touchDisk.fs = k.fs := by simp
  have hcreate := replay_createWrites k.lock.touchDisk k.lock.touchDisk.fs.sb.rootInode.toNat name false
  rw [← hfs]
  unfold writeWrites pafsWrite
  dsimp only
  split
  · rw [replay_append, hcreate]
    split
    · rfl
    · exact replay_writeFileWrites _ _ data len
  · exact replay_writeFileWrites k.lock.touchDisk _ data len

theorem replay_formatWrites (fs : State) :
    replay fs.disk (formatWrites fs) = (formatState fs).disk := by
  unfold formatWrites formatState
  dsimp only
  rw [replay_append, replay_cons, replay_metadataWrites]
  -- the disk before the metadata is saved
  cases halloc : allocBlock ((blankState fs).setInode ((findFreeInode (blankState fs)).getD 0)
      ⟨pafsTypeDir, 0#32, Table.ofFn fun _ => 0#32⟩) with
  | none =>
    obtain hnone := Option.map_eq_none_iff.mp halloc
    rw [allocBlockWrites, hnone]
    rfl
  | some p =>
    obtain ⟨fs', b⟩ := p
    have hdisk := replay_allocBlockWrites halloc
    have hblank : ((blankState fs).setInode ((findFreeInode (blankState fs)).getD 0)
      ⟨pafsTypeDir, 0#32, Table.ofFn fun _ => 0#32⟩).disk = fs.disk := rfl
    rw [hblank] at hdisk
    rw [hdisk]
    rfl

end Operations

/-- **The writes of a call are what it does to the disk.** -/
theorem replay_opWrites (k : Kernel) (op : Op) :
    replay k.fs.disk (opWrites k op) = (step k op).fs.disk := by
  cases op with
  | create parentIno name isDir => exact replay_createWrites k parentIno name isDir
  | mkdir parentIno name => exact replay_createWrites k parentIno name true
  | delete parentIno name => exact replay_deleteWrites k parentIno name
  | write name data len => exact replay_writeWrites k name data len
  | vfsWrite ino offset size buffer => exact replay_vfsWriteWrites k ino offset size buffer
  | format =>
    rw [step, fs_pafsFormat]
    exact replay_formatWrites k.fs

end PekerOS.Pafs
