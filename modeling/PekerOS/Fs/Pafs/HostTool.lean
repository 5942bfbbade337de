import PekerOS.Fs.Pafs.Namespace

/-!
# PAFS: the host scripts

A disk image is made on the host by two scripts: `pafs_format.py` writes an image whose root holds one
directory, and each call of `add_file_to_pafs` in `pafs_tool.py` adds one file to the root's first
block. The image file is as long as the build makes it, so that a read is never short. `sb`, the inode
table and a directory block are unpacked and packed without loss, so they are the structures of the
kernel here. What an exception leaves in the file is kept, as the file is closed and flushed.

## Main definitions

* `formatPafs`: `format_pafs`
* `addFileToPafs`, `AddResult`: `add_file_to_pafs` and how a call ends
* `collectBlocks`, `writeChunks`, `checkNames`, `packEntry`, `saveChanges`: its parts
* `Added`: a successful call, `addAll`: a sequence of them

## Main results

* `addFileToPafs_added`: what a successful call has read and written
* `initRead_saveChanges`: the kernel's view of the image after it
-/

namespace PekerOS.Pafs

/-! ## Adding a file -/

/-- How `add_file_to_pafs` ends: the message it prints, or an exception. -/
inductive AddResult
  /-- `Basarili: '...' dosyasi '...' olarak eklendi.` -/
  | added
  /-- `Hata: Gecersiz PAFS disk!` -/
  | invalidDisk
  /-- `Hata: Bos inode kalmadi!` -/
  | noInode
  /-- `Hata: Dosya 7KB'dan buyuk!` -/
  | tooLarge
  /-- `Hata: Yeterli bos blok yok!` -/
  | noBlocks
  /-- `Hata: '...' adinda bir dosya zaten var!` -/
  | nameExists
  /-- `Hata: Root dizini dolu!` -/
  | rootFull
  /-- `struct.error` or a `UnicodeError` -/
  | raised
deriving DecidableEq

/-- `name.encode('ascii')`, `none` for the exception. -/
def encodeAscii (name : List Char) : Option (List Byte) :=
  name.mapM fun c => if c.toNat < 128 then some (BitVec.ofNat 8 c.toNat) else none

/-- `bytes.decode('ascii')`, `none` for the exception. -/
def decodeAscii (bytes : List Byte) : Option (List Char) :=
  bytes.mapM fun b => if b.toNat < 128 then some (Char.ofNat b.toNat) else none

/-- The loop that collects blocks, over the block numbers left. It stops when it has taken a block
and has `numBlocks` of them. -/
def collectBlocks (numBlocks : ℕ) : List ℕ → Table 512 Byte → List ℕ → Table 512 Byte × List ℕ
  | [], bitmap, assigned => (bitmap, assigned)
  | b :: rest, bitmap, assigned =>
    if Bitmap.test bitmap b then collectBlocks numBlocks rest bitmap assigned
    else
      let bitmap := Bitmap.set bitmap b
      let assigned := assigned ++ [b]
      if assigned.length = numBlocks then (bitmap, assigned)
      else collectBlocks numBlocks rest bitmap assigned

/-- `data[i * BLOCK_SIZE : (i + 1) * BLOCK_SIZE].ljust(BLOCK_SIZE, b'\x00')` -/
def chunk (data : List Byte) (i : ℕ) : Sector :=
  Table.ofFn fun k => ((data.drop (512 * i)).take 512).getD k 0#8

/-- The loop that writes the data, from chunk `i` on. -/
def writeChunks (data : List Byte) : ℕ → List ℕ → (ℕ → Sector) → ℕ → Sector
  | _, [], disk => disk
  | i, b :: rest, disk => writeChunks data (i + 1) rest (Function.update disk b (chunk data i))

/-- `struct.unpack_from("<28s", dir_data, i * 32 + 4)[0].split(b'\x00')[0]` -/
def entryField (dirData : Sector) (i : ℕ) : List Byte :=
  ((List.range 28).map fun k => dirData.get (32 * i + 4 + k)).takeWhile fun c => c ≠ 0#8

/-- The loop that looks for the name in the root's first block, over the entries left: `none` if it
ends without a `return` or an exception. -/
def checkNames (dirData : Sector) (name : List Char) : List ℕ → Option AddResult
  | [] => none
  | i :: rest =>
    if entryInode dirData i ≠ 0#32 then
      match decodeAscii (entryField dirData i) with
      -- `decode('ascii')` fails on the bytes there
      | none => some .raised
      | some existingName =>
        if existingName = name then some .nameExists else checkNames dirData name rest
    else checkNames dirData name rest

/-- `struct.pack("<I28s", target_ino, name_bytes.ljust(28, b'\x00'))` stored in entry `i`. -/
def packEntry (dirData : Sector) (i : ℕ) (ino : Word) (chars : List Byte) : Sector :=
  let nameBytes := chars.take 27 ++ [0#8]
  (dirData.setWord (32 * i) ino).patch (32 * i + 4) 28 fun k => nameBytes.getD k 0#8

/-- The inode `struct.pack`ed for the new file. -/
def packInode (len : ℕ) (assigned : List ℕ) : Inode :=
  ⟨pafsTypeFile, BitVec.ofNat 32 len, Table.ofFn fun k => BitVec.ofNat 32 (assigned.getD k 0)⟩

/-- The sixteen sectors of the inode table, written at once. -/
def writeInodes (disk : ℕ → Sector) (inodes : Table 128 Inode) : ℕ → Sector := fun lba =>
  if lbaInodesStart ≤ lba ∧ lba < lbaInodesStart + lbaInodesCount then
    inodeSector inodes (lba - lbaInodesStart)
  else disk lba

/-- Step 8. The counters are Python integers: a negative one, or a size of 2^32 and more, is refused
by `struct.pack` after the sectors before it are written. -/
def saveChanges (disk : ℕ → Sector) (sb : Superblock) (inodes : Table 128 Inode)
    (bitmap dirData : Sector) (numBlocks : ℕ) : (ℕ → Sector) × AddResult :=
  let root := inodes.get 0
  let disk := Function.update disk (root.blocks.get 0).toNat dirData
  let disk := writeInodes disk inodes
  let disk := Function.update disk lbaBitmap bitmap
  if sb.freeBlocks.toNat < numBlocks ∨ sb.freeInodes.toNat < 1 then (disk, .raised)
  else
    let sbNew := { sb with
      freeBlocks := BitVec.ofNat 32 (sb.freeBlocks.toNat - numBlocks)
      freeInodes := BitVec.ofNat 32 (sb.freeInodes.toNat - 1) }
    let disk := Function.update disk lbaSuperblock
      ((disk lbaSuperblock).patch 0 24 sbNew.toSector.get)
    let newRootSize := root.size.toNat + 32
    if 2 ^ 32 ≤ newRootSize then (disk, .raised)
    else
      (Function.update disk lbaInodesStart
        ((disk lbaInodesStart).setWord 4 (BitVec.ofNat 32 newRootSize)), .added)

/-- `add_file_to_pafs`: the image and the outcome, for the contents of the file. -/
def addFileToPafs (disk : ℕ → Sector) (data : List Byte) (name : List Char) :
    (ℕ → Sector) × AddResult :=
  let sb := Superblock.ofSector (disk lbaSuperblock)
  if sb.magic ≠ pafsMagic then (disk, .invalidDisk)
  else
    let inodes := loadInodes disk
    match (List.range pafsMaxInodes).find? fun i => (inodes.get i).type = pafsTypeFree with
    | none => (disk, .noInode)
    | some targetIno =>
      if 14 * 512 < data.length then (disk, .tooLarge)
      else
        let numBlocks := (data.length + 512 - 1) / 512
        let (bitmap, assigned) := collectBlocks numBlocks
          (List.range' lbaDataStart (4096 - lbaDataStart)) (disk lbaBitmap) []
        if assigned.length < numBlocks then (disk, .noBlocks)
        else
          let disk := writeChunks data 0 assigned disk
          -- `struct.pack("<14I", ...)` takes 14 numbers
          if 14 < assigned.length then (disk, .raised)
          else
            let inodes := inodes.set targetIno (packInode data.length assigned)
            let dirData := disk ((inodes.get 0).blocks.get 0).toNat
            match checkNames dirData name (List.range 16) with
            | some result => (disk, result)
            | none =>
              match (List.range 16).find? fun i => entryInode dirData i = 0#32 with
              | none => (disk, .rootFull)
              | some i =>
                match encodeAscii name with
                | none => (disk, .raised)
                | some chars =>
                  saveChanges disk sb inodes bitmap
                    (packEntry dirData i (BitVec.ofNat 32 targetIno) chars) numBlocks

/-! ## A successful call -/

/-- The number of blocks the data needs. -/
abbrev blocksFor (data : List Byte) : ℕ := (data.length + 512 - 1) / 512

/-- The inode table before the root's size is updated. -/
abbrev hostInodesAfter (disk : ℕ → Sector) (data : List Byte) (ino : ℕ) (assigned : List ℕ) :
    Table 128 Inode :=
  (loadInodes disk).set ino (packInode data.length assigned)

/-- The root's first block, as it is after the data is written. -/
abbrev hostRootBlock (disk : ℕ → Sector) (data : List Byte) (ino : ℕ) (assigned : List ℕ) : Sector :=
  writeChunks data 0 assigned disk
    (((hostInodesAfter disk data ino assigned).get 0).blocks.get 0).toNat

/-- A successful call: the inode, the blocks and the entry it chose. -/
structure Added (disk : ℕ → Sector) (data : List Byte) (name : List Char) (disk' : ℕ → Sector)
    (ino : ℕ) (bitmap : Sector) (assigned : List ℕ) (i : ℕ) (chars : List Byte) : Prop where
  magic : (Superblock.ofSector (disk lbaSuperblock)).magic = pafsMagic
  free : findFreeInode (pafsInitRead disk) = some ino
  short : data.length ≤ 7168
  collected : collectBlocks (blocksFor data) (List.range' lbaDataStart (4096 - lbaDataStart))
    (disk lbaBitmap) [] = (bitmap, assigned)
  enough : blocksFor data ≤ assigned.length
  cap : assigned.length ≤ 14
  names : checkNames (hostRootBlock disk data ino assigned) name (List.range 16) = none
  slot : ((List.range 16).find? fun i =>
    entryInode (hostRootBlock disk data ino assigned) i = 0#32) = some i
  encoded : encodeAscii name = some chars
  saved : saveChanges (writeChunks data 0 assigned disk) (Superblock.ofSector (disk lbaSuperblock))
    (hostInodesAfter disk data ino assigned) bitmap
    (packEntry (hostRootBlock disk data ino assigned) i (BitVec.ofNat 32 ino) chars)
    (blocksFor data) = (disk', .added)

theorem checkNames_ne_added {dirData : Sector} {name : List Char} {l : List ℕ} :
    checkNames dirData name l ≠ some .added := by
  induction l with
  | nil => simp [checkNames]
  | cons i rest ih =>
    rw [checkNames]
    split
    · split
      · simp
      · split
        · simp
        · exact ih
    · exact ih

section Calls

variable {disk disk' : ℕ → Sector} {data : List Byte} {name : List Char}

/-- **A call succeeds** when every check passes, with the choices that the checks made. -/
theorem addFileToPafs_added : addFileToPafs disk data name = (disk', .added) ↔
    ∃ ino bitmap assigned i chars, Added disk data name disk' ino bitmap assigned i chars := by
  constructor
  · intro h
    unfold addFileToPafs at h
    dsimp only at h
    split at h
    · simp at h
    next hmagic =>
    split at h
    · simp at h
    next ino hfree =>
    split at h
    · simp at h
    next hlen =>
    -- the checks of `add_file_to_pafs` in their order; each one that fails ends the call otherwise
    obtain ⟨bitmap, assigned, hcollect⟩ : ∃ bitmap assigned, collectBlocks (blocksFor data)
        (List.range' lbaDataStart (4096 - lbaDataStart)) (disk lbaBitmap) [] = (bitmap, assigned) :=
      ⟨_, _, rfl⟩
    rw [hcollect] at h
    dsimp only at h
    split at h
    · simp at h
    next henough =>
    split at h
    · simp at h
    next hcap =>
    split at h
    next result hresult =>
      obtain ⟨-, rfl⟩ := Prod.mk.inj h
      exact absurd hresult checkNames_ne_added
    next hnames =>
    split at h
    · simp at h
    next i hslot =>
    split at h
    · simp at h
    next chars hchars =>
    exact ⟨ino, bitmap, assigned, i, chars, not_not.mp hmagic, hfree, by omega, hcollect,
      not_lt.mp henough, by omega, hnames, hslot, hchars, h⟩
  · rintro ⟨ino, bitmap, assigned, i, chars, h⟩
    have hfree : ((List.range pafsMaxInodes).find? fun i =>
        ((loadInodes disk).get i).type = pafsTypeFree) = some ino := h.free
    have hshort := h.short
    have henough := h.enough
    have hcap := h.cap
    unfold addFileToPafs
    dsimp only
    rw [if_neg (not_not.mpr h.magic), hfree]
    dsimp only
    rw [if_neg (by omega), h.collected]
    dsimp only
    rw [if_neg (not_lt.mpr henough), if_neg (by omega), h.names]
    dsimp only
    rw [h.slot]
    dsimp only
    rw [h.encoded]
    exact h.saved

theorem added_of_snd (h : (addFileToPafs disk data name).2 = .added) :
    ∃ ino bitmap assigned i chars,
      Added disk data name (addFileToPafs disk data name).1 ino bitmap assigned i chars :=
  addFileToPafs_added.mp (Prod.ext rfl h)

end Calls

/-! ## The parts of a call -/

section Parts

variable {numBlocks : ℕ}

/-- The blocks that the collecting loop takes from `free`, the free block numbers in order, when it
has `got` of them: a loop that needs no more takes all of them, as it tests its number only after
it has taken one. -/
def takenFrom (numBlocks got : ℕ) (free : List ℕ) : List ℕ :=
  if got < numBlocks then free.take (numBlocks - got) else free

theorem takenFrom_cons (got b : ℕ) (free : List ℕ) : takenFrom numBlocks got (b :: free) =
    b :: if got + 1 = numBlocks then [] else takenFrom numBlocks (got + 1) free := by
  unfold takenFrom
  by_cases hlt : got < numBlocks
  · obtain ⟨k, hk⟩ : ∃ k, numBlocks - got = k + 1 := ⟨numBlocks - got - 1, by omega⟩
    rw [if_pos hlt, hk, List.take_succ_cons]
    by_cases heq : got + 1 = numBlocks
    · rw [if_pos heq, show k = 0 by omega, List.take_zero]
    · rw [if_neg heq, if_pos (by omega), show numBlocks - (got + 1) = k by omega]
  · rw [if_neg hlt, if_neg (by omega), if_neg (by omega)]

/-- **The collecting loop** marks and returns the free blocks it takes. -/
theorem collectBlocks_eq {l : List ℕ} (hnd : l.Nodup) (hlt : ∀ b ∈ l, b < 4096)
    (bitmap : Table 512 Byte) (assigned : List ℕ) :
    collectBlocks numBlocks l bitmap assigned =
      let taken := takenFrom numBlocks assigned.length (l.filter fun b => !Bitmap.test bitmap b)
      (taken.foldl Bitmap.set bitmap, assigned ++ taken) := by
  induction l generalizing bitmap assigned with
  | nil => simp [collectBlocks, takenFrom]
  | cons b rest ih =>
    obtain ⟨hb, hrest⟩ := List.nodup_cons.mp hnd
    have hlt' := fun c hc => hlt c (List.mem_cons_of_mem b hc)
    rw [collectBlocks]
    by_cases htest : Bitmap.test bitmap b = true
    · rw [if_pos htest, ih hrest hlt', List.filter_cons_of_neg (by simp [htest])]
    · -- marking `b` changes no later test
      have hsame : (rest.filter fun c => !Bitmap.test (Bitmap.set bitmap b) c) =
          rest.filter fun c => !Bitmap.test bitmap c := by
        refine List.filter_congr fun c hc => ?_
        rw [Bitmap.test_set bitmap (show b < 8 * 512 from hlt b List.mem_cons_self)]
        have hcb : c ≠ b := fun h => hb (h ▸ hc)
        simp [hcb]
      rw [if_neg htest, List.filter_cons_of_pos (by simp [htest]), takenFrom_cons]
      dsimp only
      -- the search stops with the last block that is needed
      by_cases hdone : (assigned ++ [b]).length = numBlocks
      · have hlen : assigned.length + 1 = numBlocks := by simpa using hdone
        rw [if_pos hdone, if_pos hlen]
        rfl
      · have hlen : assigned.length + 1 ≠ numBlocks := by simpa using hdone
        rw [if_neg hdone, if_neg hlen, ih hrest hlt', hsame]
        simp

/-- The free data blocks in order. -/
def freeList (bitmap : Table 512 Byte) : List ℕ :=
  (List.range' 18 4078).filter fun b => !Bitmap.test bitmap b

theorem mem_freeList {bitmap : Table 512 Byte} {b : ℕ} :
    b ∈ freeList bitmap ↔ b ∈ Bitmap.clearBits bitmap 18 4096 := by
  rw [freeList, List.mem_filter, List.mem_range'_1, Bitmap.mem_clearBits]
  simp

theorem nodup_freeList (bitmap : Table 512 Byte) : (freeList bitmap).Nodup :=
  List.Nodup.filter _ List.nodup_range'

theorem length_freeList (bitmap : Table 512 Byte) :
    (freeList bitmap).length = Bitmap.clearCount bitmap 18 4096 := by
  have hset : (freeList bitmap).toFinset = Bitmap.clearBits bitmap 18 4096 := by
    ext b
    rw [List.mem_toFinset, mem_freeList]
  rw [← List.toFinset_card_of_nodup (nodup_freeList bitmap), hset, Bitmap.clearCount]

theorem collectBlocks_all (bitmap : Table 512 Byte) :
    collectBlocks numBlocks (List.range' lbaDataStart (4096 - lbaDataStart)) bitmap [] =
      let taken := takenFrom numBlocks 0 (freeList bitmap)
      (taken.foldl Bitmap.set bitmap, taken) := by
  rw [collectBlocks_eq List.nodup_range' fun b hb => by
    have := List.mem_range'_1.mp hb
    unfold lbaDataStart at this
    omega]
  rfl

theorem takenFrom_sublist (got : ℕ) (free : List ℕ) :
    (takenFrom numBlocks got free).Sublist free := by
  unfold takenFrom
  split
  · exact List.take_sublist _ _
  · exact List.Sublist.refl _

/-- A sector that no chunk goes to stays. -/
theorem writeChunks_of_not_mem {data : List Byte} {i : ℕ} {l : List ℕ} {disk : ℕ → Sector}
    {lba : ℕ} (h : lba ∉ l) : writeChunks data i l disk lba = disk lba := by
  induction l generalizing i disk with
  | nil => rfl
  | cons b rest ih =>
    obtain ⟨hne, hrest⟩ := not_or.mp (mt List.mem_cons.mpr h)
    rw [writeChunks, ih hrest, Function.update_of_ne hne]

/-- The chunks are in the collected blocks. -/
theorem writeChunks_getElem {data : List Byte} {i k : ℕ} {l : List ℕ} {disk : ℕ → Sector}
    (hnd : l.Nodup) (hk : k < l.length) : writeChunks data i l disk l[k] = chunk data (i + k) := by
  induction l generalizing i k disk with
  | nil => exact absurd hk (by simp)
  | cons b rest ih =>
    obtain ⟨hb, hrest⟩ := List.nodup_cons.mp hnd
    rw [writeChunks]
    cases k with
    | zero =>
      rw [List.getElem_cons_zero, writeChunks_of_not_mem hb, Function.update_self]
      rfl
    | succ k =>
      rw [List.getElem_cons_succ, ih hrest (by simpa using hk), Nat.add_right_comm, Nat.add_assoc]

/-! ### The packed entry -/

theorem packEntry_of_ne (dirData : Sector) {i j : ℕ} (hij : i ≠ j) (ino : Word) (chars : List Byte) :
    EntryFrom dirData i (packEntry dirData j ino chars) i := by
  intro k hk
  rw [packEntry, Table.get_patch_of_not_mem _ _ (by omega), Table.setWord,
    Table.get_patch_of_not_mem _ _ (by omega)]

theorem entryInode_packEntry (dirData : Sector) {j : ℕ} (hj : j < 16) (ino : Word)
    (chars : List Byte) : entryInode (packEntry dirData j ino chars) j = ino := by
  rw [entryInode, packEntry, Table.getWord_patch_of_disjoint _ _ (Or.inl le_rfl),
    Table.getWord_setWord _ (by omega)]

/-- The kernel reads the name that was packed. -/
theorem entryName_packEntry (dirData : Sector) {j : ℕ} (hj : j < 16) (ino : Word)
    {chars : List Byte} (hnul : ∀ c ∈ chars, c ≠ 0#8) :
    entryName (packEntry dirData j ino chars) j = chars.take 27 := by
  have hlen : (chars.take 27).length ≤ 27 := by simp
  refine cstrAt_eq_of_bytes (fun c hc => hnul c (List.mem_of_mem_take hc)) (by omega)
    (fun k hk => ?_) ?_
  · rw [packEntry, Table.get_patch_of_mem _ _ (by omega) (by omega), List.getD_append _ _ _ _ hk]
    exact List.getD_eq_getElem _ _ hk
  · rw [packEntry, Table.get_patch_of_mem _ _ (by omega) (by omega),
      List.getD_append_right _ _ _ _ le_rfl, Nat.sub_self]
    rfl

/-! ### The image as the kernel reads it -/

/-- The size field of inode 0 is the second word of the first sector of the table. -/
theorem setWord_inodeSector (inodes : Table 128 Inode) (size : Word) :
    (inodeSector inodes 0).setWord 4 size =
      inodeSector (inodes.set 0 { inodes.get 0 with size := size }) 0 := by
  refine Table.ext_get fun k hk => ?_
  rw [inodeSector, inodeSector, Table.get_ofFn _ hk]
  by_cases hsize : 4 ≤ k ∧ k < 8
  · obtain ⟨j, rfl⟩ : ∃ j, k = 4 + j := ⟨k - 4, by omega⟩
    rw [Table.setWord, Table.get_patch_of_mem _ _ hk (by omega),
      show 8 * 0 + (4 + j) / 64 = 0 by omega, Table.get_set_self _ (by decide),
      show (4 + j) % 64 / 4 = 1 by omega, show (4 + j) % 4 = j by omega]
    rfl
  · rw [Table.setWord, Table.get_patch_of_not_mem _ _ (by omega), Table.get_ofFn _ hk]
    by_cases hroot : k < 64
    · rw [show 8 * 0 + k / 64 = 0 by omega, Table.get_set_self _ (by decide)]
      -- another word of inode 0
      obtain hf | ⟨f, hf⟩ : k % 64 / 4 = 0 ∨ ∃ f, k % 64 / 4 = f + 2 := by
        rcases Nat.lt_or_ge k 4 with h | h
        · exact Or.inl (by omega)
        · exact Or.inr ⟨k % 64 / 4 - 2, by omega⟩
      · rw [hf]
        rfl
      · rw [hf]
        rfl
    · rw [Table.get_set_ne _ (by omega)]

/-- The superblock read from a sector whose first 24 bytes are replaced. -/
theorem ofSector_patch (s : Sector) (sb : Superblock) :
    Superblock.ofSector (s.patch 0 24 sb.toSector.get) =
      { sb with slack := (Superblock.ofSector s).slack } := by
  have hsector : s.patch 0 24 sb.toSector.get =
      Superblock.toSector { sb with slack := (Superblock.ofSector s).slack } := by
    refine Table.ext_get fun k hk => ?_
    rw [Table.get_patch _ _ hk, Superblock.toSector, Superblock.toSector, Table.get_ofFn _ hk]
    by_cases h24 : k < 24
    · rw [if_pos ⟨Nat.zero_le _, by omega⟩, if_pos h24, Table.get_ofFn _ (by omega),
        if_pos (by omega), Nat.sub_zero]
      rfl
    · rw [if_neg (by omega), if_neg h24, Superblock.ofSector, Table.get_ofFn _ (by omega),
        Nat.add_sub_cancel' (by omega)]
  rw [hsector, Superblock.ofSector_toSector]

section Save

variable {disk disk' : ℕ → Sector} {sb : Superblock} {inodes : Table 128 Inode} {bitmap dirData : Sector}

theorem saveChanges_added_iff : (saveChanges disk sb inodes bitmap dirData numBlocks).2 = .added ↔
    numBlocks ≤ sb.freeBlocks.toNat ∧ 0 < sb.freeInodes.toNat ∧
      (inodes.get 0).size.toNat + 32 < 2 ^ 32 := by
  unfold saveChanges
  dsimp only
  split
  · simp only [reduceCtorEq, false_iff]
    omega
  · split
    · simp only [reduceCtorEq, false_iff]
      omega
    · simp only [true_iff]
      omega

/-- **The image after a successful call**, as the kernel reads it. -/
theorem initRead_saveChanges (hsb : sb = Superblock.ofSector (disk lbaSuperblock))
    (hroot : 18 ≤ ((inodes.get 0).blocks.get 0).toNat)
    (h : saveChanges disk sb inodes bitmap dirData numBlocks = (disk', .added)) :
    pafsInitRead disk' =
      { sb := { sb with
          freeBlocks := BitVec.ofNat 32 (sb.freeBlocks.toNat - numBlocks)
          freeInodes := BitVec.ofNat 32 (sb.freeInodes.toNat - 1) }
        inodes := inodes.set 0 { inodes.get 0 with
          size := BitVec.ofNat 32 ((inodes.get 0).size.toNat + 32) }
        blockBitmap := bitmap
        disk := disk' } ∧
      ∀ lba, 18 ≤ lba → disk' lba =
        if lba = ((inodes.get 0).blocks.get 0).toNat then dirData else disk lba := by
  obtain ⟨hfree, hino, hsize⟩ := saveChanges_added_iff.mp (congrArg Prod.snd h)
  unfold saveChanges at h
  dsimp only at h
  rw [if_neg (by omega), if_neg (by omega)] at h
  obtain rfl := (Prod.mk.inj h).1.symm
  clear h
  generalize hlba : ((inodes.get 0).blocks.get 0).toNat = rootLba at *
  simp only [lbaInodesStart, lbaSuperblock, lbaBitmap] at *
  -- each metadata sector keeps what was written to it last, and the root's block is none of them
  refine ⟨?_, fun lba hlba' => ?_⟩
  · simp only [pafsInitRead, State.mk.injEq, and_true]
    refine ⟨?_, ?_, ?_⟩
    · rw [Function.update_of_ne (by decide), Function.update_self,
        Function.update_of_ne (by decide), writeInodes, if_neg (by simp),
        Function.update_of_ne (by omega), ofSector_patch, hsb]
    · refine loadInodes_of_sectors fun k hk => ?_
      unfold lbaInodesStart
      by_cases hk0 : k = 0
      · subst hk0
        rw [Function.update_self, Function.update_of_ne (by decide),
          Function.update_of_ne (by decide), writeInodes, if_pos (by simp [lbaInodesStart])]
        exact setWord_inodeSector _ _
      · rw [Function.update_of_ne (by omega), Function.update_of_ne (by omega),
          Function.update_of_ne (by omega), writeInodes, if_pos (by
            simp only [lbaInodesStart, lbaInodesCount]; omega),
          inodeSector_set_ne _ (by omega), Nat.add_sub_cancel_left]
    · rw [Function.update_of_ne (by decide), Function.update_of_ne (by decide), Function.update_self]
  · rw [Function.update_of_ne (by omega), Function.update_of_ne (by omega),
      Function.update_of_ne (by omega), writeInodes, if_neg (by
        simp only [lbaInodesStart, lbaInodesCount]; omega), Function.update_apply]

end Save

end Parts

/-! ## A call on an image with a root -/

/-- The sector of the root's first block. -/
abbrev rootLba (fs : State) : ℕ := (fs.block 0 0).toNat

/-- The root is a directory whose first block is a marked data block. -/
structure RootBlock (fs : State) : Prop where
  dir : (fs.inode 0).type = pafsTypeDir
  data : 18 ≤ rootLba fs
  marked : Bitmap.test fs.blockBitmap (rootLba fs) = true

/-- What the checks of a call have found in the image: the inode, the blocks, the entry and the name
in bytes. -/
structure Choice (fs : State) (data : List Byte) (name : List Char) (ino : ℕ) (assigned : List ℕ)
    (i : ℕ) (chars : List Byte) : Prop where
  magic : fs.sb.magic = pafsMagic
  free : findFreeInode fs = some ino
  short : data.length ≤ 7168
  collected : assigned = takenFrom (blocksFor data) 0 (freeList fs.blockBitmap)
  enough : blocksFor data ≤ assigned.length
  cap : assigned.length ≤ 14
  names : checkNames (fs.disk (rootLba fs)) name (List.range 16) = none
  slot : ((List.range 16).find? fun i => entryInode (fs.disk (rootLba fs)) i = 0#32) = some i
  encoded : encodeAscii name = some chars
  blocks : blocksFor data ≤ fs.sb.freeBlocks.toNat
  inodes : 0 < fs.sb.freeInodes.toNat
  size : (fs.inode 0).size.toNat + 32 < 2 ^ 32

/-- What a successful call does to the kernel's view of the image. -/
structure HostStep (fs : State) (data : List Byte) (ino : ℕ) (assigned : List ℕ) (i : ℕ)
    (chars : List Byte) (fs' : State) : Prop where
  sb : fs'.sb = { fs.sb with
    freeBlocks := BitVec.ofNat 32 (fs.sb.freeBlocks.toNat - blocksFor data)
    freeInodes := BitVec.ofNat 32 (fs.sb.freeInodes.toNat - 1) }
  root : fs'.inode 0 = { fs.inode 0 with
    size := BitVec.ofNat 32 ((fs.inode 0).size.toNat + 32) }
  new : fs'.inode ino = packInode data.length assigned
  other : ∀ j, j ≠ 0 → j ≠ ino → fs'.inode j = fs.inode j
  blockBitmap : fs'.blockBitmap = assigned.foldl Bitmap.set fs.blockBitmap
  entry : fs'.disk (rootLba fs) =
    packEntry (fs.disk (rootLba fs)) i (BitVec.ofNat 32 ino) chars
  data : ∀ lba, 18 ≤ lba → lba ≠ rootLba fs →
    fs'.disk lba = writeChunks data 0 assigned fs.disk lba

section Root

variable {disk disk' : ℕ → Sector} {data : List Byte} {name : List Char} {ino i : ℕ}
  {assigned : List ℕ} {chars : List Byte}

theorem mem_takenFrom {fs : State} {numBlocks b : ℕ}
    (hb : b ∈ takenFrom numBlocks 0 (freeList fs.blockBitmap)) :
    b ∈ Bitmap.clearBits fs.blockBitmap 18 4096 :=
  mem_freeList.mp ((takenFrom_sublist 0 _).subset hb)

theorem RootBlock.ino_ne_zero {fs : State} (h : RootBlock fs) (hfree : findFreeInode fs = some ino) :
    ino ≠ 0 := by
  rintro rfl
  have := (findFreeInode_some.mp hfree).1.2
  rw [h.dir] at this
  exact absurd this (by decide)

/-- The root's block is not among the collected ones. -/
theorem RootBlock.not_collected {fs : State} {numBlocks : ℕ} (h : RootBlock fs) :
    rootLba fs ∉ takenFrom numBlocks 0 (freeList fs.blockBitmap) := by
  intro hmem
  have := (Bitmap.mem_clearBits.mp (mem_takenFrom hmem)).2
  rw [h.marked] at this
  exact absurd this (by decide)

theorem hostInodesAfter_zero (hino : ino ≠ 0) :
    (hostInodesAfter disk data ino assigned).get 0 = (pafsInitRead disk).inode 0 :=
  Table.get_set_ne _ (Ne.symm hino) _

theorem hostRootBlock_eq (h : RootBlock (pafsInitRead disk)) (hino : ino ≠ 0) {numBlocks : ℕ}
    (ha : assigned = takenFrom numBlocks 0 (freeList (disk lbaBitmap))) :
    hostRootBlock disk data ino assigned =
      (pafsInitRead disk).disk (rootLba (pafsInitRead disk)) := by
  unfold hostRootBlock
  rw [hostInodesAfter_zero hino]
  refine writeChunks_of_not_mem ?_
  rw [ha]
  exact h.not_collected

/-- **A successful call**: what it has found, and what it has done. -/
theorem Added.hostStep {bitmap : Sector} (h : RootBlock (pafsInitRead disk))
    (ha : Added disk data name disk' ino bitmap assigned i chars) :
    Choice (pafsInitRead disk) data name ino assigned i chars ∧
      HostStep (pafsInitRead disk) data ino assigned i chars (pafsInitRead disk') := by
  have hino := h.ino_ne_zero ha.free
  have hlt := (findFreeInode_some.mp ha.free).1.1
  obtain ⟨hbitmap, hassigned⟩ := Prod.mk.inj (ha.collected.symm.trans (collectBlocks_all _))
  have hzero : (hostInodesAfter disk data ino assigned).get 0 = _ := hostInodesAfter_zero hino
  have hblock : hostRootBlock disk data ino assigned = _ := hostRootBlock_eq h hino hassigned
  have hnames := ha.names
  have hslot := ha.slot
  have hsaved := ha.saved
  rw [hblock] at hnames hslot hsaved
  obtain ⟨hblocks, hinodes, hsize⟩ := saveChanges_added_iff.mp (congrArg Prod.snd hsaved)
  -- no chunk goes to the superblock
  have hsb : Superblock.ofSector (disk lbaSuperblock) =
      Superblock.ofSector (writeChunks data 0 assigned disk lbaSuperblock) := by
    rw [writeChunks_of_not_mem]
    intro hmem
    rw [hassigned] at hmem
    have := (Bitmap.mem_clearBits.mp (@mem_takenFrom (pafsInitRead disk) _ _ hmem)).1.1
    unfold lbaSuperblock at this
    omega
  obtain ⟨hview, hdisk⟩ := initRead_saveChanges hsb (by rw [hzero]; exact h.data) hsaved
  rw [hzero] at hsize hview hdisk
  have hinode : ∀ j, (pafsInitRead disk').inode j = ((hostInodesAfter disk data ino assigned).set 0
      { (pafsInitRead disk).inode 0 with
        size := BitVec.ofNat 32 (((pafsInitRead disk).inode 0).size.toNat + 32) }).get j := by
    intro j
    rw [hview]
    rfl
  refine ⟨⟨ha.magic, ha.free, ha.short, hassigned, ha.enough, ha.cap, hnames, hslot, ha.encoded,
    hblocks, hinodes, hsize⟩, ?_, ?_, ?_, fun j hj0 hj => ?_, ?_, ?_, fun lba hlba hne => ?_⟩
  · rw [hview]
    rfl
  · rw [hinode, Table.get_set_self _ (by decide)]
  · rw [hinode, Table.get_set_ne _ hino, Table.get_set_self _ hlt]
  · rw [hinode, Table.get_set_ne _ hj0, Table.get_set_ne _ hj]
    rfl
  · rw [hview, hassigned]
    exact hbitmap
  · exact (hdisk _ h.data).trans (if_pos rfl)
  · exact (hdisk _ hlba).trans (if_neg hne)

/-- A call whose checks pass succeeds. -/
theorem Choice.added (h : RootBlock (pafsInitRead disk))
    (hc : Choice (pafsInitRead disk) data name ino assigned i chars) :
    addFileToPafs disk data name = ((addFileToPafs disk data name).1, .added) := by
  have hino := h.ino_ne_zero hc.free
  have hzero : (hostInodesAfter disk data ino assigned).get 0 = _ := hostInodesAfter_zero hino
  have hblock : hostRootBlock disk data ino assigned = _ := hostRootBlock_eq h hino hc.collected
  have hnames := hc.names
  have hslot := hc.slot
  rw [← hblock] at hnames hslot
  have hsaved : (saveChanges (writeChunks data 0 assigned disk) (pafsInitRead disk).sb
      (hostInodesAfter disk data ino assigned) (assigned.foldl Bitmap.set (disk lbaBitmap))
      (packEntry (hostRootBlock disk data ino assigned) i (BitVec.ofNat 32 ino) chars)
      (blocksFor data)).2 = .added :=
    saveChanges_added_iff.mpr ⟨hc.blocks, hc.inodes, by rw [hzero]; exact hc.size⟩
  have hcollect : collectBlocks (blocksFor data) (List.range' lbaDataStart (4096 - lbaDataStart))
      (disk lbaBitmap) [] = (assigned.foldl Bitmap.set (disk lbaBitmap), assigned) := by
    rw [collectBlocks_all, hc.collected]
    rfl
  have hadd := addFileToPafs_added.mpr ⟨ino, _, assigned, i, chars, hc.magic, hc.free, hc.short,
    hcollect, hc.enough, hc.cap, hnames, hslot, hc.encoded, Prod.ext rfl hsaved⟩
  rw [hadd]

end Root

/-! ## Formatting -/

/-- The superblock of `format_pafs`. -/
def hostSuperblock : Superblock where
  magic := pafsMagic
  totalBlocks := 20480#32
  totalInodes := 128#32
  freeBlocks := BitVec.ofNat 32 (20480 - lbaDataStart)
  freeInodes := BitVec.ofNat 32 (128 - 1)
  rootInode := 0#32
  slack := default

/-- A directory inode of `format_pafs`, with one block. -/
def hostDir (lba : ℕ) : Inode :=
  ⟨pafsTypeDir, 0#32, Table.ofFn fun k => if k = 0 then BitVec.ofNat 32 lba else 0#32⟩

/-- The inode table of `format_pafs`: the root and `mnt`. -/
def hostInodes : Table 128 Inode :=
  ((default : Table 128 Inode).set 0 (hostDir lbaDataStart)).set 1 (hostDir (lbaDataStart + 1))

/-- `struct.pack_into("<I28s", root_dir, 0, 1, b"mnt")` -/
def hostRootDir : Sector :=
  ((default : Sector).setWord 0 1#32).patch 4 28 fun k => [0x6D#8, 0x6E#8, 0x74#8].getD k 0#8

/-- `format_pafs` -/
def formatPafs (disk : ℕ → Sector) : ℕ → Sector :=
  let disk := Function.update disk lbaSuperblock hostSuperblock.toSector
  let disk := writeInodes disk hostInodes
  let disk := Function.update disk lbaBitmap
    ((List.range (lbaDataStart + 2)).foldl Bitmap.set default)
  let disk := Function.update disk lbaDataStart hostRootDir
  Function.update disk (lbaDataStart + 1) default

/-- The image after a sequence of successful calls, `none` if one of them fails. -/
def addAll (disk : ℕ → Sector) : List (List Byte × List Char) → Option (ℕ → Sector)
  | [] => some disk
  | (data, name) :: files =>
    let (disk, result) := addFileToPafs disk data name
    if result = .added then addAll disk files else none

end PekerOS.Pafs
