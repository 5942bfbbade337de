import PekerOS.Fs.Pafs.WriteThrough

/-!
# PAFS: what the next `pafs_init` reads

After every call the inodes and the bitmap on the disk are those in memory, and so is the superblock but for
the number of free inodes. `pafs_init` therefore reads back what memory was; and of a sector that has been
written since, what the writer had in memory.

## Main definitions

* `SuperblockSaved`, `Recoverable`: the disk is what memory says, but for the number of free inodes

## Main results

* `Recoverable.step`, `Recoverable.of_reachable`: every call, and every run, ends with such a disk
* `Recoverable.pafsInitRead_eq`: reading it gives memory back
* `pafsInitRead_update_data`, `pafsInitRead_update_save`: one sector more is written
-/

namespace PekerOS.Pafs

/-- The superblock on the disk is that in memory, but for the number of free inodes. -/
structure SuperblockSaved (fs : State) : Prop where
  sector : ∃ c, fs.disk 0 = { fs.sb with freeInodes := c }.toSector
  magic : fs.sb.magic = pafsMagic

/-- The disk is what memory says, but for the number of free inodes. -/
structure Recoverable (fs : State) : Prop where
  metadata : SyncedBut {0} fs
  superblock : SuperblockSaved fs

namespace SuperblockSaved

variable {fs fs' : State}

theorem congr (h : SuperblockSaved fs) (hdisk : fs'.disk 0 = fs.disk 0)
    (hsb : { fs'.sb with freeInodes := 0#32 } = { fs.sb with freeInodes := 0#32 }) :
    SuperblockSaved fs' := by
  obtain ⟨⟨c, hc⟩, hmagic⟩ := h
  refine ⟨⟨c, ?_⟩, (congrArg Superblock.magic hsb).trans hmagic⟩
  rw [hdisk, hc]
  exact congrArg (fun sb : Superblock => { sb with freeInodes := c }.toSector) hsb.symm

/-- The superblock has just been written. -/
theorem of_eq (h : fs.disk 0 = fs.sb.toSector) (hmagic : fs.sb.magic = pafsMagic) :
    SuperblockSaved fs :=
  ⟨⟨fs.sb.freeInodes, h⟩, hmagic⟩

theorem diskWrite (h : SuperblockSaved fs) {lba : ℕ} (hlba : lba ≠ 0) (buf : Sector) :
    SuperblockSaved (pafsDiskWrite fs lba buf) :=
  h.congr (disk_pafsDiskWrite_ne fs hlba.symm buf) rfl

theorem setInode (h : SuperblockSaved fs) (i : ℕ) (record : Inode) :
    SuperblockSaved (fs.setInode i record) :=
  h.congr rfl rfl

theorem saveInode (h : SuperblockSaved fs) (ino : ℕ) : SuperblockSaved (pafsSaveInode fs ino) :=
  h.diskWrite (by unfold lbaInodesStart; omega) _

theorem newInode (h : SuperblockSaved fs) (ino : ℕ) (isDir : Bool) :
    SuperblockSaved (Pafs.newInode fs ino isDir) :=
  h.congr rfl rfl

/-- `alloc_block` writes it last. -/
theorem takeBlock (h : SuperblockSaved fs) (b : ℕ) : SuperblockSaved (Pafs.takeBlock fs b) :=
  of_eq (disk_pafsDiskWrite_self _ _ _) h.magic

theorem growDir {b : ℕ} (h : SuperblockSaved fs) (d m : ℕ) (hb : 18 ≤ b) :
    SuperblockSaved (Pafs.growDir fs d m b) :=
  ((h.takeBlock b).setInode d _).diskWrite (by omega) _

theorem putEntry {d n ino : ℕ} (h : SuperblockSaved fs) (name : CString)
    (hblock : 18 ≤ (fs.block d (n / 16)).toNat) : SuperblockSaved (Pafs.putEntry fs d n name ino) :=
  ((h.diskWrite (by omega) _).setInode d _).saveInode d

theorem ensureBlock {ino i : ℕ} (h : SuperblockSaved fs) (he : Pafs.ensureBlock fs ino i = some fs') :
    SuperblockSaved fs' := by
  unfold Pafs.ensureBlock at he
  split at he
  · obtain ⟨⟨fs₁, b⟩, halloc, rfl⟩ := Option.map_eq_some_iff.mp he
    obtain ⟨b', -, heq⟩ := Option.map_eq_some_iff.mp halloc
    obtain ⟨rfl, rfl⟩ := Prod.mk.inj heq
    exact (h.takeBlock b').setInode ino _
  · obtain rfl := Option.some.inj he
    exact h

theorem writeLoop {ino i r done len : ℕ} {data : ℕ → Byte} (h : SuperblockSaved fs) (hinv : Inv fs)
    (ht : (fs.inode ino).type = pafsTypeFile) (hr : i + r = 14) :
    SuperblockSaved (Pafs.writeLoop ino data len r fs i done).1 := by
  induction r generalizing fs i done with
  | zero => exact h
  | succ r ih =>
    rw [Pafs.writeLoop]
    split
    · cases he : Pafs.ensureBlock fs ino i with
      | none => exact h
      | some fs₁ =>
        obtain ⟨hinv₁, ho₁, hne⟩ := hinv.ensureBlock ht (by omega) he
        have ht₁ := ho₁.type.trans ht
        have hdata := hinv₁.data hne
        obtain ⟨hinv₂, ho₂⟩ := hinv₁.writeBlock ht₁ i
          ((default : Sector).patch 0 (min (len - done) 512) fun k => data (done + k))
        exact ih ((h.ensureBlock he).diskWrite (by omega) _) hinv₂ (ho₂.type.trans ht₁) (by omega)
    · exact h

theorem vfsWriteLoop {ino i r off done size : ℕ} {buffer : ℕ → Byte} (h : SuperblockSaved fs)
    (hinv : Inv fs) (ht : (fs.inode ino).type = pafsTypeFile) (hr : r = 0 ∨ i + r = 14) :
    SuperblockSaved (Pafs.vfsWriteLoop ino buffer size r fs i off done).1 := by
  induction r generalizing fs i off done with
  | zero => exact h
  | succ r ih =>
    rw [Pafs.vfsWriteLoop]
    split
    · cases he : Pafs.ensureBlock fs ino i with
      | none => exact h
      | some fs₁ =>
        obtain ⟨hinv₁, ho₁, hne⟩ := hinv.ensureBlock ht (by omega) he
        have ht₁ := ho₁.type.trans ht
        have hdata := hinv₁.data hne
        have hwrite := fun buf => hinv₁.writeBlock ht₁ i buf
        exact ih ((h.ensureBlock he).diskWrite (by omega) _) (hwrite _).1
          ((hwrite _).2.type.trans ht₁) (by omega)
    · exact h

theorem magic_releaseInode (fs : State) (ino : ℕ) :
    (Pafs.releaseInode fs ino).sb.magic = fs.sb.magic := by
  have hloop : ∀ (slots : List ℕ) (fs : State),
      (slots.foldl (freeBlock ino) fs).sb.magic = fs.sb.magic := by
    intro slots
    induction slots with
    | nil => exact fun _ => rfl
    | cons s slots ih =>
      intro fs
      rw [List.foldl_cons, ih, freeBlock]
      split <;> rfl
  exact hloop (List.range 14) fs

end SuperblockSaved

namespace Recoverable

section Operations

variable {k : Kernel} {fs fs' : State}

theorem created {d new n m : ℕ} {name : CString} {isDir : Bool} {mid : State} (h : Recoverable fs)
    (hcr : Created fs d name isDir new n m mid fs') : Recoverable fs' := by
  have hmid : SyncedBut {0, inodeLba new, inodeLba d} mid ∧ SuperblockSaved mid := by
    have hnew := h.metadata.newInode (i := new) isDir
    rcases hcr.mid_eq with heq | ⟨m', b, -, -, -, hb, -, heq⟩
    · rw [heq]
      refine ⟨hnew.mono ?_, h.superblock.newInode new isDir⟩
      simp [Set.insert_subset_iff]
    · have hdata := (mem_clearBits_of_findFreeBlock hb).1.1
      rw [heq]
      refine ⟨(hnew.growDir hdata).mono ?_, (h.superblock.newInode new isDir).growDir d m' hdata⟩
      rintro lba (⟨hs, hne⟩ | hd)
      · simp_all
      · exact Or.inr (Or.inr hd)
  rw [hcr.result]
  refine ⟨((hmid.1.putEntry hcr.parent_lt hcr.block_data name).saveInode hcr.new_lt).mono ?_,
    (hmid.2.putEntry name hcr.block_data).saveInode new⟩
  rintro lba ⟨⟨hs, hne⟩, hne'⟩
  simp_all

theorem deleted {d ino t n m : ℕ} {name : CString} (hinv : Inv fs) (h : Recoverable fs)
    (hdel : Deleted fs d name ino t n m fs') : Recoverable fs' := by
  have hrel := hinv.releaseInode hdel.ino_lt hdel.ino_ne_zero
  have hlt := hdel.lt
  have hle := hdel.layout.le
  have hblock : ∀ s < 16 * m, 18 ≤ ((releaseInode fs ino).block d (s / 16)).toNat :=
    fun s hs => hrel.data (hdel.release.layout.block_ne_zero (by omega))
  have hstale := (@SyncedBut.releaseInode _ _ ino h.metadata).dropEntry hdel.parent_lt
    (hblock t (by omega)) (hblock (n - 1) (by omega))
  have hdrop : (dropEntry (releaseInode fs ino) d t n).sb = (releaseInode fs ino).sb := by
    unfold dropEntry
    dsimp only
    split <;> rfl
  rw [hdel.result]
  constructor
  · refine (hstale.saveSuperblock.saveBitmap.saveInode hdel.ino_lt).mono ?_
    rintro lba ⟨⟨⟨⟨hs, -⟩, h0⟩, h17⟩, hne⟩
    simp_all
  · have hsaved : SuperblockSaved (pafsSaveSuperblock (dropEntry (releaseInode fs ino) d t n)) := by
      refine SuperblockSaved.of_eq (disk_pafsDiskWrite_self _ _ _) ?_
      change (dropEntry (releaseInode fs ino) d t n).sb.magic = _
      rw [hdrop, SuperblockSaved.magic_releaseInode]
      exact h.superblock.magic
    exact (hsaved.diskWrite (by decide) _).saveInode ino

theorem writeFile (hinv : Inv k.fs) (h : Recoverable k.fs) (ino : ℕ) (data : ℕ → Byte) (len : ℤ) :
    Recoverable (pafsWriteFile k ino data len).1.fs := by
  refine pafsWriteFile_keeps h fun ht => ?_
  have hlt : ino < 128 := State.lt_of_type_ne (by rw [ht]; decide)
  have hloop := @SyncedBut.writeLoop _ _ ino 0 14 0 len.toNat data h.metadata hinv ht rfl
  rw [fs_pafsWriteFile ht]
  refine ⟨((hloop.setInode _).saveInode hlt).mono ?_,
    ((h.superblock.writeLoop hinv ht rfl).setInode ino _).saveInode ino⟩
  rintro lba ⟨hs, hne⟩
  simp_all

theorem vfsWrite (hinv : Inv k.fs) (h : Recoverable k.fs) (ino : ℕ) (offset size : Word)
    (buffer : ℕ → Byte) : Recoverable (pafsVfsWrite k ino offset size buffer).1.fs := by
  refine pafsVfsWrite_keeps h fun ht => ?_
  have hlt : ino < 128 := State.lt_of_type_ne (by rw [ht]; decide)
  have hloop := @SyncedBut.vfsWriteLoop _ _ ino (offset.toNat / 512) (14 - offset.toNat / 512)
    (offset.toNat % 512) 0 size.toNat buffer h.metadata hinv ht (by omega)
  have hsaved := @SuperblockSaved.vfsWriteLoop _ ino (offset.toNat / 512)
    (14 - offset.toNat / 512) (offset.toNat % 512) 0 size.toNat buffer h.superblock hinv ht (by omega)
  rw [fs_pafsVfsWrite ht]
  dsimp only
  split
  · refine ⟨((hloop.setInode _).saveInode hlt).mono ?_, (hsaved.setInode ino _).saveInode ino⟩
    rintro lba ⟨hs, hne⟩
    simp_all
  · refine ⟨(hloop.saveInode hlt).mono ?_, hsaved.saveInode ino⟩
    rintro lba ⟨hs, hne⟩
    simp_all

theorem format (fs : State) : Recoverable (formatState fs) where
  metadata := (synced_iff.mp (Synced.format fs)).mono (Set.empty_subset _)
  superblock := by
    refine SuperblockSaved.of_eq (Synced.format fs).superblock ?_
    rw [formatState_eq, saveMetadata_eq]
    rfl

end Operations

/-- **Every call** ends with a disk that can be read back. -/
theorem step {k : Kernel} (hinv : Inv k.fs) (h : Recoverable k.fs) (op : Op) :
    Recoverable (Pafs.step k op).fs := by
  cases op with
  | create parentIno name isDir =>
    exact pafsCreate_keeps hinv parentIno.isLt name isDir h h.created
  | mkdir parentIno name => exact pafsCreate_keeps hinv parentIno.isLt name true h h.created
  | delete parentIno name => exact pafsDelete_keeps hinv parentIno name h (deleted hinv h)
  | write name data len =>
    exact pafsWrite_keeps hinv name data len h h.created fun ino hinv' h' =>
      writeFile hinv' h' ino data len
  | vfsWrite ino offset size buffer => exact vfsWrite hinv h ino offset size buffer
  | format =>
    rw [Pafs.step, fs_pafsFormat]
    exact format k.fs

/-- So does every run. -/
theorem of_reachable {k : Kernel} (h : Reachable k) : Recoverable k.fs := by
  obtain ⟨k₀, ops, rfl⟩ := h
  have hrun : Inv (run (pafsFormat k₀) ops).fs ∧ Recoverable (run (pafsFormat k₀) ops).fs := by
    refine invariant_run (I := fun k : Kernel => Inv k.fs ∧ Recoverable k.fs)
      (fun h => ⟨h.1.step _, h.2.step h.1 _⟩) ?_
    rw [fs_pafsFormat]
    exact ⟨Inv.format k₀.fs, format k₀.fs⟩
  exact hrun.2

end Recoverable

/-- Reading such a disk gives memory back, but for the number of free inodes. -/
theorem Recoverable.pafsInitRead_eq {fs : State} (h : Recoverable fs) :
    ∃ c, pafsInitRead fs.disk = { fs with sb := { fs.sb with freeInodes := c } } := by
  obtain ⟨c, hc⟩ := h.superblock.sector
  refine ⟨c, ?_⟩
  have hsb : Superblock.ofSector (fs.disk lbaSuperblock) = { fs.sb with freeInodes := c } := by
    rw [show fs.disk lbaSuperblock = _ from hc, Superblock.ofSector_toSector]
  have hinodes : loadInodes fs.disk = fs.inodes := by
    refine loadInodes_of_sectors fun k hk => ?_
    have := h.metadata (1 + k) (by omega) (by simp)
    rwa [metaSector, if_neg (by omega), if_pos (by omega), Nat.add_sub_cancel_left] at this
  have hmap : fs.disk lbaBitmap = fs.blockBitmap := h.metadata 17 (by omega) (by simp)
  rw [pafsInitRead, hsb, hinodes, hmap]

/-! ## One sector more -/

section Update

variable {mem : State} {disk : ℕ → Sector} {lba i : ℕ}

theorem inode_pafsInitRead (hi : i < 128) :
    (pafsInitRead disk).inode i = inodeAt (disk (1 + i / 8)) (i % 8) := by
  change (loadInodes disk).get i = _
  rw [loadInodes, Table.get_ofFn _ hi]

theorem pafsInitRead_update_data (hlba : 18 ≤ lba) (buf : Sector) :
    pafsInitRead (Function.update disk lba buf) = pafsDiskWrite (pafsInitRead disk) lba buf := by
  have hne : ∀ l < 18, Function.update disk lba buf l = disk l := fun l hl =>
    Function.update_of_ne (by omega) _ _
  have hinodes : loadInodes (Function.update disk lba buf) = loadInodes disk := by
    refine Table.ext_get fun i hi => ?_
    rw [loadInodes, Table.get_ofFn _ hi, hne _ (by unfold lbaInodesStart; omega), loadInodes,
      Table.get_ofFn _ hi]
  rw [pafsInitRead, hinodes, hne lbaSuperblock (by decide), hne lbaBitmap (by decide)]
  rfl

/-- A metadata sector is saved: the superblock, eight inodes, or the bitmap come from memory. -/
theorem pafsInitRead_update_save (disk : ℕ → Sector) (hlba : lba < 18) :
    let old := pafsInitRead disk
    let new := pafsInitRead (Function.update disk lba (metaSector mem lba))
    (new.sb = old.sb ∨ new.sb = mem.sb) ∧
      (∀ i, new.inode i = old.inode i ∨ new.inode i = mem.inode i) ∧
      (new.blockBitmap = old.blockBitmap ∨ new.blockBitmap = mem.blockBitmap) := by
  intro old new
  refine ⟨?_, fun i => ?_, ?_⟩
  · by_cases h0 : lba = 0
    · right
      subst h0
      change Superblock.ofSector (Function.update disk 0 mem.sb.toSector 0) = _
      rw [Function.update_self, Superblock.ofSector_toSector]
    · left
      change Superblock.ofSector (Function.update disk lba _ 0) = _
      rw [Function.update_of_ne (Ne.symm h0)]
      rfl
  · by_cases hi : i < 128
    · by_cases heq : 1 + i / 8 = lba
      · right
        have hsector : metaSector mem lba = inodeSector mem.inodes (i / 8) := by
          rw [metaSector, if_neg (by omega), if_pos (by omega), ← heq, Nat.add_sub_cancel_left]
        rw [inode_pafsInitRead hi, heq, Function.update_self, hsector,
          inodeAt_inodeSector _ _ (Nat.mod_lt _ (by decide)), Nat.div_add_mod]
        rfl
      · left
        rw [inode_pafsInitRead hi, inode_pafsInitRead hi, Function.update_of_ne heq]
    · exact Or.inl ((State.inode_of_le _ (by omega)).trans (State.inode_of_le _ (by omega)).symm)
  · by_cases h17 : lba = 17
    · right
      subst h17
      exact Function.update_self 17 (metaSector mem 17) disk
    · left
      change Function.update disk lba _ 17 = disk 17
      exact Function.update_of_ne (Ne.symm h17) _ _

end Update

end PekerOS.Pafs
