import PekerOS.Fs.Pafs.Entries

/-!
# PAFS: the metadata on disk

Memory and disk agree when each of the 18 metadata sectors holds what memory says. A change in
memory makes the sectors it touches stale, and each saving function makes one of them fresh again:
the proofs follow the set of stale sectors through every operation. Only one of them can end stale.
`pafs_create` counts the new inode in the superblock and leaves saving it to `alloc_block`, which runs
only when the directory needs a new block.

## Main definitions

* `metaSector fs lba`: what memory says a metadata sector holds
* `SyncedBut stale fs`, `Synced fs`: the sectors outside `stale` hold it; all of them do
* `FillsOldBlock fs d name`: `pafs_create` succeeds without a new directory block
* `SavesSuperblock k op`: the call saves the superblock if it changes the inode counter

## Main results

* `Synced.pafsInitRead_eq`: reading a synced disk gives the state back
* `synced_step_iff`: one call
* `run_synced_iff`: **a run keeps disk and memory equal exactly when all its calls save the superblock**
-/

namespace PekerOS.Pafs

/-- The contents of metadata sector `lba` according to memory. -/
def metaSector (fs : State) (lba : ℕ) : Sector :=
  if lba = 0 then fs.sb.toSector
  else if lba < 17 then inodeSector fs.inodes (lba - 1)
  else fs.blockBitmap

/-- The metadata sectors outside `stale` are on disk as they are in memory. -/
def SyncedBut (stale : Set ℕ) (fs : State) : Prop :=
  ∀ lba < 18, lba ∉ stale → fs.disk lba = metaSector fs lba

/-- The superblock, the inode table and the bitmap are on disk as they are in memory. -/
structure Synced (fs : State) : Prop where
  superblock : fs.disk 0 = fs.sb.toSector
  inodes : ∀ k < 16, fs.disk (1 + k) = inodeSector fs.inodes k
  bitmap : fs.disk 17 = fs.blockBitmap

/-- The sector of an inode. -/
def inodeLba (ino : ℕ) : ℕ := lbaInodesStart + ino / 8

/-- `pafs_create` succeeds, and an allocated block of the directory has room for the entry. -/
def FillsOldBlock (fs : State) (d : ℕ) (name : CString) : Prop :=
  fs.sb.freeInodes ≠ 0#32 ∧ pafsFindEntry fs d name = -1 ∧ findFreeInode fs ≠ none ∧
    (fs.inode d).type = pafsTypeDir ∧
    ∃ s, fs.block d (s / 16) ≠ 0#32 ∧ slotInode fs.disk (fs.inode d) s = 0#32

/-- The call is not one that counts a new inode and allocates no block after that. -/
def SavesSuperblock (k : Kernel) : Op → Prop
  | .create parentIno name _ => ¬FillsOldBlock k.fs parentIno name
  | .mkdir parentIno name => ¬FillsOldBlock k.fs parentIno name
  | .write name _ len =>
    FillsOldBlock k.fs k.fs.sb.rootInode.toNat name → 0 < len ∧ findFreeBlock k.fs ≠ none
  | _ => True

section Synced

variable {fs fs' : State} {stale stale' : Set ℕ}

theorem synced_iff : Synced fs ↔ SyncedBut ∅ fs := by
  constructor
  · intro h lba hlba _
    unfold metaSector
    split
    · next h0 => rw [h0, h.superblock]
    · split
      · next h0 h17 =>
        have := h.inodes (lba - 1) (by omega)
        rwa [show 1 + (lba - 1) = lba by omega] at this
      · rw [show lba = 17 by omega, h.bitmap]
  · intro h
    refine ⟨h 0 (by omega) id, fun k hk => ?_, h 17 (by omega) id⟩
    have := h (1 + k) (by omega) id
    rwa [metaSector, if_neg (by omega), if_pos (by omega), Nat.add_sub_cancel_left] at this

/-- Reading a synced disk gives the state back. -/
theorem Synced.pafsInitRead_eq (h : Synced fs) : pafsInitRead fs.disk = fs := by
  have hsb : Superblock.ofSector (fs.disk lbaSuperblock) = fs.sb := by
    rw [show fs.disk lbaSuperblock = fs.sb.toSector from h.superblock, Superblock.ofSector_toSector]
  have hinodes : loadInodes fs.disk = fs.inodes := loadInodes_of_sectors h.inodes
  rw [pafsInitRead, hsb, hinodes, show fs.disk lbaBitmap = fs.blockBitmap from h.bitmap]

namespace SyncedBut

theorem mono (h : SyncedBut stale fs) (hsub : stale ⊆ stale') : SyncedBut stale' fs :=
  fun lba hlba hmem => h lba hlba fun hs => hmem (hsub hs)

/-- A change in memory. -/
theorem change (h : SyncedBut stale fs) (hdisk : fs'.disk = fs.disk)
    (hmeta : ∀ lba < 18, lba ∉ stale' → metaSector fs' lba = metaSector fs lba) :
    SyncedBut (stale ∪ stale') fs' := by
  intro lba hlba hmem
  rw [hdisk, hmeta lba hlba fun hs => hmem (Or.inr hs)]
  exact h lba hlba fun hs => hmem (Or.inl hs)

/-- A write outside the metadata. -/
theorem diskWrite (h : SyncedBut stale fs) {lba : ℕ} (hdata : 18 ≤ lba) (buf : Sector) :
    SyncedBut stale (pafsDiskWrite fs lba buf) := by
  intro l hl hmem
  rw [disk_pafsDiskWrite_ne _ (by omega)]
  exact h l hl hmem

/-- A metadata sector is saved. -/
theorem save (h : SyncedBut stale fs) (lba : ℕ) :
    SyncedBut (stale \ {lba}) (pafsDiskWrite fs lba (metaSector fs lba)) := by
  intro l hl hmem
  by_cases heq : l = lba
  · subst heq
    exact disk_pafsDiskWrite_self _ _ _
  · rw [disk_pafsDiskWrite_ne _ heq]
    exact h l hl fun hs => hmem ⟨hs, heq⟩

theorem saveSuperblock (h : SyncedBut stale fs) : SyncedBut (stale \ {0}) (pafsSaveSuperblock fs) :=
  h.save 0

theorem saveBitmap (h : SyncedBut stale fs) : SyncedBut (stale \ {17}) (pafsSaveBitmap fs) :=
  h.save 17

theorem metaSector_inodeLba {ino : ℕ} (hlt : ino < 128) :
    metaSector fs (inodeLba ino) = inodeSector fs.inodes (ino / 8) := by
  unfold metaSector inodeLba lbaInodesStart
  rw [if_neg (by omega), if_pos (by omega), Nat.add_sub_cancel_left]

theorem saveInode {ino : ℕ} (h : SyncedBut stale fs) (hlt : ino < 128) :
    SyncedBut (stale \ {inodeLba ino}) (pafsSaveInode fs ino) := by
  have := h.save (inodeLba ino)
  rwa [metaSector_inodeLba hlt] at this

theorem setInode {i : ℕ} (h : SyncedBut stale fs) (record : Inode) :
    SyncedBut (stale ∪ {inodeLba i}) (fs.setInode i record) := by
  refine h.change rfl fun lba hlba hmem => ?_
  have hne : lba ≠ inodeLba i := hmem
  unfold inodeLba lbaInodesStart at hne
  unfold metaSector
  split
  · rfl
  · split
    · exact inodeSector_set_ne _ (by omega) _
    · rfl

/-- The superblock in memory changes. -/
theorem setSb (h : SyncedBut stale fs) (sb : Superblock) :
    SyncedBut (stale ∪ {0}) { fs with sb := sb } := by
  refine h.change rfl fun lba hlba hmem => ?_
  have hne : lba ≠ 0 := hmem
  unfold metaSector
  rw [if_neg hne, if_neg hne]

/-- The bitmap in memory changes. -/
theorem setBitmap (h : SyncedBut stale fs) (m : Table 512 Byte) :
    SyncedBut (stale ∪ {17}) { fs with blockBitmap := m } := by
  refine h.change rfl fun lba hlba hmem => ?_
  have hne : lba ≠ 17 := hmem
  unfold metaSector
  split
  · rfl
  · rw [if_pos (by omega), if_pos (by omega)]

/-! ### Pieces of the operations -/

/-- `alloc_block` saves the bitmap and the superblock. -/
theorem takeBlock (h : SyncedBut stale fs) (b : ℕ) :
    SyncedBut (stale \ {0, 17}) (Pafs.takeBlock fs b) := by
  have hset := h.setBitmap (Bitmap.set fs.blockBitmap b)
  have hcount := hset.setSb { fs.sb with freeBlocks := fs.sb.freeBlocks - 1#32 }
  refine hcount.saveBitmap.saveSuperblock.mono ?_
  rintro lba ⟨⟨(hs | h17) | h0, hne17⟩, hne0⟩
  · exact ⟨hs, by simp_all⟩
  · exact absurd h17 hne17
  · exact absurd h0 hne0

theorem growDir {d m b : ℕ} (h : SyncedBut stale fs) (hb : 18 ≤ b) :
    SyncedBut (stale \ {0, 17} ∪ {inodeLba d}) (Pafs.growDir fs d m b) :=
  ((h.takeBlock b).setInode _).diskWrite hb _

theorem putEntry {d n ino : ℕ} (h : SyncedBut stale fs) (hd : d < 128)
    (hblock : 18 ≤ (fs.block d (n / 16)).toNat) (name : CString) :
    SyncedBut (stale \ {inodeLba d}) (Pafs.putEntry fs d n name ino) := by
  refine (((h.diskWrite hblock _).setInode _).saveInode hd).mono ?_
  rintro lba ⟨hs | hd, hne⟩
  · exact ⟨hs, hne⟩
  · exact absurd hd hne

theorem dropEntry {d t n : ℕ} (h : SyncedBut stale fs) (hd : d < 128)
    (ht : 18 ≤ (fs.block d (t / 16)).toNat) (hlast : 18 ≤ (fs.block d ((n - 1) / 16)).toNat) :
    SyncedBut (stale \ {inodeLba d}) (Pafs.dropEntry fs d t n) := by
  have hswap : ∀ buf, SyncedBut stale
      (if t ≠ n - 1 then pafsDiskWrite fs (fs.block d (t / 16)).toNat buf else fs) := by
    intro buf
    split
    · exact h.diskWrite ht buf
    · exact h
  refine ((((hswap _).diskWrite hlast _).setInode _).saveInode hd).mono ?_
  rintro lba ⟨hs | hd, hne⟩
  · exact ⟨hs, hne⟩
  · exact absurd hd hne

theorem newInode {i : ℕ} (h : SyncedBut stale fs) (isDir : Bool) :
    SyncedBut (stale ∪ {0, inodeLba i}) (Pafs.newInode fs i isDir) := by
  refine ((h.setInode _).setSb _).mono ?_
  rintro lba ((hs | hino) | h0)
  · exact Or.inl hs
  · exact Or.inr (Or.inr hino)
  · exact Or.inr (Or.inl h0)

theorem freeBlock {ino s : ℕ} (h : SyncedBut stale fs) :
    SyncedBut (stale ∪ {0, 17, inodeLba ino}) (Pafs.freeBlock ino fs s) := by
  unfold Pafs.freeBlock
  split
  · refine (((h.setBitmap _).setSb _).setInode _).mono ?_
    rintro lba (((hs | h17) | h0) | hino)
    · exact Or.inl hs
    · exact Or.inr (Or.inr (Or.inl h17))
    · exact Or.inr (Or.inl h0)
    · exact Or.inr (Or.inr (Or.inr hino))
  · exact h.mono Set.subset_union_left

theorem releaseInode {ino : ℕ} (h : SyncedBut stale fs) :
    SyncedBut (stale ∪ {0, 17, inodeLba ino}) (Pafs.releaseInode fs ino) := by
  have hloop : ∀ (slots : List ℕ) (fs : State), SyncedBut (stale ∪ {0, 17, inodeLba ino}) fs →
      SyncedBut (stale ∪ {0, 17, inodeLba ino}) (slots.foldl (Pafs.freeBlock ino) fs) := by
    intro slots
    induction slots with
    | nil => exact fun fs h => h
    | cons s slots ih =>
      intro fs h
      refine ih _ (h.freeBlock.mono ?_)
      rw [Set.union_assoc, Set.union_self]
  have hfreed := hloop (List.range 14) fs (h.mono Set.subset_union_left)
  refine ((hfreed.setInode _).setSb _).mono ?_
  rintro lba ((hs | hino) | h0)
  · exact hs
  · exact Or.inr (Or.inr (Or.inr hino))
  · exact Or.inr (Or.inl h0)

/-- Taking a block for a file leaves at most its inode stale. -/
theorem ensureBlock {ino i : ℕ} (h : SyncedBut stale fs)
    (he : Pafs.ensureBlock fs ino i = some fs') : SyncedBut (stale ∪ {inodeLba ino}) fs' := by
  unfold Pafs.ensureBlock at he
  split at he
  · obtain ⟨⟨fs₁, b⟩, halloc, rfl⟩ := Option.map_eq_some_iff.mp he
    obtain ⟨b', -, heq⟩ := Option.map_eq_some_iff.mp halloc
    obtain ⟨rfl, rfl⟩ := Prod.mk.inj heq
    exact ((h.takeBlock b').setInode _).mono (Set.union_subset_union_left _ Set.sdiff_subset)
  · obtain rfl := Option.some.inj he
    exact h.mono Set.subset_union_left

/-- The loop of `pafs_write` leaves at most the file's inode stale. -/
theorem writeLoop {ino i r done len : ℕ} {data : ℕ → Byte} (h : SyncedBut stale fs) (hinv : Inv fs)
    (ht : (fs.inode ino).type = pafsTypeFile) (hr : i + r = 14) :
    SyncedBut (stale ∪ {inodeLba ino}) (Pafs.writeLoop ino data len r fs i done).1 := by
  induction r generalizing fs i done stale with
  | zero => exact h.mono Set.subset_union_left
  | succ r ih =>
    rw [Pafs.writeLoop]
    split
    · cases he : Pafs.ensureBlock fs ino i with
      | none => exact h.mono Set.subset_union_left
      | some fs₁ =>
        obtain ⟨hinv₁, ho₁, hne⟩ := hinv.ensureBlock ht (by omega) he
        have ht₁ := ho₁.type.trans ht
        have hwrite := fun buf => hinv₁.writeBlock ht₁ i buf
        have hrest := fun buf => @ih _ _ (i + 1) (done + min (len - done) 512)
          ((h.ensureBlock he).diskWrite (hinv₁.data hne) buf) (hwrite buf).1
          ((hwrite buf).2.type.trans ht₁) (by omega)
        refine (hrest _).mono ?_
        rw [Set.union_assoc, Set.union_self]
    · exact h.mono Set.subset_union_left

/-- A first block taken by `pafs_write` saves the superblock. -/
theorem writeLoop_alloc {ino len b : ℕ} {data : ℕ → Byte} (h : SyncedBut stale fs) (hinv : Inv fs)
    (ht : (fs.inode ino).type = pafsTypeFile) (hzero : fs.block ino 0 = 0#32)
    (hb : findFreeBlock fs = some b) (hlen : 0 < len) :
    SyncedBut (stale \ {0, 17} ∪ {inodeLba ino}) (Pafs.writeLoop ino data len 14 fs 0 0).1 := by
  have he : Pafs.ensureBlock fs ino 0 =
      some ((Pafs.takeBlock fs b).setBlock ino 0 (BitVec.ofNat 32 b)) := by
    rw [Pafs.ensureBlock, if_pos hzero, allocBlock, hb]
    rfl
  obtain ⟨hinv₁, ho₁, hne⟩ := hinv.ensureBlock ht (by omega) he
  have ht₁ := ho₁.type.trans ht
  have hwrite := fun buf => hinv₁.writeBlock ht₁ 0 buf
  have htake := (h.takeBlock b).setInode (i := ino)
    { fs.inode ino with blocks := (fs.inode ino).blocks.set 0 (BitVec.ofNat 32 b) }
  rw [Pafs.writeLoop, if_pos hlen, he]
  refine (writeLoop (htake.diskWrite (hinv₁.data hne) _) (hwrite _).1
    ((hwrite _).2.type.trans ht₁) rfl).mono ?_
  rw [Set.union_assoc, Set.union_self]

/-- The loop of `pafs_vfs_write` leaves at most the file's inode stale. -/
theorem vfsWriteLoop {ino i r off done size : ℕ} {buffer : ℕ → Byte} (h : SyncedBut stale fs)
    (hinv : Inv fs) (ht : (fs.inode ino).type = pafsTypeFile) (hr : r = 0 ∨ i + r = 14) :
    SyncedBut (stale ∪ {inodeLba ino}) (Pafs.vfsWriteLoop ino buffer size r fs i off done).1 := by
  induction r generalizing fs i off done stale with
  | zero => exact h.mono Set.subset_union_left
  | succ r ih =>
    rw [Pafs.vfsWriteLoop]
    split
    · cases he : Pafs.ensureBlock fs ino i with
      | none => exact h.mono Set.subset_union_left
      | some fs₁ =>
        obtain ⟨hinv₁, ho₁, hne⟩ := hinv.ensureBlock ht (by omega) he
        have ht₁ := ho₁.type.trans ht
        have hwrite := fun buf => hinv₁.writeBlock ht₁ i buf
        have hrest := fun buf => @ih _ _ (i + 1) 0 (done + min (512 - off) (size - done))
          ((h.ensureBlock he).diskWrite (hinv₁.data hne) buf) (hwrite buf).1
          ((hwrite buf).2.type.trans ht₁) (by omega)
        refine (hrest _).mono ?_
        rw [Set.union_assoc, Set.union_self]
    · exact h.mono Set.subset_union_left

/-- Saving an inode after changes that left nothing else stale. -/
theorem finish {ino : ℕ} (h : SyncedBut {inodeLba ino} fs) (hlt : ino < 128) :
    Synced (pafsSaveInode fs ino) := by
  rw [synced_iff]
  exact (h.saveInode hlt).mono (by simp)

end SyncedBut

end Synced

/-! ## The operations -/

section Operations

variable {k : Kernel} {fs fs' : State}

theorem Synced.format (fs : State) : Synced (formatState fs) := by
  rw [formatState_eq, saveMetadata_eq]
  refine ⟨rfl, fun k hk => ?_, rfl⟩
  dsimp only
  rw [if_neg (by omega), if_pos (by omega), Nat.add_sub_cancel_left]

theorem Synced.deleted {d ino t n m : ℕ} {name : CString} (hinv : Inv fs) (h : Synced fs)
    (hdel : Deleted fs d name ino t n m fs') : Synced fs' := by
  have hrel := hinv.releaseInode hdel.ino_lt hdel.ino_ne_zero
  have hlt := hdel.lt
  have hle := hdel.layout.le
  have hblock : ∀ s < 16 * m, 18 ≤ ((Pafs.releaseInode fs ino).block d (s / 16)).toNat :=
    fun s hs => hrel.data (hdel.release.layout.block_ne_zero (by omega))
  have hstale := (@SyncedBut.releaseInode _ _ ino (synced_iff.mp h)).dropEntry hdel.parent_lt
    (hblock t (by omega)) (hblock (n - 1) (by omega))
  rw [hdel.result]
  refine SyncedBut.finish (hstale.saveSuperblock.saveBitmap.mono ?_) hdel.ino_lt
  rintro lba ⟨⟨⟨hs, -⟩, h0⟩, h17⟩
  simp_all

theorem Synced.writeFile (hinv : Inv k.fs) (h : Synced k.fs) (ino : ℕ) (data : ℕ → Byte) (len : ℤ) :
    Synced (pafsWriteFile k ino data len).1.fs := by
  by_cases ht : (k.fs.inode ino).type = pafsTypeFile
  · have hlt : ino < 128 := State.lt_of_type_ne (by rw [ht]; decide)
    rw [fs_pafsWriteFile ht]
    have hloop := @SyncedBut.writeLoop _ _ ino 0 14 0 len.toNat data (synced_iff.mp h) hinv ht rfl
    refine SyncedBut.finish ((hloop.setInode _).mono ?_) hlt
    simp
  · rw [fs_pafsWriteFile_of_not_file ht]
    exact h

theorem Synced.vfsWrite (hinv : Inv k.fs) (h : Synced k.fs) (ino : ℕ) (offset size : Word)
    (buffer : ℕ → Byte) : Synced (pafsVfsWrite k ino offset size buffer).1.fs := by
  by_cases ht : (k.fs.inode ino).type = pafsTypeFile
  · have hlt : ino < 128 := State.lt_of_type_ne (by rw [ht]; decide)
    rw [fs_pafsVfsWrite ht]
    have hloop := @SyncedBut.vfsWriteLoop _ _ ino (offset.toNat / 512) (14 - offset.toNat / 512)
      (offset.toNat % 512) 0 size.toNat buffer (synced_iff.mp h) hinv ht (by omega)
    refine SyncedBut.finish ?_ hlt
    split
    · exact (hloop.setInode _).mono (by simp)
    · exact hloop.mono (by simp)
  · rw [fs_pafsVfsWrite_of_not_file ht]
    exact h

end Operations

/-! ### Creation -/

theorem disk_zero_pafsSaveInode (fs : State) (ino : ℕ) : (pafsSaveInode fs ino).disk 0 = fs.disk 0 :=
  disk_pafsDiskWrite_ne fs (by unfold lbaInodesStart; omega) _

theorem disk_zero_putEntry {fs : State} {d n ino : ℕ} {name : CString}
    (hblock : 18 ≤ (fs.block d (n / 16)).toNat) :
    (putEntry fs d n name ino).disk 0 = fs.disk 0 := by
  rw [putEntry, disk_zero_pafsSaveInode]
  exact disk_pafsDiskWrite_ne fs (by omega) _

section Create

variable {k : Kernel} {fs fs' mid : State} {d new n m : ℕ} {name : CString} {isDir : Bool}

theorem Layout.room_iff (hl : Layout fs.disk (fs.inode d) n m) :
    (∃ s, fs.block d (s / 16) ≠ 0#32 ∧ slotInode fs.disk (fs.inode d) s = 0#32) ↔ n < 16 * m := by
  have hle := hl.le
  constructor
  · rintro ⟨s, hblock, hzero⟩
    have hs : s / 16 < m := by
      by_contra hs
      exact hblock (hl.block_eq_zero (by omega))
    have := (hl.occupied s (by omega)).not.mp (not_not.mpr hzero)
    omega
  · intro hn
    exact ⟨n, hl.block_ne_zero (by omega),
      not_not.mp ((hl.occupied n hn).not.mpr (lt_irrefl n))⟩

/-- A creation fills an old block exactly when it took none. -/
theorem Created.fillsOldBlock_iff (hcr : Created fs d name isDir new n m mid fs') :
    FillsOldBlock fs d name ↔ mid = newInode fs new isDir := by
  have hfree := findFreeInode_free hcr.free
  have hother : d ≠ new → (newInode fs new isDir).inode d = fs.inode d := fun hne =>
    inode_newInode_ne fs hne isDir
  constructor
  · rintro ⟨-, -, -, ht, hroom⟩
    rcases hcr.mid_eq with heq | ⟨m', b, -, hn, -, -, hl, -⟩
    · exact heq
    · -- a new block means that there was no room in the old ones
      have hne : d ≠ new := by
        rintro rfl
        rw [hfree] at ht
        exact absurd ht (by decide)
      rw [hother hne] at hl
      have := (Layout.room_iff hl).mp hroom
      omega
  · intro heq
    have hl := hcr.layout
    have ht := hcr.dir
    have hroom := hcr.room
    rw [heq] at hl ht
    have hne : d ≠ new := by
      rintro rfl
      rw [inode_newInode_self fs hcr.new_lt] at hl
      exact hl.block_ne_zero (i := 0) (by omega) (Table.get_default 0)
    rw [hother hne] at hl ht
    refine ⟨hcr.counter, hcr.absent, ?_, ht, (Layout.room_iff hl).mpr hroom⟩
    rw [hcr.free]
    exact Option.some_ne_none new

/-- A creation that has room for the entry succeeds. -/
theorem FillsOldBlock.not_createFails (h : Inv fs) (hfill : FillsOldBlock fs d name) :
    ¬CreateFails fs d name isDir := by
  obtain ⟨hc, ha, hf, ht, hroom⟩ := hfill
  obtain ⟨new, hnew⟩ := Option.ne_none_iff_exists'.mp hf
  have hne : d ≠ new := by
    rintro rfl
    rw [findFreeInode_free hnew] at ht
    exact absurd ht (by decide)
  obtain ⟨n, m, hl⟩ := h.dirs d ht
  have hn := hl.room_iff.mp hroom
  have hinode := inode_newInode_ne fs hne isDir
  have hadd := @pafsAddEntry_eq (newInode fs new isDir) d n m name new (h.lt_of_dir ht)
    (by rw [hinode]; exact ht) (by rw [hinode]; exact hl)
  rintro (h0 | hfound | hfail)
  · exact hc h0
  · exact hfound ha
  · refine hfail new hnew ?_
    rw [hadd, addEntryResult, if_pos hn]

theorem Created.block_data (hcr : Created fs d name isDir new n m mid fs') :
    18 ≤ (mid.block d (n / 16)).toNat := by
  have := hcr.room
  exact hcr.inv.data (hcr.layout.block_ne_zero (by omega))

/-- With a new block the superblock is saved after the inode is counted. -/
theorem Synced.created_grow (h : Synced fs) (hcr : Created fs d name isDir new n m mid fs')
    (hfill : ¬FillsOldBlock fs d name) : Synced fs' := by
  have hnew := (synced_iff.mp h).newInode (i := new) isDir
  have hmid : SyncedBut {inodeLba new, inodeLba d} mid := by
    rcases hcr.mid_eq with heq | ⟨m', b, -, -, -, hb, -, heq⟩
    · exact absurd (hcr.fillsOldBlock_iff.mpr heq) hfill
    · rw [heq]
      refine (hnew.growDir (mem_clearBits_of_findFreeBlock hb).1.1).mono ?_
      rintro lba (⟨hs, hne⟩ | hd)
      · simp_all
      · exact Or.inr hd
  rw [hcr.result]
  refine SyncedBut.finish ((hmid.putEntry hcr.parent_lt hcr.block_data name).mono ?_) hcr.new_lt
  rintro lba ⟨hs | hs, hne⟩
  · exact hs
  · exact absurd hs hne

/-- Without one, only the superblock is stale. -/
theorem Synced.created_fill (h : Synced fs) (hcr : Created fs d name isDir new n m mid fs')
    (hfill : FillsOldBlock fs d name) : SyncedBut {0} fs' ∧ fs'.disk 0 ≠ fs'.sb.toSector := by
  have hmid := hcr.fillsOldBlock_iff.mp hfill
  have hblock := hcr.block_data
  have hresult := hcr.result
  rw [hmid] at hblock hresult
  have hnew := (synced_iff.mp h).newInode (i := new) isDir
  constructor
  · rw [hresult]
    refine ((hnew.putEntry hcr.parent_lt hblock name).saveInode hcr.new_lt).mono ?_
    rintro lba ⟨⟨hs, -⟩, hne⟩
    simp_all
  · -- the sector still holds the old counter
    have hdisk : fs'.disk 0 = fs.sb.toSector := by
      rw [hresult, disk_zero_pafsSaveInode, disk_zero_putEntry hblock, ← h.superblock]
      rfl
    have hsb := hcr.freeInodes_eq
    intro heq
    have : fs.sb = fs'.sb := by
      rw [← Superblock.ofSector_toSector fs.sb, ← hdisk, heq, Superblock.ofSector_toSector]
    rw [← this] at hsb
    bv_omega

/-- The file just created in an old block has no blocks, and no block was taken for it. -/
theorem Created.fill_new (hcr : Created fs d name isDir new n m mid fs')
    (hfill : FillsOldBlock fs d name) :
    fs'.block new 0 = 0#32 ∧ findFreeBlock fs' = findFreeBlock fs := by
  have hmid := hcr.fillsOldBlock_iff.mp hfill
  have hresult := hcr.result
  rw [hmid] at hresult
  have hne : new ≠ d := by
    rintro rfl
    have ht := hfill.2.2.2.1
    rw [findFreeInode_free hcr.free] at ht
    exact absurd ht (by decide)
  constructor
  · rw [State.block, hresult, (State.SameData.saveInode hcr.new_lt).inode,
      inode_putEntry_ne name new hne, inode_newInode_self fs hcr.new_lt]
    exact Table.get_default 0
  · have hmap : fs'.blockBitmap = fs.blockBitmap := by
      rw [hresult]
      rfl
    simp only [findFreeBlock, pafsBitmapTest, hmap]

theorem synced_create_iff (hinv : Inv k.fs) (h : Synced k.fs) (hd : d < 128) (name : CString)
    (isDir : Bool) :
    Synced (pafsCreate k d name isDir).1.fs ↔ ¬FillsOldBlock k.fs d name := by
  rcases pafsCreate_cases hinv hd name isDir with ⟨hfail, hsame⟩ | ⟨new, n, m, mid, -, hcr⟩
  · rw [pafsCreate_eq_neg_one_iff] at hfail
    rw [hsame]
    exact ⟨fun _ hfill => hfill.not_createFails hinv hfail, fun _ => h⟩
  · exact ⟨fun hs hfill => (h.created_fill hcr hfill).2 hs.superblock,
      fun hfill => h.created_grow hcr hfill⟩

end Create

/-! ### Writing a new file -/

section Write

variable {k : Kernel} {ino : ℕ} {data : ℕ → Byte} {len : ℤ}

/-- A stale superblock is saved with the first block taken. -/
theorem SyncedBut.writeFile_alloc (hinv : Inv k.fs) (h : SyncedBut {0} k.fs)
    (ht : (k.fs.inode ino).type = pafsTypeFile) (hzero : k.fs.block ino 0 = 0#32) (hlen : 0 < len)
    (hfree : findFreeBlock k.fs ≠ none) : Synced (pafsWriteFile k ino data len).1.fs := by
  have hlt : ino < 128 := State.lt_of_type_ne (by rw [ht]; decide)
  obtain ⟨b, hb⟩ := Option.ne_none_iff_exists'.mp hfree
  rw [fs_pafsWriteFile ht]
  have hloop := @writeLoop_alloc _ _ ino len.toNat b data h hinv ht hzero hb (by omega)
  refine SyncedBut.finish ((hloop.setInode _).mono ?_) hlt
  simp

/-- Without a block it stays stale. -/
theorem writeFile_stale (ht : (k.fs.inode ino).type = pafsTypeFile)
    (hzero : k.fs.block ino 0 = 0#32) (hno : ¬(0 < len ∧ findFreeBlock k.fs ≠ none))
    (hstale : k.fs.disk 0 ≠ k.fs.sb.toSector) : ¬Synced (pafsWriteFile k ino data len).1.fs := by
  have hloop : writeLoop ino data len.toNat 14 k.fs 0 0 = (k.fs, 0) := by
    rw [writeLoop]
    split
    · next hlen =>
      have hnone : findFreeBlock k.fs = none := by
        by_contra hfree
        exact hno ⟨by omega, hfree⟩
      rw [ensureBlock, if_pos hzero, allocBlock, hnone]
      rfl
    · rfl
  rw [fs_pafsWriteFile ht, hloop]
  intro hs
  have := hs.superblock
  rw [disk_zero_pafsSaveInode] at this
  exact hstale this

theorem synced_write_iff (hinv : Inv k.fs) (h : Synced k.fs) (name : CString) (data : ℕ → Byte)
    (len : ℤ) : Synced (pafsWrite k name data len).1.fs ↔
      (FillsOldBlock k.fs 0 name → 0 < len ∧ findFreeBlock k.fs ≠ none) := by
  have hfs : k.lock.touchDisk.fs = k.fs := by simp
  rcases pafsWrite_cases hinv name data len with
    ⟨ino, hfind, heq⟩ | ⟨-, hfail, hsame, -⟩ | ⟨-, new, n, m, mid, -, hcr, heq⟩
  · -- a file that is there, or a creation that fails: no entry is added
    rw [heq]
    refine ⟨fun _ hfill => ?_, fun _ => Synced.writeFile (hfs ▸ hinv) (hfs ▸ h) ino data len⟩
    have := hfill.2.1
    omega
  · rw [pafsCreate_eq_neg_one_iff, hfs] at hfail
    rw [hsame]
    exact ⟨fun _ hfill => absurd hfail (hfill.not_createFails hinv), fun _ => h⟩
  · rw [heq]
    by_cases hfill : FillsOldBlock k.fs 0 name
    · obtain ⟨hbut, hstale⟩ := h.created_fill hcr hfill
      obtain ⟨hzero, hfree⟩ := hcr.fill_new hfill
      have ht : ((pafsCreate k.lock.touchDisk 0 name false).1.fs.inode new).type = pafsTypeFile :=
        hcr.type_self
      -- the new entry filled an old block, so the superblock is stale until a block is taken
      constructor
      · intro hs _
        by_contra hno
        exact writeFile_stale ht hzero (by rwa [hfree]) hstale hs
      · intro hcond
        obtain ⟨hlen, hblock⟩ := hcond hfill
        exact hbut.writeFile_alloc (hcr.inv_result hinv) ht hzero hlen (by rwa [hfree])
    · refine ⟨fun _ hf => absurd hf hfill, fun _ => ?_⟩
      exact Synced.writeFile (hcr.inv_result hinv) (h.created_grow hcr hfill) new data len

end Write

/-! ## Runs -/

/-- **One call** keeps disk and memory equal exactly when it saves the superblock. -/
theorem synced_step_iff {k : Kernel} (hinv : Inv k.fs) (h : Synced k.fs) (op : Op) :
    Synced (step k op).fs ↔ SavesSuperblock k op := by
  cases op with
  | create parentIno name isDir => exact synced_create_iff hinv h parentIno.isLt name isDir
  | mkdir parentIno name => exact synced_create_iff hinv h parentIno.isLt name true
  | delete parentIno name =>
    simp only [SavesSuperblock, step, iff_true]
    exact pafsDelete_keeps hinv parentIno name h fun hdel => h.deleted hinv hdel
  | write name data len =>
    have hroot : k.fs.sb.rootInode.toNat = 0 := by rw [hinv.root]; rfl
    rw [SavesSuperblock, hroot]
    exact synced_write_iff hinv h name data len
  | vfsWrite ino offset size buffer =>
    simp only [SavesSuperblock, step, iff_true]
    exact h.vfsWrite hinv ino offset size buffer
  | format =>
    simp only [SavesSuperblock, step, iff_true, fs_pafsFormat]
    exact Synced.format k.fs

/-- **A run keeps disk and memory equal**, so that reading the disk gives the same state back, exactly
when no call of it counts a new inode and then neither the directory nor the file takes a block. -/
theorem run_synced_iff (k₀ : Kernel) (ops : List Op) :
    (∀ i, let fs := (run (pafsFormat k₀) (ops.take i)).fs
      Synced fs ∧ pafsInitRead fs.disk = fs) ↔
      Steps step SavesSuperblock (pafsFormat k₀) ops := by
  have hinv : Inv (pafsFormat k₀).fs := by
    rw [fs_pafsFormat]
    exact Inv.format k₀.fs
  have h : Synced (pafsFormat k₀).fs := by
    rw [fs_pafsFormat]
    exact Synced.format k₀.fs
  rw [← along_iff_steps (P := fun k : Kernel => Synced k.fs) (I := fun k : Kernel => Inv k.fs)
    (fun h => h.step _) (fun hinv h => synced_step_iff hinv h _) hinv h, along_iff_take]
  exact forall_congr' fun i => ⟨fun hs => hs.1, fun hs => ⟨hs, hs.pafsInitRead_eq⟩⟩

/-- A file created in a fresh root: the superblock on disk still counts 127 free inodes. -/
theorem superblock_stale_after_create :
    let fs := (run (pafsFormat ramdiskKernel) [.create 0 ⟨[97#8], by decide⟩ false]).fs
    ¬Synced fs ∧ fs.sb.freeInodes = 126#32 ∧ (pafsInitRead fs.disk).sb.freeInodes = 127#32 := by
  have hmem : (run (pafsFormat ramdiskKernel) [.create 0 ⟨[97#8], by decide⟩ false]).fs.sb.freeInodes =
      126#32 := by decide +kernel
  have hdisk : (pafsInitRead (run (pafsFormat ramdiskKernel)
      [.create 0 ⟨[97#8], by decide⟩ false]).fs.disk).sb.freeInodes = 127#32 := by decide +kernel
  refine ⟨fun hs => ?_, hmem, hdisk⟩
  rw [hs.pafsInitRead_eq, hmem] at hdisk
  exact absurd hdisk (by decide)

end PekerOS.Pafs
