import PekerOS.Fs.Pafs.Recovery
import PekerOS.Fs.Pafs.SectorWrites

/-!
# PAFS: a machine that stops during a call

The machine may stop between any two sector writes of a call, and the next `pafs_init` reads what is on
the disk then. `Intact fs S fs'` says of that state, and of the memory during the call, that everything the
inodes outside `S` have is as it was, and that no other inode has got a hand on it. Every step of every
operation keeps this for the inodes that the call is not about, so each of its writes does, whichever of
them reach the disk.

## Main definitions

* `Intact fs S fs'`: the inodes outside `S` and their blocks are as they were
* `SafeWrite`: a sector write that keeps what the inodes outside `S` have
* `touched`: the inodes that a call is about

## Main results

* `Intact.setInode`, `Intact.diskWrite`, `Intact.setBitmap`: the steps that keep it
* `Intact.mount_write`: a safe write, seen by the next `pafs_init`
* `safe_opWrites`: the writes of a call are safe
* `crash_intact`: **a call that stops half way touches only the inodes that it is about**
-/

namespace PekerOS.Pafs

open WriteLog

/-! ## What a call leaves alone -/

/-- The records and the blocks of the inodes outside `S` are as in `fs`, marked, and named by no other
inode; no inode names a metadata sector, and the superblock is that of the same file system. -/
structure Intact (fs : State) (S : Set ℕ) (fs' : State) : Prop where
  magic : fs'.sb.magic = fs.sb.magic
  rootInode : fs'.sb.rootInode = fs.sb.rootInode
  inode : ∀ j ∉ S, fs'.inode j = fs.inode j
  data : ∀ j ∉ S, ∀ s, fs.block j s ≠ 0#32 →
    fs'.disk (fs.block j s).toNat = fs.disk (fs.block j s).toNat
  marked : ∀ j ∉ S, ∀ s, fs.block j s ≠ 0#32 →
    pafsBitmapTest fs' (fs.block j s).toNat = true
  apart : ∀ j ∉ S, ∀ s, fs.block j s ≠ 0#32 → ∀ i u, fs'.block i u = fs.block j s → i = j ∧ u = s
  dataBlock : ∀ i u, fs'.block i u ≠ 0#32 →
    18 ≤ (fs'.block i u).toNat ∧ (fs'.block i u).toNat < 4096

/-- A sector write that keeps what the inodes outside `S` have: a metadata sector of a state that does, or
a block that is none of theirs. -/
inductive SafeWrite (fs : State) (S : Set ℕ) : Write → Prop
  | save {mem : State} (h : Intact fs S mem) {lba : ℕ} (hlba : lba < 18) :
    SafeWrite fs S (lba, metaSector mem lba)
  | data {lba : ℕ} (hlba : 18 ≤ lba)
    (h : ∀ j ∉ S, ∀ s, fs.block j s ≠ 0#32 → (fs.block j s).toNat ≠ lba) (buf : Sector) :
    SafeWrite fs S (lba, buf)

namespace Intact

variable {fs fs' mem : State} {S : Set ℕ} {d i ino lba b : ℕ}

theorem block (h : Intact fs S mem) {j : ℕ} (hj : j ∉ S) (s : ℕ) : mem.block j s = fs.block j s := by
  rw [State.block, h.inode j hj, State.block]

/-- The blocks of the inodes outside `S` are data blocks. -/
theorem le (h : Intact fs S mem) {j s : ℕ} (hj : j ∉ S) (hs : fs.block j s ≠ 0#32) :
    18 ≤ (fs.block j s).toNat := by
  have := h.dataBlock j s
  rw [h.block hj] at this
  exact (this hs).1

theorem refl (h : Inv fs) (S : Set ℕ) : Intact fs S fs where
  magic := rfl
  rootInode := rfl
  inode _ _ := rfl
  data _ _ _ _ := rfl
  marked _ _ _ hs := (h.mem_used hs).2
  apart j _ s hs i u heq := by
    obtain ⟨rfl, rfl⟩ := h.inj hs (congrArg BitVec.toNat heq.symm)
    exact ⟨rfl, rfl⟩
  dataBlock _ _ hs := (h.mem_used hs).1

/-! ### The steps of the operations -/

/-- The superblock in memory changes. -/
theorem setSb (h : Intact fs S mem) {sb : Superblock} (hmagic : sb.magic = mem.sb.magic)
    (hroot : sb.rootInode = mem.sb.rootInode) : Intact fs S { mem with sb := sb } where
  magic := hmagic.trans h.magic
  rootInode := hroot.trans h.rootInode
  inode := h.inode
  data := h.data
  marked := h.marked
  apart := h.apart
  dataBlock := h.dataBlock

/-- The record of an inode of the call changes, to block numbers that are none of the others. -/
theorem setInode (h : Intact fs S mem) (hi : i ∈ S) (hlt : i < 128) {record : Inode}
    (hblocks : ∀ u, record.blocks.get u ≠ 0#32 → mem.block i u = record.blocks.get u ∨
      (18 ≤ (record.blocks.get u).toNat ∧ (record.blocks.get u).toNat < 4096) ∧
        ∀ j ∉ S, ∀ s, fs.block j s ≠ 0#32 → record.blocks.get u ≠ fs.block j s) :
    Intact fs S (mem.setInode i record) where
  magic := h.magic
  rootInode := h.rootInode
  inode j hj := by
    rw [State.inode_setInode_ne _ (ne_of_mem_of_not_mem hi hj).symm]
    exact h.inode j hj
  data := h.data
  marked := h.marked
  apart j hj s hs i' u heq := by
    by_cases hii : i' = i
    · subst hii
      rw [State.block, State.inode_setInode_self _ hlt] at heq
      have hne : record.blocks.get u ≠ 0#32 := heq ▸ hs
      rcases hblocks u hne with hold | ⟨-, hfresh⟩
      · exact h.apart j hj s hs i' u (hold.trans heq)
      · exact absurd heq (hfresh j hj s hs)
    · rw [State.block, State.inode_setInode_ne _ hii] at heq
      exact h.apart j hj s hs i' u heq
  dataBlock i' u hne := by
    by_cases hii : i' = i
    · subst hii
      rw [State.block, State.inode_setInode_self _ hlt] at hne ⊢
      rcases hblocks u hne with hold | ⟨hdata, -⟩
      · rw [← hold] at hne ⊢
        exact h.dataBlock i' u hne
      · exact hdata
    · rw [State.block, State.inode_setInode_ne _ hii] at hne ⊢
      exact h.dataBlock i' u hne

/-- A record with the same block numbers, or with fewer. -/
theorem setRecord (h : Intact fs S mem) (hi : i ∈ S) (hlt : i < 128) (record : Inode)
    (hblocks : ∀ u, record.blocks.get u = 0#32 ∨ record.blocks.get u = mem.block i u) :
    Intact fs S (mem.setInode i record) :=
  h.setInode hi hlt fun u hne => Or.inl ((hblocks u).resolve_left hne).symm

theorem setSize (h : Intact fs S mem) (hi : i ∈ S) (hlt : i < 128) (size : Word) :
    Intact fs S (mem.setSize i size) :=
  h.setRecord hi hlt _ fun _ => Or.inr rfl

/-- A sector is written that is none of theirs. -/
theorem diskWrite (h : Intact fs S mem)
    (hlba : ∀ j ∉ S, ∀ s, fs.block j s ≠ 0#32 → (fs.block j s).toNat ≠ lba) (buf : Sector) :
    Intact fs S (pafsDiskWrite mem lba buf) where
  magic := h.magic
  rootInode := h.rootInode
  inode := h.inode
  data j hj s hs := by
    rw [disk_pafsDiskWrite_ne _ (hlba j hj s hs)]
    exact h.data j hj s hs
  marked := h.marked
  apart := h.apart
  dataBlock := h.dataBlock

/-- The metadata sectors are none of theirs. -/
theorem ne_of_lt (h : Intact fs S mem) (hlba : lba < 18) :
    ∀ j ∉ S, ∀ s, fs.block j s ≠ 0#32 → (fs.block j s).toNat ≠ lba := by
  intro j hj s hs
  have := h.le hj hs
  omega

/-- Nor are the blocks of an inode of the call. -/
theorem ne_of_block (h : Intact fs S mem) (hi : i ∈ S) (u : ℕ) :
    ∀ j ∉ S, ∀ s, fs.block j s ≠ 0#32 → (fs.block j s).toNat ≠ (mem.block i u).toNat := by
  intro j hj s hs heq
  obtain ⟨rfl, -⟩ := h.apart j hj s hs i u (BitVec.eq_of_toNat_eq heq.symm)
  exact hj hi

/-- Nor is a block that is free. -/
theorem ne_of_clear (h : Intact fs S mem) (hb : Bitmap.test mem.blockBitmap b = false) :
    ∀ j ∉ S, ∀ s, fs.block j s ≠ 0#32 → (fs.block j s).toNat ≠ b := by
  rintro j hj s hs rfl
  have := h.marked j hj s hs
  rw [pafsBitmapTest, hb] at this
  exact absurd this (by decide)

/-- The bitmap in memory changes, and none of their bits is cleared. -/
theorem setBitmap (h : Intact fs S mem) {m : Table 512 Byte}
    (hm : ∀ c, Bitmap.test mem.blockBitmap c = true →
      (∀ j ∉ S, ∀ s, fs.block j s ≠ 0#32 → (fs.block j s).toNat ≠ c) ∨ Bitmap.test m c = true) :
    Intact fs S { mem with blockBitmap := m } where
  magic := h.magic
  rootInode := h.rootInode
  inode := h.inode
  data := h.data
  marked j hj s hs :=
    (hm _ (h.marked j hj s hs)).resolve_left fun hne => hne j hj s hs rfl
  apart := h.apart
  dataBlock := h.dataBlock

theorem takeBlock (h : Intact fs S mem) (hb : b < 4096) : Intact fs S (Pafs.takeBlock mem b) := by
  have hset : Intact fs S (pafsBitmapSet mem b) := h.setBitmap fun c hc => Or.inr (by
    rw [Bitmap.test_set _ (by omega), hc, Bool.or_true])
  have hcount : Intact fs S { pafsBitmapSet mem b with
      sb := { mem.sb with freeBlocks := mem.sb.freeBlocks - 1#32 } } := hset.setSb rfl rfl
  exact (hcount.diskWrite (h.ne_of_lt (by decide)) _).diskWrite (h.ne_of_lt (by decide)) _

/-- A free block is taken for an inode of the call. -/
theorem assign (h : Intact fs S mem) (hi : i ∈ S) (hlt : i < 128) {s : ℕ} (hs : s < 14)
    (hb : findFreeBlock mem = some b) :
    Intact fs S ((Pafs.takeBlock mem b).setBlock i s (BitVec.ofNat 32 b)) := by
  obtain ⟨hrange, hclear⟩ := mem_clearBits_of_findFreeBlock hb
  have hword := toNat_ofNat_of_lt hrange.2
  refine (h.takeBlock hrange.2).setInode hi hlt fun u hne => ?_
  by_cases hu : u = s
  · subst hu
    right
    dsimp only
    rw [Table.get_set_self _ hs, hword]
    refine ⟨hrange, fun j hj s' hs' heq => h.ne_of_clear hclear j hj s' hs' ?_⟩
    rw [← heq, hword]
  · left
    dsimp only
    rw [Table.get_set_ne _ hu]
    rfl

theorem freeBlock (h : Intact fs S mem) (hi : ino ∈ S) (hlt : ino < 128) {s : ℕ} :
    Intact fs S (Pafs.freeBlock ino mem s) := by
  unfold Pafs.freeBlock
  split
  · next hne =>
    have hrange := h.dataBlock ino s hne
    have hclear : Intact fs S (pafsBitmapClear mem (mem.block ino s).toNat) := by
      refine h.setBitmap fun c hc => ?_
      by_cases hcb : c = (mem.block ino s).toNat
      · subst hcb
        exact Or.inl (h.ne_of_block hi s)
      · right
        rw [Bitmap.test_clear _ (by omega), hc, decide_eq_true hcb]
        rfl
    have hcount : Intact fs S { pafsBitmapClear mem (mem.block ino s).toNat with
        sb := { mem.sb with freeBlocks := mem.sb.freeBlocks + 1#32 } } := hclear.setSb rfl rfl
    refine hcount.setRecord hi hlt _ fun u => ?_
    by_cases hu : u = s
    · subst hu
      by_cases h14 : u < 14
      · exact Or.inl (Table.get_set_self _ h14 _)
      · exact Or.inl (Table.get_of_le _ (by omega))
    · exact Or.inr (Table.get_set_ne _ hu _)
  · exact h

theorem releaseInode (h : Intact fs S mem) (hi : ino ∈ S) (hlt : ino < 128) :
    Intact fs S (Pafs.releaseInode mem ino) := by
  have hloop : ∀ (slots : List ℕ) (mem : State), Intact fs S mem →
      Intact fs S (slots.foldl (Pafs.freeBlock ino) mem) := by
    intro slots
    induction slots with
    | nil => exact fun _ h => h
    | cons s slots ih => exact fun mem h => ih _ (h.freeBlock hi hlt)
  have hfreed : Intact fs S (freeBlocks mem ino) := hloop (List.range 14) mem h
  have hrecord := hfreed.setRecord hi hlt { (freeBlocks mem ino).inode ino with
    type := pafsTypeFree, size := 0#32 } fun _ => Or.inr rfl
  exact hrecord.setSb rfl rfl

theorem newInode (h : Intact fs S mem) (hi : ino ∈ S) (hlt : ino < 128) (isDir : Bool) :
    Intact fs S (Pafs.newInode mem ino isDir) := by
  have hrecord := h.setRecord hi hlt ⟨if isDir then pafsTypeDir else pafsTypeFile, 0#32,
    Table.ofFn fun _ => 0#32⟩ fun _ => Or.inl (Table.get_default _)
  exact hrecord.setSb rfl rfl

theorem saveInode (h : Intact fs S mem) (hlt : ino < 128) : Intact fs S (pafsSaveInode mem ino) :=
  h.diskWrite (h.ne_of_lt (by unfold lbaInodesStart; omega)) _

end Intact

/-! ### What the next `pafs_init` sees -/

section Mount

variable {fs mem : State} {S : Set ℕ} {disk : ℕ → Sector} {w : Write} {ws : List Write}

namespace Intact

/-- A state whose parts come from two states in which they are intact. -/
theorem mix {fs₁ fs₂ fs' : State} (h₁ : Intact fs S fs₁) (h₂ : Intact fs S fs₂)
    (hsb : fs'.sb = fs₁.sb ∨ fs'.sb = fs₂.sb)
    (hinode : ∀ i, fs'.inode i = fs₁.inode i ∨ fs'.inode i = fs₂.inode i)
    (hmap : fs'.blockBitmap = fs₁.blockBitmap ∨ fs'.blockBitmap = fs₂.blockBitmap)
    (hdisk : ∀ l, 18 ≤ l → fs'.disk l = fs₁.disk l) : Intact fs S fs' where
  magic := by
    rcases hsb with h | h <;> rw [h]
    exacts [h₁.magic, h₂.magic]
  rootInode := by
    rcases hsb with h | h <;> rw [h]
    exacts [h₁.rootInode, h₂.rootInode]
  inode j hj := by
    rcases hinode j with h | h <;> rw [h]
    exacts [h₁.inode j hj, h₂.inode j hj]
  data j hj s hs := (hdisk _ (h₁.le hj hs)).trans (h₁.data j hj s hs)
  marked j hj s hs := by
    unfold pafsBitmapTest
    rcases hmap with h | h <;> rw [h]
    exacts [h₁.marked j hj s hs, h₂.marked j hj s hs]
  apart j hj s hs i u heq := by
    rcases hinode i with h | h <;> rw [State.block, h] at heq
    exacts [h₁.apart j hj s hs i u heq, h₂.apart j hj s hs i u heq]
  dataBlock i u hne := by
    rcases hinode i with h | h <;> rw [State.block, h] at hne ⊢
    exacts [h₁.dataBlock i u hne, h₂.dataBlock i u hne]

/-- **A safe write**, seen by the next `pafs_init`. -/
theorem mount_write (h : Intact fs S (pafsInitRead disk)) (hw : SafeWrite fs S w) :
    Intact fs S (pafsInitRead (Function.update disk w.1 w.2)) := by
  cases hw with
  | save hmem hlba =>
    obtain ⟨hsb, hinode, hmap⟩ := pafsInitRead_update_save disk hlba
    exact h.mix hmem hsb hinode hmap fun l hl => Function.update_of_ne (by omega) _ _
  | data hlba hne buf =>
    rw [pafsInitRead_update_data hlba]
    exact h.diskWrite hne buf

/-- Any safe writes, in any order. -/
theorem mount_writes (h : Intact fs S (pafsInitRead disk)) (hws : ∀ w ∈ ws, SafeWrite fs S w) :
    Intact fs S (pafsInitRead (replay disk ws)) :=
  replay_keeps (P := fun disk => Intact fs S (pafsInitRead disk)) h fun w hw _ h =>
    h.mount_write (hws w hw)

/-- Between two calls the disk holds what memory does. -/
theorem mount (hinv : Inv fs) (h : Recoverable fs) (S : Set ℕ) :
    Intact fs S (pafsInitRead fs.disk) := by
  obtain ⟨c, heq⟩ := h.pafsInitRead_eq
  rw [heq]
  exact (refl hinv S).setSb rfl rfl

end Intact

end Mount

/-! ### The writes of a call -/

namespace SafeWrite

variable {fs mem mem' : State} {S : Set ℕ} {ino : ℕ}

theorem superblock (h : Intact fs S mem) : SafeWrite fs S (superblockWrite mem) :=
  save h (show 0 < 18 by decide)

theorem bitmap (h : Intact fs S mem) : SafeWrite fs S (bitmapWrite mem) :=
  save h (show 17 < 18 by decide)

theorem inode (h : Intact fs S mem) (hlt : ino < 128) : SafeWrite fs S (inodeWrite mem ino) := by
  have hsave := save h (show inodeLba ino < 18 by unfold inodeLba lbaInodesStart; omega)
  rwa [SyncedBut.metaSector_inodeLba hlt] at hsave

/-- A block of an inode of the call. -/
theorem block (h : Intact fs S mem) {i u : ℕ} (hi : i ∈ S) (hne : mem.block i u ≠ 0#32)
    (buf : Sector) : SafeWrite fs S ((mem.block i u).toNat, buf) :=
  data (h.dataBlock i u hne).1 (h.ne_of_block hi u) buf

end SafeWrite

section Functions

variable {fs mem mem' : State} {S : Set ℕ} {d ino i b n m t : ℕ} {name : CString}

theorem Intact.takeBlockWrites (h : Intact fs S mem) (hb : b < 4096) :
    ∀ w ∈ Pafs.takeBlockWrites mem b, SafeWrite fs S w := by
  have htake := h.takeBlock hb
  rw [Pafs.takeBlockWrites, List.forall_mem_cons, List.forall_mem_singleton]
  exact ⟨SafeWrite.bitmap htake, SafeWrite.superblock htake⟩

theorem Intact.allocBlockWrites (h : Intact fs S mem) :
    ∀ w ∈ Pafs.allocBlockWrites mem, SafeWrite fs S w := by
  unfold Pafs.allocBlockWrites
  split
  · simp
  · next hb => exact h.takeBlockWrites (mem_clearBits_of_findFreeBlock hb).1.2

/-- A block is taken for an empty slot. -/
theorem Intact.ensureBlock (h : Intact fs S mem) (hi : ino ∈ S) (hlt : ino < 128) (h14 : i < 14)
    (he : Pafs.ensureBlock mem ino i = some mem') :
    (∀ w ∈ ensureBlockWrites mem ino i, SafeWrite fs S w) ∧ Intact fs S mem' ∧
      mem'.block ino i ≠ 0#32 := by
  unfold Pafs.ensureBlock at he
  unfold ensureBlockWrites
  split at he
  · next hzero =>
    obtain ⟨⟨fs₁, b⟩, halloc, rfl⟩ := Option.map_eq_some_iff.mp he
    obtain ⟨b', hb, heq⟩ := Option.map_eq_some_iff.mp halloc
    obtain ⟨rfl, rfl⟩ := Prod.mk.inj heq
    have hrange := (mem_clearBits_of_findFreeBlock hb).1
    rw [if_pos hzero]
    refine ⟨h.allocBlockWrites, h.assign hi hlt h14 hb, fun h0 => ?_⟩
    rw [State.block_setBlock_self _ hlt h14] at h0
    have hword := toNat_ofNat_of_lt hrange.2
    rw [h0] at hword
    simp at hword
    omega
  · next hne =>
    obtain rfl := Option.some.inj he
    rw [if_neg hne]
    exact ⟨by simp, h, hne⟩

/-- A block that the directory has is searched for an empty slot. -/
theorem Intact.addEntrySlot (h : Intact fs S mem) (hd : d ∈ S) (hlt : d < 128)
    (hne : mem.block d i ≠ 0#32) {ws : List Write} {rest : State × ℤ}
    (hrest : (∀ w ∈ ws, SafeWrite fs S w) ∧ Intact fs S rest.1) :
    (∀ w ∈ slotWrites d name ino mem i ws, SafeWrite fs S w) ∧
      Intact fs S (Pafs.addEntrySlot d name ino mem i rest).1 := by
  unfold slotWrites Pafs.addEntrySlot
  dsimp only
  split
  · have hsize := fun size => h.setSize hd hlt size
    have hwrite := fun buf => h.diskWrite (h.ne_of_block hd i) buf
    rw [List.forall_mem_cons, List.forall_mem_singleton]
    exact ⟨⟨SafeWrite.block h hd hne _, SafeWrite.inode (hsize _) hlt⟩,
      ((hwrite _).setSize hd hlt _).saveInode hlt⟩
  · exact hrest

theorem Intact.growDir (h : Intact fs S mem) (hd : d ∈ S) (hlt : d < 128) (h14 : i < 14)
    (hb : findFreeBlock mem = some b) :
    (∀ w ∈ growWrites mem b, SafeWrite fs S w) ∧ Intact fs S (Pafs.growDir mem d i b) ∧
      (Pafs.growDir mem d i b).block d i ≠ 0#32 := by
  obtain ⟨hrange, hclear⟩ := mem_clearBits_of_findFreeBlock hb
  rw [growWrites, List.forall_mem_append, List.forall_mem_singleton, growDir_block_self mem hlt h14]
  refine ⟨⟨h.takeBlockWrites hrange.2, SafeWrite.data hrange.1 (h.ne_of_clear hclear) default⟩,
    (h.assign hd hlt h14 hb).diskWrite (h.ne_of_clear hclear) default, fun h0 => ?_⟩
  have hword := toNat_ofNat_of_lt hrange.2
  rw [h0] at hword
  simp at hword
  omega

theorem Intact.addEntryLoop (h : Intact fs S mem) (hd : d ∈ S) (hlt : d < 128) (hi : i + n = 14) :
    (∀ w ∈ addEntryLoopWrites d name ino n mem i, SafeWrite fs S w) ∧
      Intact fs S (Pafs.addEntryLoop d name ino n mem i).1 := by
  induction n generalizing mem i with
  | zero => exact ⟨by simp [addEntryLoopWrites], h⟩
  | succ n ih =>
    rw [addEntryLoopWrites, addEntryLoop_succ]
    by_cases hzero : mem.block d i = 0#32
    · rw [if_pos hzero, if_pos hzero]
      cases hb : findFreeBlock mem with
      | none => exact ⟨by simp, h⟩
      | some b =>
        have h14 : i < 14 := by omega
        obtain ⟨hgrow, hgrown, hne⟩ := h.growDir hd hlt h14 hb
        have hrest := ih (i := i + 1) hgrown (by omega)
        obtain ⟨hslot, hafter⟩ := hgrown.addEntrySlot hd hlt hne hrest
        exact ⟨List.forall_mem_append.mpr ⟨hgrow, hslot⟩, hafter⟩
    · rw [if_neg hzero, if_neg hzero]
      exact h.addEntrySlot hd hlt hzero (ih (i := i + 1) h (by omega))

theorem Intact.addEntry (h : Intact fs S mem) (hd : d ∈ S) (hlt : d < 128) (name : CString) (ino : ℕ) :
    (∀ w ∈ addEntryWrites mem d name ino, SafeWrite fs S w) ∧
      Intact fs S (pafsAddEntry mem d name ino).1 := by
  unfold addEntryWrites pafsAddEntry
  split
  · exact ⟨by simp, h⟩
  · exact h.addEntryLoop hd hlt rfl

/-- The writes of a removal from a directory with a layout. -/
theorem removeEntryWrites_eq (hl : Layout mem.disk (mem.inode d) n m) (ht : t < n)
    (hf : findSlot mem (mem.inode d) name = some (t / 16, t % 16)) :
    removeEntryWrites mem d name =
      (if t ≠ n - 1 then [((mem.block d (t / 16)).toNat,
        copyEntry (mem.disk (mem.block d (t / 16)).toNat) (t % 16)
          (mem.disk (mem.block d ((n - 1) / 16)).toNat) ((n - 1) % 16))] else []) ++
      [((mem.block d ((n - 1) / 16)).toNat,
        clearEntry (mem.disk (mem.block d ((n - 1) / 16)).toNat) ((n - 1) % 16)),
        inodeWrite (mem.setSize d ((mem.inode d).size - 32#32)) d] := by
  have hlast := hl.lastEntryTotalIdx_eq (by omega)
  have hdiv : ((n - 1 : ℕ) : ℤ).tdiv 16 = (((n - 1) / 16 : ℕ) : ℤ) := rfl
  have hmod : ((n - 1 : ℕ) : ℤ).tmod 16 = (((n - 1) % 16 : ℕ) : ℤ) := rfl
  have hguard : (((t / 16 : ℕ) : ℤ) ≠ (((n - 1) / 16 : ℕ) : ℤ) ∨
      ((t % 16 : ℕ) : ℤ) ≠ (((n - 1) % 16 : ℕ) : ℤ)) ↔ t ≠ n - 1 := by
    omega
  simp only [removeEntryWrites, hf, hlast, hdiv, hmod, hguard, Int.toNat_natCast]
  rfl

theorem Intact.removeEntry (h : Intact fs S mem) (hd : d ∈ S) (hlt : d < 128)
    (hl : Layout mem.disk (mem.inode d) n m) (ht : t < n)
    (hf : findSlot mem (mem.inode d) name = some (t / 16, t % 16)) :
    (∀ w ∈ removeEntryWrites mem d name, SafeWrite fs S w) ∧
      Intact fs S (pafsRemoveEntry mem d name).1 := by
  have hle := hl.le
  have hne : ∀ s < n, mem.block d (s / 16) ≠ 0#32 := fun s hs => hl.block_ne_zero (by omega)
  have hsize := h.setSize hd hlt ((mem.inode d).size - 32#32)
  rw [removeEntryWrites_eq hl ht hf, pafsRemoveEntry_eq hl ht hf]
  constructor
  · rw [List.forall_mem_append, List.forall_mem_cons, List.forall_mem_singleton]
    refine ⟨?_, SafeWrite.block h hd (hne _ (by omega)) _, SafeWrite.inode hsize hlt⟩
    split
    · rw [List.forall_mem_singleton]
      exact SafeWrite.block h hd (hne t ht) _
    · simp
  · have hswap : ∀ buf, Intact fs S
        (if t ≠ n - 1 then pafsDiskWrite mem (mem.block d (t / 16)).toNat buf else mem) := by
      intro buf
      split
      · exact h.diskWrite (h.ne_of_block hd _) buf
      · exact h
    exact (((hswap _).diskWrite (h.ne_of_block hd _) _).setSize hd hlt _).saveInode hlt

theorem Intact.writeLoop (data : ℕ → Byte) (len done : ℕ) (h : Intact fs S mem) (hi : ino ∈ S)
    (hlt : ino < 128) (hn : i + n = 14) :
    (∀ w ∈ writeLoopWrites ino data len n mem i done, SafeWrite fs S w) ∧
      Intact fs S (Pafs.writeLoop ino data len n mem i done).1 := by
  induction n generalizing mem i done with
  | zero => exact ⟨by simp [writeLoopWrites], h⟩
  | succ n ih =>
    rw [writeLoopWrites, Pafs.writeLoop]
    split
    · cases he : Pafs.ensureBlock mem ino i with
      | none => exact ⟨by simp, h⟩
      | some mem₁ =>
        obtain ⟨hens, h₁, hne⟩ := h.ensureBlock hi hlt (by omega) he
        have hrest := fun buf done => ih (i := i + 1) done
          (h₁.diskWrite (h₁.ne_of_block hi i) buf) (by omega)
        rw [List.forall_mem_append, List.forall_mem_cons]
        exact ⟨⟨hens, SafeWrite.block h₁ hi hne _, (hrest _ _).1⟩, (hrest _ _).2⟩
    · exact ⟨by simp, h⟩

theorem Intact.vfsWriteLoop (buffer : ℕ → Byte) (size off done : ℕ) (h : Intact fs S mem)
    (hi : ino ∈ S) (hlt : ino < 128) (hn : n = 0 ∨ i + n = 14) :
    (∀ w ∈ vfsWriteLoopWrites ino buffer size n mem i off done, SafeWrite fs S w) ∧
      Intact fs S (Pafs.vfsWriteLoop ino buffer size n mem i off done).1 := by
  induction n generalizing mem i off done with
  | zero => exact ⟨by simp [vfsWriteLoopWrites], h⟩
  | succ n ih =>
    rw [vfsWriteLoopWrites, Pafs.vfsWriteLoop]
    split
    · cases he : Pafs.ensureBlock mem ino i with
      | none => exact ⟨by simp, h⟩
      | some mem₁ =>
        obtain ⟨hens, h₁, hne⟩ := h.ensureBlock hi hlt (by omega) he
        have hrest := fun buf done => ih (i := i + 1) 0 done
          (h₁.diskWrite (h₁.ne_of_block hi i) buf) (by omega)
        rw [List.forall_mem_append, List.forall_mem_cons]
        exact ⟨⟨hens, SafeWrite.block h₁ hi hne _, (hrest _ _).1⟩, (hrest _ _).2⟩
    · exact ⟨by simp, h⟩

end Functions

section Operations

variable {fs : State} {k : Kernel} {S : Set ℕ} {d ino : ℕ} {name : CString}

theorem Intact.create (h : Intact fs S k.fs) (hd : d ∈ S) (hlt : d < 128)
    (hnew : ∀ i, findFreeInode k.fs = some i → i ∈ S) (name : CString) (isDir : Bool) :
    (∀ w ∈ createWrites k.fs d name isDir, SafeWrite fs S w) ∧
      Intact fs S (pafsCreate k d name isDir).1.fs := by
  simp only [createWrites, pafsCreate, Kernel.fs_touch, Kernel.fs_lock, Kernel.fs_touchDisk]
  by_cases hc : k.fs.sb.freeInodes = 0#32
  · rw [if_pos hc, if_pos hc]
    exact ⟨by simp, h⟩
  rw [if_neg hc, if_neg hc]
  by_cases ha : pafsFindEntry k.fs d name ≠ -1
  · rw [if_pos ha, if_pos ha]
    refine ⟨by simp, ?_⟩
    simpa using h
  rw [if_neg ha, if_neg ha]
  cases hf : findFreeInode k.fs with
  | none => exact ⟨by simp, by simpa using h⟩
  | some new =>
    have hmem := hnew new hf
    have hnlt := findFreeInode_lt hf
    obtain ⟨hwrites, hadded⟩ := (h.newInode hmem hnlt isDir).addEntry hd hlt name new
    dsimp only
    rw [List.forall_mem_append]
    by_cases hres : (pafsAddEntry (Pafs.newInode k.fs new isDir) d name new).2 = 0
    · rw [if_pos hres, if_pos hres, List.forall_mem_singleton]
      refine ⟨⟨hwrites, SafeWrite.inode hadded hnlt⟩, ?_⟩
      simpa using hadded.saveInode hnlt
    · rw [if_neg hres, if_neg hres]
      refine ⟨⟨hwrites, by simp⟩, ?_⟩
      -- the inode is taken back in memory
      have hback := hadded.setRecord hmem hnlt { (pafsAddEntry (Pafs.newInode k.fs new isDir) d
        name new).1.inode new with type := pafsTypeFree } fun _ => Or.inr rfl
      simp only [Kernel.fs_unlock, Kernel.fs_touch, Kernel.fs_setFs]
      exact hback.setSb rfl rfl

theorem Intact.delete (hinv : Inv k.fs) (hd : d ∈ S)
    (hino : ∀ i : ℕ, pafsFindEntry k.fs d name = i → i ∈ S) :
    ∀ w ∈ deleteWrites k.fs d name, SafeWrite k.fs S w := by
  unfold deleteWrites
  rcases hinv.findEntry_cases d name with hnone | ⟨ino, t, n, m, hfind, hf⟩
  · simp [hnone]
  simp only [hfind, Int.toNat_natCast]
  rw [if_neg (by omega)]
  split
  · simp
  · next hfull =>
    rw [pafsIsDirEmpty_eq_false] at hfull
    have hempty : (k.fs.inode ino).type = pafsTypeDir → (k.fs.inode ino).size = 0#32 :=
      fun hdir => not_not.mp fun hsize => hfull ⟨hdir, hsize⟩
    have hrel := hf.release hempty
    obtain ⟨hwrites, hremoved⟩ := ((Intact.refl hinv S).releaseInode (hino ino hfind)
      hf.ino_lt).removeEntry hd hf.parent_lt hrel.layout hrel.lt hrel.slot
    rw [List.forall_mem_append, List.forall_mem_cons, List.forall_mem_cons, List.forall_mem_singleton]
    exact ⟨hwrites, SafeWrite.superblock hremoved, SafeWrite.bitmap hremoved,
      SafeWrite.inode hremoved hf.ino_lt⟩

theorem Intact.writeFile (h : Intact fs S k.fs) (hi : ino ∈ S) (data : ℕ → Byte) (len : ℤ) :
    ∀ w ∈ writeFileWrites k.fs ino data len, SafeWrite fs S w := by
  unfold writeFileWrites
  split
  · simp
  · next ht =>
    have hlt : ino < 128 := State.lt_of_type_ne (by rw [not_not.mp ht]; decide)
    obtain ⟨hwrites, hwritten⟩ := h.writeLoop data len.toNat 0 hi hlt (show 0 + 14 = 14 from rfl)
    rw [List.forall_mem_append, List.forall_mem_singleton]
    exact ⟨hwrites, SafeWrite.inode (hwritten.setSize hi hlt _) hlt⟩

theorem Intact.vfsWrite (h : Intact fs S k.fs) (hi : ino ∈ S) (offset size : Word)
    (buffer : ℕ → Byte) : ∀ w ∈ vfsWriteWrites k.fs ino offset size buffer, SafeWrite fs S w := by
  unfold vfsWriteWrites
  split
  · simp
  · next ht =>
    have hlt : ino < 128 := State.lt_of_type_ne (by rw [not_not.mp ht]; decide)
    obtain ⟨hwrites, hwritten⟩ := h.vfsWriteLoop (n := 14 - offset.toNat / 512)
      (i := offset.toNat / 512) buffer size.toNat (offset.toNat % 512) 0 hi hlt (by omega)
    dsimp only
    rw [List.forall_mem_append, List.forall_mem_singleton]
    refine ⟨hwrites, SafeWrite.inode ?_ hlt⟩
    split
    · exact hwritten.setSize hi hlt _
    · exact hwritten

theorem Intact.write (hinv : Inv k.fs) (data : ℕ → Byte) (len : ℤ)
    (hfound : ∀ i : ℕ, pafsFindEntry k.fs 0 name = i → i ∈ S)
    (hnew : pafsFindEntry k.fs 0 name = -1 →
      0 ∈ S ∧ ∀ i, findFreeInode k.fs = some i → i ∈ S) :
    ∀ w ∈ writeWrites k name data len, SafeWrite k.fs S w := by
  have hfs : k.lock.touchDisk.fs = k.fs := by simp
  have hroot : k.fs.sb.rootInode.toNat = 0 := by rw [hinv.root]; rfl
  unfold writeWrites
  simp only [hfs, hroot]
  rcases hinv.findEntry_cases 0 name with hnone | ⟨ino, t, n, m, hfind, -⟩
  · obtain ⟨h0, hfree⟩ := hnew hnone
    have hbase : Intact k.fs S k.lock.touchDisk.fs := hfs ▸ Intact.refl hinv S
    obtain ⟨hwrites, hcreated⟩ := hbase.create h0 (by decide) (hfs ▸ hfree) name false
    rw [if_pos hnone, List.forall_mem_append]
    rw [hfs] at hwrites
    refine ⟨hwrites, ?_⟩
    split
    · simp
    · next hres =>
      -- the number of the new inode
      rcases @pafsCreate_cases 0 k.lock.touchDisk (hfs ▸ hinv) (by decide) name false with
        ⟨hfail, -⟩ | ⟨new, n, m, mid, hok, hcr⟩
      · exact absurd hfail hres
      · rw [hok, Int.toNat_natCast]
        refine hcreated.writeFile (hfree new ?_) data len
        rw [← hfs]
        exact hcr.free
  · rw [hfind, if_neg (by omega), Int.toNat_natCast]
    exact (Intact.refl hinv S).writeFile (hfound ino hfind) data len

theorem formatWrites_eq (fs : State) : formatWrites fs =
    takeBlockWrites (rootedState fs) 18 ++ (18, default) :: metadataWrites (rootState fs) := by
  have halloc : allocBlock (rootedState fs) = some (takeBlock (rootedState fs) 18, 18) := by
    rw [allocBlock, findFreeBlock_rootedState]
    rfl
  have hwrites : allocBlockWrites (rootedState fs) = takeBlockWrites (rootedState fs) 18 := by
    rw [allocBlockWrites, findFreeBlock_rootedState]
  have hroot : (blankState fs).setInode 0 ⟨pafsTypeDir, 0#32, Table.ofFn fun _ => 0#32⟩ =
      rootedState fs := rfl
  simp only [formatWrites, findFreeInode_blankState, Option.getD_some, hroot, halloc, hwrites]
  rfl

/-- Formatting is about every inode; what it keeps is that the disk holds a file system. -/
theorem Intact.format (hinv : Inv fs) (hmagic : fs.sb.magic = pafsMagic) :
    ∀ w ∈ formatWrites fs, SafeWrite fs Set.univ w := by
  have hrooted : Intact fs Set.univ (rootedState fs) :=
    ⟨hmagic.symm, rfl, fun j hj => absurd trivial hj, fun j hj => absurd trivial hj,
      fun j hj => absurd trivial hj, fun j hj => absurd trivial hj,
      fun i u hne => absurd (block_rootedState fs i u) hne⟩
  obtain ⟨-, hgrown, -⟩ := hrooted.growDir (d := 0) (i := 0) trivial (by decide) (by decide)
    (findFreeBlock_rootedState fs)
  have hroot : Intact fs Set.univ (rootState fs) := hgrown.setSb rfl hinv.root.symm
  rw [formatWrites_eq, List.forall_mem_append, List.forall_mem_cons, metadataWrites,
    List.forall_mem_append, List.forall_mem_cons, List.forall_mem_singleton]
  refine ⟨hrooted.takeBlockWrites (by decide),
    SafeWrite.data le_rfl (fun j hj => absurd trivial hj) default,
    ⟨SafeWrite.superblock hroot, fun w hw => ?_⟩, SafeWrite.bitmap hroot⟩
  obtain ⟨i, hi, rfl⟩ := List.mem_map.mp hw
  have hi16 : i < 16 := List.mem_range.mp hi
  have hsave := SafeWrite.inode hroot (show 8 * i < 128 by omega)
  rwa [inodeWrite, Nat.mul_div_cancel_left i (by decide)] at hsave

end Operations

/-- The inodes that a call is about: the directory it changes and the inode it takes or gives back; the
file it writes. Formatting is about all of them. -/
def touched (fs : State) : Op → Set ℕ
  | .create parentIno _ _ => {i | i = parentIno ∨ findFreeInode fs = some i}
  | .mkdir parentIno _ => {i | i = parentIno ∨ findFreeInode fs = some i}
  | .delete parentIno name => {i | i = parentIno ∨ pafsFindEntry fs parentIno name = i}
  | .write name _ _ =>
    let root := fs.sb.rootInode.toNat
    {i | pafsFindEntry fs root name = i ∨
      pafsFindEntry fs root name = -1 ∧ (i = root ∨ findFreeInode fs = some i)}
  | .vfsWrite ino _ _ _ => {i | i = ino}
  | .format => Set.univ

/-- Every write of a call is safe for the inodes that the call is not about. -/
theorem safe_opWrites {k : Kernel} (hinv : Inv k.fs) (hmagic : k.fs.sb.magic = pafsMagic) (op : Op) :
    ∀ w ∈ opWrites k op, SafeWrite k.fs (touched k.fs op) w := by
  have hroot : k.fs.sb.rootInode.toNat = 0 := by rw [hinv.root]; rfl
  have hcreate : ∀ (d : Fin 128) (name : CString) (isDir : Bool),
      ∀ w ∈ createWrites k.fs d name isDir,
        SafeWrite k.fs {i | i = (d : ℕ) ∨ findFreeInode k.fs = some i} w := fun d name isDir =>
    ((Intact.refl hinv _).create (Or.inl rfl) d.isLt (fun _ h => Or.inr h) name isDir).1
  cases op with
  | create parentIno name isDir => exact hcreate parentIno name isDir
  | mkdir parentIno name => exact hcreate parentIno name true
  | delete parentIno name => exact Intact.delete hinv (Or.inl rfl) fun _ h => Or.inr h
  | write name data len =>
    rw [touched, hroot]
    exact Intact.write hinv data len (fun _ h => Or.inl h)
      fun hnone => ⟨Or.inr ⟨hnone, Or.inl rfl⟩, fun _ h => Or.inr ⟨hnone, Or.inr h⟩⟩
  | vfsWrite ino offset size buffer =>
    exact (Intact.refl hinv _).vfsWrite (show (ino : ℕ) ∈ {i | i = (ino : ℕ)} from rfl) offset size buffer
  | format => exact Intact.format hinv hmagic

/-- **A call that stops half way touches only the inodes that it is about**: in every reachable state,
for every call, the writes of the call are what it does to the disk, and whichever of them have reached the
disk, in whatever order, the next `pafs_init` finds the file system, with the records and the blocks of all
other inodes as they were, marked in the bitmap and named by nobody else. -/
theorem crash_intact {k : Kernel} (h : Reachable k) (op : Op) :
    replay k.fs.disk (opWrites k op) = (step k op).fs.disk ∧
      ∀ ws : List Write, (∀ w ∈ ws, w ∈ opWrites k op) →
        (pafsInitRead (replay k.fs.disk ws)).sb.magic = pafsMagic ∧
        Intact k.fs (touched k.fs op) (pafsInitRead (replay k.fs.disk ws)) := by
  refine ⟨replay_opWrites k op, fun ws hws => ?_⟩
  have hdisk := Recoverable.of_reachable h
  have hmagic := hdisk.superblock.magic
  have hintact := (Intact.mount h.inv hdisk (touched k.fs op)).mount_writes fun w hw =>
    safe_opWrites h.inv hmagic op w (hws w hw)
  exact ⟨hintact.magic.trans hmagic, hintact⟩

/-- The first of two files is deleted, and the machine stops after the third of six sector writes. -/
theorem crash_intact_delete :
    let a : CString := ⟨[97#8], by decide⟩
    let k := run (pafsFormat ramdiskKernel) [.create 0 a false, .create 0 ⟨[98#8], by decide⟩ false]
    let ws := (opWrites k (.delete 0 a)).take 3
    (opWrites k (.delete 0 a)).map Prod.fst = [18, 18, 1, 0, 17, 1] ∧
      2 ∉ touched k.fs (.delete 0 a) ∧
      Intact k.fs (touched k.fs (.delete 0 a)) (pafsInitRead (replay k.fs.disk ws)) := by
  intro a k ws
  refine ⟨by decide +kernel, ?_,
    ((crash_intact (k := k) ⟨ramdiskKernel, _, rfl⟩ (.delete 0 a)).2 ws
      fun w hw => List.mem_of_mem_take hw).2⟩
  rintro (h | h)
  · exact absurd h (by decide)
  · have hfind : pafsFindEntry k.fs 0 a = 1 := by decide +kernel
    exact absurd (hfind.symm.trans h) (by decide)

end PekerOS.Pafs
