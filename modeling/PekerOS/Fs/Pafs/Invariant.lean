import PekerOS.Lib.Ownership
import PekerOS.Fs.Pafs.Directory

/-!
# PAFS: the invariant

`Blocks` is the block ledger: the metadata blocks are marked, the counter is the number of clear
bits, and the block numbers in the inodes own the marked data blocks exclusively. `Inv` adds what the
directories need: the root is inode 0, a free inode is all zero, and every directory has a layout.
Every state change of PAFS is an edit of one inode and of blocks no other inode owns, so each piece is
one use of `Inv.edit`.

## Main definitions

* `State.owner`, `State.used`: block slots and marked data blocks
* `Blocks`, `Inv`: the ledger and the invariant
* `OnlyFile ino fs fs'`: the two states differ at most in one file

## Main results

* `Blocks.assign`, `Blocks.release`: taking a block and giving it back
* `Inv.edit`: an edit of one inode keeps the invariant
* `Inv.ensureBlock`, `Inv.writeLoop`, `Inv.vfsWriteLoop`: the block loops keep it
* `Inv.grow`, `Inv.put`, `Inv.drop`, `Inv.newInode`, `Inv.dropInode`: the directory edits keep it
* `Inv.format`: a formatted disk has it
-/

namespace PekerOS.Pafs

/-! ## The block ledger -/

/-- The block that slot `p.2` of inode `p.1` names. -/
def State.owner (fs : State) (p : ℕ × ℕ) : Option ℕ :=
  if fs.block p.1 p.2 = 0#32 then none else some (fs.block p.1 p.2).toNat

/-- The data blocks marked in the bitmap. -/
def State.used (fs : State) : Set ℕ :=
  { b | (18 ≤ b ∧ b < 4096) ∧ Bitmap.test fs.blockBitmap b = true }

structure Blocks (fs : State) : Prop where
  reserved : ∀ b < 18, Bitmap.test fs.blockBitmap b = true
  count : fs.sb.freeBlocks.toNat = Bitmap.clearCount fs.blockBitmap 18 4096
  owns : Owns fs.owner fs.used

section Ledger

variable {fs fs' : State} {i s b : ℕ}

theorem State.owner_eq_none : fs.owner (i, s) = none ↔ fs.block i s = 0#32 := by
  simp [State.owner]

theorem State.owner_eq_some : fs.owner (i, s) = some b ↔
    fs.block i s ≠ 0#32 ∧ (fs.block i s).toNat = b := by
  unfold State.owner
  split <;> simp_all

theorem State.owner_congr {p : ℕ × ℕ} (h : fs'.block p.1 p.2 = fs.block p.1 p.2) :
    fs'.owner p = fs.owner p := by
  simp only [State.owner, h]

theorem Blocks.mem_used (h : Blocks fs) (hb : fs.block i s ≠ 0#32) :
    (fs.block i s).toNat ∈ fs.used :=
  h.owns.used_of_slot (State.owner_eq_some.mpr ⟨hb, rfl⟩)

theorem Blocks.data (h : Blocks fs) (hb : fs.block i s ≠ 0#32) : 18 ≤ (fs.block i s).toNat :=
  (h.mem_used hb).1.1

/-- Two slots that name one block are the same slot. -/
theorem Blocks.inj (h : Blocks fs) {j u : ℕ} (hb : fs.block i s ≠ 0#32)
    (heq : (fs.block i s).toNat = (fs.block j u).toNat) : i = j ∧ s = u := by
  have hj : fs.block j u ≠ 0#32 := fun h0 => by
    have := h.data hb
    rw [heq, h0] at this
    simp at this
  have := h.owns.inj (State.owner_eq_some.mpr ⟨hb, rfl⟩) (State.owner_eq_some.mpr ⟨hj, heq.symm⟩)
  exact Prod.mk.inj this

theorem Blocks.separate (h : Blocks fs) (i : ℕ) : (fs.inode i).Separate :=
  ⟨fun hb => h.data (i := i) hb, fun hb heq => (h.inj (i := i) (j := i) hb heq).2⟩

/-- A clear data block is named by no slot. -/
theorem Blocks.fresh (h : Blocks fs) (hb : Bitmap.test fs.blockBitmap b = false)
    (hne : fs.block i s ≠ 0#32) : (fs.block i s).toNat ≠ b := by
  rintro rfl
  have := (h.mem_used hne).2
  simp [hb] at this

theorem Blocks.congr (h : Blocks fs) (hblock : ∀ i s, fs'.block i s = fs.block i s)
    (hmap : fs'.blockBitmap = fs.blockBitmap) (hfree : fs'.sb.freeBlocks = fs.sb.freeBlocks) :
    Blocks fs' where
  reserved := by rw [hmap]; exact h.reserved
  count := by rw [hmap, hfree]; exact h.count
  owns := h.owns.congr (fun p => State.owner_congr (hblock p.1 p.2)) fun b => by
    simp only [State.used, hmap]

/-- Taking a clear block for an empty slot. -/
theorem Blocks.assign (h : Blocks fs) (hb : b ∈ Bitmap.clearBits fs.blockBitmap 18 4096)
    (hzero : fs.block i s = 0#32) (hself : fs'.block i s = BitVec.ofNat 32 b)
    (hne : ∀ j u, (j, u) ≠ (i, s) → fs'.block j u = fs.block j u)
    (hmap : fs'.blockBitmap = Bitmap.set fs.blockBitmap b)
    (hfree : fs'.sb.freeBlocks = fs.sb.freeBlocks - 1#32) : Blocks fs' := by
  obtain ⟨hrange, hclear⟩ := Bitmap.mem_clearBits.mp hb
  have htest := fun c => Bitmap.test_set fs.blockBitmap (show b < 8 * 512 by omega) c
  have hword := toNat_ofNat_of_lt hrange.2
  refine ⟨fun c hc => ?_, ?_, ?_⟩
  · rw [hmap, htest, h.reserved c hc, Bool.or_true]
  · have hcount := Bitmap.clearCount_set (by omega) hb
    have := h.count
    rw [hmap, hfree, BitVec.toNat_sub]
    simp only [BitVec.toNat_ofNat]
    have := Bitmap.clearCount_le fs.blockBitmap 18 4096
    omega
  · refine h.owns.assign (i := (i, s)) (b := b) (State.owner_eq_none.mpr hzero) ?_ ?_ ?_ ?_
    · simp [State.used, hclear]
    · refine State.owner_eq_some.mpr ⟨fun h0 => ?_, by rw [hself, hword]⟩
      rw [hself] at h0
      rw [h0] at hword
      simp at hword
      omega
    · exact fun p hp => State.owner_congr (hne p.1 p.2 hp)
    · intro c
      simp only [State.used, Set.mem_ofPred_eq, hmap, htest, Bool.or_eq_true, decide_eq_true_eq]
      constructor
      · rintro ⟨hc, rfl | hset⟩
        · exact Or.inl rfl
        · exact Or.inr ⟨hc, hset⟩
      · rintro (rfl | ⟨hc, hset⟩)
        · exact ⟨hrange, Or.inl rfl⟩
        · exact ⟨hc, Or.inr hset⟩

/-- Giving the block of a slot back. -/
theorem Blocks.release (h : Blocks fs) (hb : fs.block i s ≠ 0#32) (hself : fs'.block i s = 0#32)
    (hne : ∀ j u, (j, u) ≠ (i, s) → fs'.block j u = fs.block j u)
    (hmap : fs'.blockBitmap = Bitmap.clear fs.blockBitmap (fs.block i s).toNat)
    (hfree : fs'.sb.freeBlocks = fs.sb.freeBlocks + 1#32) : Blocks fs' := by
  obtain ⟨hrange, hset⟩ := h.mem_used hb
  have hlt : (fs.block i s).toNat < 8 * 512 := by omega
  have htest := fun c => Bitmap.test_clear fs.blockBitmap hlt c
  refine ⟨fun c hc => ?_, ?_, ?_⟩
  · rw [hmap, htest, h.reserved c hc, Bool.and_true, decide_eq_true_eq]
    omega
  · have hcount := Bitmap.clearCount_clear (by omega) hrange.1 hrange.2 hset
    have hle := Bitmap.clearCount_le fs.blockBitmap 18 4096
    have := h.count
    rw [hmap, hfree, hcount, BitVec.toNat_add]
    simp only [BitVec.toNat_ofNat]
    omega
  · refine h.owns.release (i := (i, s)) (b := (fs.block i s).toNat)
      (State.owner_eq_some.mpr ⟨hb, rfl⟩) (State.owner_eq_none.mpr hself)
      (fun p hp => State.owner_congr (hne p.1 p.2 hp)) fun c => ?_
    simp only [State.used, Set.mem_ofPred_eq, hmap, htest, Bool.and_eq_true, decide_eq_true_eq]
    tauto

/-- `alloc_block` for an empty slot of an inode. -/
theorem Blocks.takeBlock (h : Blocks fs) (hlt : i < 128) (hs : s < 14) (hzero : fs.block i s = 0#32)
    (hb : findFreeBlock fs = some b) :
    Blocks ((Pafs.takeBlock fs b).setBlock i s (BitVec.ofNat 32 b)) :=
  h.assign (findFreeBlock_some.mp hb).1 hzero (State.block_setBlock_self _ hlt hs _)
    (fun _ _ hne => State.block_setBlock_ne _ hlt hne _) rfl rfl

/-- One step of the loop that frees the blocks of an inode. -/
theorem Blocks.freeBlock (h : Blocks fs) (hlt : i < 128) (hs : s < 14) :
    Blocks (Pafs.freeBlock i fs s) := by
  unfold Pafs.freeBlock
  split
  · next hb =>
    exact h.release hb (State.block_setBlock_self _ hlt hs _)
      (fun _ _ hne => State.block_setBlock_ne _ hlt hne _) rfl rfl
  · exact h

/-- What the loop that frees the blocks of an inode leaves alone, and the slots it empties. -/
structure Freed (ino : ℕ) (slots : List ℕ) (fs fs' : State) : Prop where
  disk : fs'.disk = fs.disk
  rootInode : fs'.sb.rootInode = fs.sb.rootInode
  freeInodes : fs'.sb.freeInodes = fs.sb.freeInodes
  inode : ∀ j, j ≠ ino → fs'.inode j = fs.inode j
  type : (fs'.inode ino).type = (fs.inode ino).type
  block : ∀ s, fs'.block ino s = if s ∈ slots then 0#32 else fs.block ino s

theorem freed_freeBlock (fs : State) (hlt : i < 128) (hs : s < 14) :
    Freed i [s] fs (Pafs.freeBlock i fs s) := by
  unfold Pafs.freeBlock
  split
  · refine ⟨rfl, rfl, rfl, fun j hj => State.inode_setBlock_ne _ hj _,
      State.type_setBlock _ hlt _, fun u => ?_⟩
    split
    · next hu =>
      rw [List.mem_singleton.mp hu]
      exact State.block_setBlock_self _ hlt hs _
    · next hu =>
      exact State.block_setBlock_ne _ hlt (fun h => hu (by simp [(Prod.mk.inj h).2])) _
  · next hzero =>
    refine ⟨rfl, rfl, rfl, fun _ _ => rfl, rfl, fun u => ?_⟩
    split
    · next hu => rw [List.mem_singleton.mp hu]; exact not_not.mp hzero
    · rfl

theorem Freed.cons {slots : List ℕ} {fs₁ fs₂ : State} (h : Freed i [s] fs fs₁)
    (h' : Freed i slots fs₁ fs₂) : Freed i (s :: slots) fs fs₂ where
  disk := h'.disk.trans h.disk
  rootInode := h'.rootInode.trans h.rootInode
  freeInodes := h'.freeInodes.trans h.freeInodes
  inode j hj := (h'.inode j hj).trans (h.inode j hj)
  type := h'.type.trans h.type
  block u := by
    rw [h'.block, h.block]
    by_cases hu : u ∈ slots <;> simp [hu]

theorem foldl_freeBlock (hlt : i < 128) (slots : List ℕ) (hslots : ∀ s ∈ slots, s < 14) :
    Freed i slots fs (slots.foldl (Pafs.freeBlock i) fs) ∧
      (Blocks fs → Blocks (slots.foldl (Pafs.freeBlock i) fs)) := by
  induction slots generalizing fs with
  | nil => exact ⟨⟨rfl, rfl, rfl, fun _ _ => rfl, rfl, fun _ => by simp⟩, id⟩
  | cons s slots ih =>
    have hs := hslots s List.mem_cons_self
    have hrest := @ih (Pafs.freeBlock i fs s) fun u hu => hslots u (List.mem_cons_of_mem s hu)
    exact ⟨(freed_freeBlock fs hlt hs).cons hrest.1, fun h => hrest.2 (h.freeBlock hlt hs)⟩

end Ledger

section Inodes

variable (fs : State) {ino : ℕ}

theorem inode_newInode_self (hlt : ino < 128) (isDir : Bool) : (newInode fs ino isDir).inode ino =
    ⟨if isDir then pafsTypeDir else pafsTypeFile, 0#32, default⟩ :=
  State.inode_setInode_self _ hlt _

theorem inode_newInode_ne {j : ℕ} (hj : j ≠ ino) (isDir : Bool) :
    (newInode fs ino isDir).inode j = fs.inode j :=
  State.inode_setInode_ne _ hj _

theorem freed_freeBlocks (hlt : ino < 128) :
    Freed ino (List.range 14) fs (freeBlocks fs ino) ∧ (Blocks fs → Blocks (freeBlocks fs ino)) :=
  foldl_freeBlock hlt (List.range 14) fun _ hs => List.mem_range.mp hs

theorem inode_releaseInode_eq (hlt : ino < 128) : (releaseInode fs ino).inode ino =
    ⟨pafsTypeFree, 0#32, ((freeBlocks fs ino).inode ino).blocks⟩ :=
  State.inode_setInode_self _ hlt _

/-- A released inode is all zero. -/
theorem inode_releaseInode_self (hlt : ino < 128) : (releaseInode fs ino).inode ino = default := by
  have hblocks : ((freeBlocks fs ino).inode ino).blocks = default := by
    refine Table.ext_get fun s hs => ?_
    have := (freed_freeBlocks fs hlt).1.block s
    rw [if_pos (List.mem_range.mpr hs)] at this
    rw [Table.get_default]
    exact this
  rw [inode_releaseInode_eq fs hlt, hblocks]
  rfl

theorem inode_releaseInode_ne (hlt : ino < 128) {j : ℕ} (hj : j ≠ ino) :
    (releaseInode fs ino).inode j = fs.inode j :=
  (State.inode_setInode_ne _ hj _).trans ((freed_freeBlocks fs hlt).1.inode j hj)

theorem disk_releaseInode (hlt : ino < 128) : (releaseInode fs ino).disk = fs.disk :=
  (freed_freeBlocks fs hlt).1.disk

theorem freeInodes_releaseInode (hlt : ino < 128) :
    (releaseInode fs ino).sb.freeInodes = fs.sb.freeInodes + 1#32 :=
  congrArg (· + 1#32) (freed_freeBlocks fs hlt).1.freeInodes

end Inodes

/-! ## The invariant -/

structure Inv (fs : State) : Prop extends Blocks fs where
  root : fs.sb.rootInode = 0#32
  rootDir : (fs.inode 0).type = pafsTypeDir
  free : ∀ i, (fs.inode i).type = pafsTypeFree → fs.inode i = default
  dirs : ∀ i, (fs.inode i).type = pafsTypeDir → ∃ n m, Layout fs.disk (fs.inode i) n m

/-- An inode with a type is one of the 128. -/
theorem State.lt_of_type_ne {fs : State} {i : ℕ} (h : (fs.inode i).type ≠ 0#32) : i < 128 := by
  by_contra hi
  rw [fs.inode_of_le (by omega)] at h
  exact h rfl

/-- The two states differ at most in the record and the blocks of one inode, whose type stays. -/
structure OnlyFile (ino : ℕ) (fs fs' : State) : Prop where
  inode : ∀ j, j ≠ ino → fs'.inode j = fs.inode j
  data : ∀ j, j ≠ ino → ∀ s, fs.block j s ≠ 0#32 →
    fs'.disk (fs.block j s).toNat = fs.disk (fs.block j s).toNat
  type : (fs'.inode ino).type = (fs.inode ino).type
  rootInode : fs'.sb.rootInode = fs.sb.rootInode
  freeInodes : fs'.sb.freeInodes = fs.sb.freeInodes

namespace OnlyFile

variable {ino : ℕ} {fs fs₁ fs₂ fs₃ : State}

theorem refl (ino : ℕ) (fs : State) : OnlyFile ino fs fs :=
  ⟨fun _ _ => rfl, fun _ _ _ _ => rfl, rfl, rfl, rfl⟩

theorem block (h : OnlyFile ino fs₁ fs₂) {j : ℕ} (hj : j ≠ ino) (s : ℕ) :
    fs₂.block j s = fs₁.block j s := by
  rw [State.block, h.inode j hj, State.block]

theorem trans (h : OnlyFile ino fs₁ fs₂) (h' : OnlyFile ino fs₂ fs₃) : OnlyFile ino fs₁ fs₃ where
  inode j hj := (h'.inode j hj).trans (h.inode j hj)
  data j hj s hs := by
    have hblock := h.block hj s
    have := h'.data j hj s (by rwa [hblock])
    rw [hblock] at this
    exact this.trans (h.data j hj s hs)
  type := h'.type.trans h.type
  rootInode := h'.rootInode.trans h.rootInode
  freeInodes := h'.freeInodes.trans h.freeInodes

end OnlyFile

namespace Inv

variable {fs fs' : State} {d n m b : ℕ}

/-- **An edit of one inode** keeps the invariant if the ledger stays and the inode is in order. -/
theorem edit (h : Inv fs) (hblocks : Blocks fs') (hroot : fs'.sb.rootInode = fs.sb.rootInode)
    (hinode : ∀ j, j ≠ d → fs'.inode j = fs.inode j)
    (hdata : ∀ j, j ≠ d → ∀ s, fs.block j s ≠ 0#32 →
      fs'.disk (fs.block j s).toNat = fs.disk (fs.block j s).toNat)
    (hzero : d = 0 → (fs'.inode d).type = pafsTypeDir)
    (hfree : (fs'.inode d).type = pafsTypeFree → fs'.inode d = default)
    (hdir : (fs'.inode d).type = pafsTypeDir → ∃ n m, Layout fs'.disk (fs'.inode d) n m) :
    Inv fs' where
  toBlocks := hblocks
  root := hroot.trans h.root
  rootDir := by
    by_cases h0 : d = 0
    · exact h0 ▸ hzero h0
    · rw [hinode 0 (Ne.symm h0)]
      exact h.rootDir
  free i hi := by
    by_cases hid : i = d
    · subst hid
      exact hfree hi
    · rw [hinode i hid] at hi ⊢
      exact h.free i hi
  dirs i hi := by
    by_cases hid : i = d
    · subst hid
      exact hdir hi
    · rw [hinode i hid] at hi ⊢
      obtain ⟨n, m, hl⟩ := h.dirs i hi
      exact ⟨n, m, hl.congr fun s _ hs => hdata i hid s hs⟩

theorem lt_of_dir (_ : Inv fs) (hd : (fs.inode d).type = pafsTypeDir) : d < 128 :=
  State.lt_of_type_ne (by rw [hd]; decide)

theorem file_ne_zero (h : Inv fs) (hd : (fs.inode d).type = pafsTypeFile) : d ≠ 0 := by
  rintro rfl
  rw [h.rootDir] at hd
  exact absurd hd (by decide)

/-- Changes of the metadata sectors and of the inode counter keep the invariant. -/
theorem sameData (h : Inv fs) (hs : State.SameData fs fs') : Inv fs' where
  toBlocks := h.toBlocks.congr hs.block hs.blockBitmap hs.freeBlocks
  root := hs.rootInode.trans h.root
  rootDir := by rw [hs.inode]; exact h.rootDir
  free i hi := by rw [hs.inode] at hi ⊢; exact h.free i hi
  dirs i hi := by
    rw [hs.inode] at hi ⊢
    obtain ⟨n, m, hl⟩ := h.dirs i hi
    exact ⟨n, m, hl.congr fun s _ hb => hs.data _ (h.data (i := i) hb)⟩

/-- An edit of a file inode that keeps its type. -/
theorem editFile (h : Inv fs) (ht : (fs.inode d).type = pafsTypeFile) (ho : OnlyFile d fs fs')
    (hblocks : Blocks fs') : Inv fs' := by
  have ht' : (fs'.inode d).type = pafsTypeFile := ho.type.trans ht
  refine h.edit hblocks ho.rootInode ho.inode ho.data (fun h0 => absurd h0 (h.file_ne_zero ht)) ?_ ?_
  · intro hfree
    rw [ht'] at hfree
    exact absurd hfree (by decide)
  · intro hdir
    rw [ht'] at hdir
    exact absurd hdir (by decide)

/-! ### Edits of a file -/

section File

variable {ino i : ℕ}

/-- Writing a block of a file. -/
theorem writeBlock (h : Inv fs) (ht : (fs.inode ino).type = pafsTypeFile) (i : ℕ) (buf : Sector) :
    Inv (pafsDiskWrite fs (fs.block ino i).toNat buf) ∧
      OnlyFile ino fs (pafsDiskWrite fs (fs.block ino i).toNat buf) := by
  have ho : OnlyFile ino fs (pafsDiskWrite fs (fs.block ino i).toNat buf) := by
    refine ⟨fun _ _ => rfl, fun j hj s hs => ?_, rfl, rfl, rfl⟩
    exact disk_pafsDiskWrite_ne _ (fun heq => hj (h.inj hs heq).1) _
  exact ⟨h.editFile ht ho (h.toBlocks.congr (fun _ _ => rfl) rfl rfl), ho⟩

theorem setSize (h : Inv fs) (ht : (fs.inode ino).type = pafsTypeFile) (size : Word) :
    Inv (fs.setSize ino size) ∧ OnlyFile ino fs (fs.setSize ino size) := by
  have hlt : ino < 128 := State.lt_of_type_ne (by rw [ht]; decide)
  have ho : OnlyFile ino fs (fs.setSize ino size) :=
    ⟨fun j hj => fs.inode_setSize_ne hj size, fun _ _ _ _ => rfl, fs.type_setSize hlt size, rfl, rfl⟩
  exact ⟨h.editFile ht ho (h.toBlocks.congr (fun j s => fs.block_setSize hlt size) rfl rfl), ho⟩

theorem saveInode (h : Inv fs) (hlt : ino < 128) :
    Inv (pafsSaveInode fs ino) ∧ OnlyFile ino fs (pafsSaveInode fs ino) := by
  have hs : State.SameData fs (pafsSaveInode fs ino) := State.SameData.saveInode hlt
  exact ⟨h.sameData hs, fun j _ => hs.inode j, fun j _ s hb => hs.data _ (h.data hb), rfl, rfl, rfl⟩

theorem ensureBlock (h : Inv fs) (ht : (fs.inode ino).type = pafsTypeFile) (hi : i < 14)
    (he : Pafs.ensureBlock fs ino i = some fs') :
    Inv fs' ∧ OnlyFile ino fs fs' ∧ fs'.block ino i ≠ 0#32 := by
  have hlt : ino < 128 := State.lt_of_type_ne (by rw [ht]; decide)
  unfold Pafs.ensureBlock at he
  split at he
  · next hzero =>
    obtain ⟨⟨fs₁, b⟩, halloc, rfl⟩ := Option.map_eq_some_iff.mp he
    obtain ⟨b', hb, heq⟩ := Option.map_eq_some_iff.mp halloc
    obtain ⟨rfl, rfl⟩ := Prod.mk.inj heq
    have hrange := (mem_clearBits_of_findFreeBlock hb).1
    have ho : OnlyFile ino fs ((takeBlock fs b').setBlock ino i (BitVec.ofNat 32 b')) := by
      refine ⟨fun j hj => State.inode_setBlock_ne _ hj _, fun j hj s hs => ?_,
        State.type_setBlock _ hlt _, rfl, rfl⟩
      exact disk_takeBlock fs b' (h.data hs)
    refine ⟨h.editFile ht ho (h.toBlocks.takeBlock hlt hi hzero hb), ho, ?_⟩
    rw [State.block_setBlock_self _ hlt hi]
    intro h0
    have := toNat_ofNat_of_lt hrange.2
    rw [h0] at this
    simp at this
    omega
  · next hne =>
    obtain rfl := Option.some.inj he
    exact ⟨h, OnlyFile.refl ino fs, hne⟩

/-- The loop of `pafs_write` changes at most the file. -/
theorem writeLoop {data : ℕ → Byte} {len r done : ℕ} (h : Inv fs)
    (ht : (fs.inode ino).type = pafsTypeFile) (hr : i + r = 14) :
    Inv (Pafs.writeLoop ino data len r fs i done).1 ∧
      OnlyFile ino fs (Pafs.writeLoop ino data len r fs i done).1 := by
  induction r generalizing fs i done with
  | zero => exact ⟨h, OnlyFile.refl ino fs⟩
  | succ r ih =>
    rw [Pafs.writeLoop]
    split
    · cases he : Pafs.ensureBlock fs ino i with
      | none => exact ⟨h, OnlyFile.refl ino fs⟩
      | some fs₁ =>
        obtain ⟨h₁, ho₁, -⟩ := h.ensureBlock ht (by omega) he
        have ht₁ := ho₁.type.trans ht
        obtain ⟨h₂, ho₂⟩ := h₁.writeBlock ht₁ i
          ((default : Sector).patch 0 (min (len - done) 512) fun k => data (done + k))
        obtain ⟨h₃, ho₃⟩ := @ih _ (i + 1) (done + min (len - done) 512) h₂ (ho₂.type.trans ht₁)
          (by omega)
        exact ⟨h₃, (ho₁.trans ho₂).trans ho₃⟩
    · exact ⟨h, OnlyFile.refl ino fs⟩

/-- The loop of `pafs_vfs_write` changes at most the file. -/
theorem vfsWriteLoop {buffer : ℕ → Byte} {size r off done : ℕ} (h : Inv fs)
    (ht : (fs.inode ino).type = pafsTypeFile) (hr : r = 0 ∨ i + r = 14) :
    Inv (Pafs.vfsWriteLoop ino buffer size r fs i off done).1 ∧
      OnlyFile ino fs (Pafs.vfsWriteLoop ino buffer size r fs i off done).1 := by
  induction r generalizing fs i off done with
  | zero => exact ⟨h, OnlyFile.refl ino fs⟩
  | succ r ih =>
    rw [Pafs.vfsWriteLoop]
    split
    · cases he : Pafs.ensureBlock fs ino i with
      | none => exact ⟨h, OnlyFile.refl ino fs⟩
      | some fs₁ =>
        obtain ⟨h₁, ho₁, -⟩ := h.ensureBlock ht (by omega) he
        have ht₁ := ho₁.type.trans ht
        have hwrite := fun buf => h₁.writeBlock ht₁ i buf
        have hrest := fun buf => @ih _ (i + 1) 0 (done + min (512 - off) (size - done))
          (hwrite buf).1 ((hwrite buf).2.type.trans ht₁) (by omega)
        exact ⟨(hrest _).1, (ho₁.trans (hwrite _).2).trans (hrest _).2⟩
    · exact ⟨h, OnlyFile.refl ino fs⟩

end File

/-! ### Edits of a directory -/

section Directory

variable {name : CString} {ino : ℕ}

/-- A new block at the end of a directory. -/
theorem grow (h : Inv fs) (ht : (fs.inode d).type = pafsTypeDir)
    (hl : Layout fs.disk (fs.inode d) n m) (hm : m < 14) (hb : findFreeBlock fs = some b) :
    Inv (growDir fs d m b) ∧
      Layout (growDir fs d m b).disk ((growDir fs d m b).inode d) n (m + 1) := by
  have hd := h.lt_of_dir ht
  obtain ⟨hrange, hclear⟩ := mem_clearBits_of_findFreeBlock hb
  have hl' := Layout.grow hd hl hm (h.separate d) hrange fun s hs => h.fresh (i := d) hclear hs
  have ht' : ((growDir fs d m b).inode d).type = pafsTypeDir := by
    rw [inode_growDir_self hd]
    exact ht
  have hblocks : Blocks (growDir fs d m b) :=
    (h.toBlocks.takeBlock hd hm (hl.block_eq_zero le_rfl) hb).congr (fun _ _ => rfl) rfl rfl
  refine ⟨h.edit hblocks rfl (fun j hj => inode_growDir_ne hj) (fun j hj s hs => ?_)
    (fun _ => ht') (fun hfree => ?_) (fun _ => ⟨n, m + 1, hl'⟩), hl'⟩
  · exact disk_growDir_ne (h.data hs) (h.fresh hclear hs)
  · rw [ht'] at hfree
    exact absurd hfree (by decide)

/-- Slot `n` of a directory filled. -/
theorem put (h : Inv fs) (ht : (fs.inode d).type = pafsTypeDir)
    (hl : Layout fs.disk (fs.inode d) n m) (hn : n < 16 * m) (hpos : 0 < ino) (hino : ino < 128) :
    Inv (putEntry fs d n name ino) ∧
      Layout (putEntry fs d n name ino).disk ((putEntry fs d n name ino).inode d) (n + 1) m := by
  have hd := h.lt_of_dir ht
  have hl' := Layout.put name ino hd hl hn (h.separate d) hpos hino
  have ht' : ((putEntry fs d n name ino).inode d).type = pafsTypeDir := by
    rw [inode_putEntry_self name ino hd]
    exact ht
  have hblocks : Blocks (putEntry fs d n name ino) :=
    h.toBlocks.congr (fun j s => State.block_setSize _ hd _) rfl rfl
  refine ⟨h.edit hblocks rfl (fun j hj => inode_putEntry_ne name ino hj) (fun j hj s hs => ?_)
    (fun _ => ht') (fun hfree => ?_) (fun _ => ⟨n + 1, m, hl'⟩), hl'⟩
  · exact disk_putEntry_ne name ino hd (h.data hs) fun heq => hj (h.inj hs heq).1
  · rw [ht'] at hfree
    exact absurd hfree (by decide)

/-- Slot `t` of a directory removed. -/
theorem drop {t : ℕ} (h : Inv fs) (ht : (fs.inode d).type = pafsTypeDir)
    (hl : Layout fs.disk (fs.inode d) n m) (htn : t < n) :
    Inv (dropEntry fs d t n) ∧
      Layout (dropEntry fs d t n).disk ((dropEntry fs d t n).inode d) (n - 1) m := by
  have hd := h.lt_of_dir ht
  have hl' := Layout.drop hd hl (h.separate d) htn
  have ht' : ((dropEntry fs d t n).inode d).type = pafsTypeDir := by
    rw [inode_dropEntry_self hd]
    exact ht
  have hsb : (dropEntry fs d t n).sb = fs.sb ∧
      (dropEntry fs d t n).blockBitmap = fs.blockBitmap := by
    unfold dropEntry
    dsimp only
    split <;> exact ⟨rfl, rfl⟩
  have hblocks : Blocks (dropEntry fs d t n) := by
    refine h.toBlocks.congr (fun j s => ?_) hsb.2 (by rw [hsb.1])
    by_cases hj : j = d
    · subst hj
      rw [State.block, inode_dropEntry_self hd, State.block]
    · rw [State.block, inode_dropEntry_ne hj, State.block]
  refine ⟨h.edit hblocks (by rw [hsb.1]) (fun j hj => inode_dropEntry_ne hj) (fun j hj s hs => ?_)
    (fun _ => ht') (fun hfree => ?_) (fun _ => ⟨n - 1, m, hl'⟩), hl'⟩
  · exact disk_dropEntry_ne hd (h.data hs) (fun heq => hj (h.inj hs heq).1)
      fun heq => hj (h.inj hs heq).1
  · rw [ht'] at hfree
    exact absurd hfree (by decide)

end Directory

/-! ### New and released inodes -/

section Inodes

variable {ino : ℕ}

theorem free_ne_zero (h : Inv fs) (hfree : (fs.inode ino).type = pafsTypeFree) : ino ≠ 0 := by
  rintro rfl
  rw [h.rootDir] at hfree
  exact absurd hfree (by decide)

/-- The new inode has no blocks, and neither had the free one. -/
theorem block_newInode (h : Inv fs) (hlt : ino < 128)
    (hfree : (fs.inode ino).type = pafsTypeFree) (isDir : Bool) (j s : ℕ) :
    (Pafs.newInode fs ino isDir).block j s = fs.block j s := by
  by_cases hj : j = ino
  · subst hj
    rw [State.block, inode_newInode_self fs hlt, State.block, h.free j hfree, default_blocks]
  · rw [State.block, inode_newInode_ne fs hj, State.block]

theorem newInode (h : Inv fs) (hlt : ino < 128) (hfree : (fs.inode ino).type = pafsTypeFree)
    (isDir : Bool) : Inv (Pafs.newInode fs ino isDir) := by
  have hself := inode_newInode_self fs hlt isDir
  refine h.edit (d := ino) (h.toBlocks.congr (h.block_newInode hlt hfree isDir) rfl rfl) rfl
    (fun j hj => inode_newInode_ne fs hj isDir) (fun _ _ _ _ => rfl)
    (fun h0 => absurd h0 (h.free_ne_zero hfree)) (fun hf => ?_) (fun _ => ⟨0, 0, ?_⟩)
  · rw [hself] at hf
    cases isDir <;> exact absurd hf (by decide)
  · rw [hself]
    exact Layout.empty rfl fun i _ => Table.get_default i

theorem releaseInode (h : Inv fs) (hlt : ino < 128) (h0 : ino ≠ 0) :
    Inv (Pafs.releaseInode fs ino) := by
  obtain ⟨hfreed, hblocks⟩ := freed_freeBlocks fs hlt
  have hself := inode_releaseInode_self fs hlt
  have hne := fun j hj => inode_releaseInode_ne fs hlt (j := j) hj
  have hblock : ∀ j s, (Pafs.releaseInode fs ino).block j s = (freeBlocks fs ino).block j s := by
    intro j s
    by_cases hj : j = ino
    · subst hj
      rw [State.block, inode_releaseInode_eq fs hlt, State.block]
    · rw [State.block, hne j hj, State.block, hfreed.inode j hj]
  refine h.edit (d := ino) ((hblocks h.toBlocks).congr hblock rfl rfl) hfreed.rootInode hne
    (fun _ _ _ _ => by rw [disk_releaseInode fs hlt]) (fun h => absurd h h0) (fun _ => hself)
    (fun hdir => ?_)
  rw [hself] at hdir
  exact absurd hdir (by decide)

end Inodes

end Inv

end PekerOS.Pafs
