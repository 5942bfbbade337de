import PekerOS.Fs.Pafs.HostTool

/-!
# PAFS: images made on the host

`format_pafs` enters `mnt` into the root but leaves the root's size at zero, takes two inodes but one
from the counter, and counts 20480 blocks where the kernel allocates from 4096. Every later call of
`add_file_to_pafs` adds to these numbers what it should, so the offsets stay: in every image made on
the host the root's size is one entry short, and the kernel takes the last slot of the root for the
one before it.

## Main definitions

* `occupied fs d`: the occupied slots of a directory
* `KernelAssumes fs`: what the kernel takes for granted about sizes and counters
* `HostOffset fs`: by how much an image made on the host is off

## Main results

* `HostOffset.format`, `HostOffset.step`: a formatted image, and a file added to one
* `host_images_offset`: no sequence of successful calls makes an image the kernel's numbers are right
  for
-/

namespace PekerOS.Pafs

/-- The occupied slots of a directory. -/
def occupied (fs : State) (d : ℕ) : Finset ℕ := (Finset.range 224).filter fun s => IsEntry fs d s

/-- What the kernel assumes about the numbers on a disk, and what it gets from them. -/
structure KernelAssumes (fs : State) : Prop where
  sizes : ∀ d, (fs.inode d).type = pafsTypeDir →
    (fs.inode d).size.toNat = 32 * (occupied fs d).card
  freeInodes : fs.sb.freeInodes.toNat = (freeInodes fs).card
  freeBlocks : fs.sb.freeBlocks.toNat = Bitmap.clearCount fs.blockBitmap 18 4096
  totalBlocks : fs.sb.totalBlocks.toNat = pafsTotalBlocks
  /-- Lookup finds the name of every entry. -/
  find : ∀ d s, IsEntry fs d s → ∀ name : CString, name.chars = entryNameAt fs d s →
    pafsFindEntry fs d name ≠ -1
  /-- Removal computes the last occupied slot. -/
  last : ∀ d s, IsEntry fs d s → (∀ s', IsEntry fs d s' → s' ≤ s) →
    lastEntryTotalIdx (fs.inode d) = s

/-- The numbers of an image made on the host. -/
structure HostOffset (fs : State) : Prop where
  dir : (fs.inode 0).type = pafsTypeDir
  block : fs.block 0 0 = 18#32
  rest : ∀ s, s ≠ 0 → fs.block 0 s = 0#32
  marked : Bitmap.test fs.blockBitmap 18 = true
  /-- The root's size is one entry short. -/
  size : (fs.inode 0).size.toNat + 32 = 32 * (occupied fs 0).card
  /-- One inode is counted as free that is not. -/
  freeInodes : fs.sb.freeInodes.toNat = (freeInodes fs).card + 1
  /-- The blocks from 4096 on and two more are counted as free. -/
  freeBlocks : Bitmap.clearCount fs.blockBitmap 18 4096 + 16386 ≤ fs.sb.freeBlocks.toNat
  totalBlocks : fs.sb.totalBlocks = 20480#32

section Root

variable {fs fs' : State}

namespace HostOffset

theorem rootBlock (h : HostOffset fs) : RootBlock fs where
  dir := h.dir
  data := by rw [rootLba, h.block]; decide
  marked := by rw [rootLba, h.block]; exact h.marked

/-- The entries of the root are in its one block. -/
theorem isEntry_iff (hdir : (fs.inode 0).type = pafsTypeDir) (hblock : fs.block 0 0 = 18#32)
    (hrest : ∀ s, s ≠ 0 → fs.block 0 s = 0#32) (s : ℕ) :
    IsEntry fs 0 s ↔ s < 16 ∧ entryInode (fs.disk 18) s ≠ 0#32 := by
  by_cases hs : s < 16
  · have hb : (fs.inode 0).blocks.get 0 = 18#32 := hblock
    simp only [IsEntry, slotInode, slotBlock, hdir, show s / 16 = 0 by omega,
      show s % 16 = s by omega, hblock, hb, hs]
    simp
  · simp only [IsEntry, hs, false_and, iff_false, not_and]
    intro _ hne
    exact absurd (hrest _ (by omega)) hne

theorem mem_occupied (h : HostOffset fs) {s : ℕ} :
    s ∈ occupied fs 0 ↔ s < 16 ∧ entryInode (fs.disk 18) s ≠ 0#32 := by
  rw [occupied, Finset.mem_filter, Finset.mem_range, isEntry_iff h.dir h.block h.rest]
  constructor
  · exact fun hs => hs.2
  · exact fun hs => ⟨by omega, hs⟩

/-! ### Adding a file -/

section Step

variable {data : List Byte} {name : List Char} {ino i : ℕ} {assigned : List ℕ} {chars : List Byte}

/-- The new entry is in an empty slot. -/
theorem occupied_step (h : HostOffset fs) (hc : Choice fs data name ino assigned i chars)
    (hs : HostStep fs data ino assigned i chars fs') (hdir : (fs'.inode 0).type = pafsTypeDir)
    (hblock : ∀ s, fs'.block 0 s = fs.block 0 s) :
    (occupied fs' 0).card = (occupied fs 0).card + 1 := by
  have hlba : rootLba fs = 18 := by rw [rootLba, h.block]; rfl
  have hentry := hs.entry
  have hslot := hc.slot
  rw [hlba] at hentry hslot
  obtain ⟨hi, hempty⟩ : i < 16 ∧ entryInode (fs.disk 18) i = 0#32 :=
    ⟨List.mem_range.mp (List.mem_of_find?_eq_some hslot), by simpa using List.find?_some hslot⟩
  -- the new inode is not 0, which is the root's
  have hino : BitVec.ofNat 32 ino ≠ 0#32 := by
    have hlt := (findFreeInode_some.mp hc.free).1.1
    have hword : (BitVec.ofNat 32 ino).toNat = ino := toNat_ofNat_of_lt (by omega)
    intro h0
    rw [h0] at hword
    exact h.rootBlock.ino_ne_zero hc.free hword.symm
  have hnot : i ∉ occupied fs 0 := fun hmem => (h.mem_occupied.mp hmem).2 hempty
  have hinsert : occupied fs' 0 = insert i (occupied fs 0) := by
    ext s
    rw [occupied, Finset.mem_filter, Finset.mem_range, isEntry_iff hdir ((hblock 0).trans h.block)
      fun s hs => (hblock s).trans (h.rest s hs), hentry, Finset.mem_insert, h.mem_occupied]
    by_cases hsi : s = i
    · subst hsi
      rw [entryInode_packEntry _ hi]
      exact iff_of_true ⟨by omega, hi, hino⟩ (Or.inl rfl)
    · rw [(packEntry_of_ne _ hsi _ _).inode]
      simp only [hsi, false_or]
      exact ⟨fun h => h.2, fun h => ⟨by omega, h⟩⟩
  rw [hinsert, Finset.card_insert_of_notMem hnot]

/-- **A file added** to an image keeps its offsets. -/
theorem step (h : HostOffset fs) (hc : Choice fs data name ino assigned i chars)
    (hs : HostStep fs data ino assigned i chars fs') : HostOffset fs' := by
  have hino := h.rootBlock.ino_ne_zero hc.free
  obtain ⟨⟨hlt, hfree⟩, -⟩ := findFreeInode_some.mp hc.free
  have hdir : (fs'.inode 0).type = pafsTypeDir := by
    rw [hs.root]
    exact h.dir
  have hblock : ∀ s, fs'.block 0 s = fs.block 0 s := by
    intro s
    rw [State.block, hs.root, State.block]
  -- the tool takes only blocks the kernel has too, and each once
  have hclear : ∀ b ∈ assigned, b ∈ Bitmap.clearBits fs.blockBitmap 18 4096 := by
    intro b hb
    rw [hc.collected] at hb
    exact mem_takenFrom hb
  have hbits : ∀ b ∈ assigned, b < 8 * 512 := fun b hb => Bitmap.lt_of_mem_clearBits (hclear b hb)
  have hnd : assigned.Nodup := by
    rw [hc.collected]
    exact (takenFrom_sublist 0 _).nodup (nodup_freeList _)
  refine ⟨hdir, (hblock 0).trans h.block, fun s hs0 => (hblock s).trans (h.rest s hs0), ?_, ?_, ?_,
    ?_, ?_⟩
  · rw [hs.blockBitmap, Bitmap.test_foldl_set _ hbits, h.marked, Bool.or_true]
  · have hcard := h.occupied_step hc hs hdir hblock
    have hsize := h.size
    rw [hs.root, hcard, BitVec.toNat_ofNat, Nat.mod_eq_of_lt hc.size]
    omega
  · -- the file's inode is taken, and the counter goes down by one as well
    have hcard := card_freeInodes_take hlt hfree (show (fs'.inode ino).type ≠ _ by
      rw [hs.new]
      exact (by decide : pafsTypeFile ≠ pafsTypeFree)) fun j hj => by
      by_cases hj0 : j = 0
      · subst hj0
        rw [hs.root]
      · rw [hs.other j hj0 hj]
    have hcount := h.freeInodes
    rw [hs.sb, BitVec.toNat_ofNat, Nat.mod_eq_of_lt (by omega)]
    omega
  · -- as many bits are set as the counter is lowered by
    have hcount := Bitmap.clearCount_foldl_set hnd hbits hclear
    have henough := hc.enough
    have hoff := h.freeBlocks
    have hmax := fs.sb.freeBlocks.isLt
    rw [hs.blockBitmap, hs.sb, BitVec.toNat_ofNat, Nat.mod_eq_of_lt (by omega)]
    omega
  · rw [hs.sb]
    exact h.totalBlocks

end Step

end HostOffset

end Root

/-! ## A formatted image -/

section Format

variable (disk : ℕ → Sector)

theorem initRead_formatPafs : pafsInitRead (formatPafs disk) =
    { sb := hostSuperblock
      inodes := hostInodes
      blockBitmap := (List.range 20).foldl Bitmap.set default
      disk := formatPafs disk } := by
  simp only [pafsInitRead, State.mk.injEq, and_true]
  refine ⟨?_, ?_, ?_⟩
  · have hsector : formatPafs disk lbaSuperblock = hostSuperblock.toSector := by
      simp [formatPafs, writeInodes, lbaSuperblock, lbaDataStart, lbaBitmap, lbaInodesStart]
    rw [hsector, Superblock.ofSector_toSector]
  · refine loadInodes_of_sectors fun k hk => ?_
    unfold lbaInodesStart formatPafs
    dsimp only [lbaDataStart, lbaBitmap]
    rw [Function.update_of_ne (by omega), Function.update_of_ne (by omega),
      Function.update_of_ne (by omega), writeInodes, if_pos (by
        simp only [lbaInodesStart, lbaInodesCount]; omega), Nat.add_sub_cancel_left]
  · simp [formatPafs, lbaDataStart, lbaBitmap]

theorem inode_formatPafs (j : ℕ) : (pafsInitRead (formatPafs disk)).inode j =
    if j = 0 then hostDir 18 else if j = 1 then hostDir 19 else default := by
  rw [initRead_formatPafs, State.inode]
  dsimp only
  by_cases h1 : j = 1
  · subst h1
    exact Table.get_set_self _ (by decide) _
  · rw [hostInodes, Table.get_set_ne _ h1, if_neg h1]
    by_cases h0 : j = 0
    · subst h0
      exact Table.get_set_self _ (by decide) _
    · rw [Table.get_set_ne _ h0, if_neg h0, Table.get_default]

theorem block_hostDir (lba s : ℕ) :
    (hostDir lba).blocks.get s = if s = 0 then BitVec.ofNat 32 lba else 0#32 := by
  by_cases hs : s < 14
  · exact Table.get_ofFn (fun k => if k = 0 then BitVec.ofNat 32 lba else 0#32) hs
  · rw [Table.get_of_le _ (by omega), if_neg (by omega)]
    rfl

theorem disk_formatPafs : (pafsInitRead (formatPafs disk)).disk 18 = hostRootDir := by
  simp [pafsInitRead, formatPafs, lbaDataStart]

theorem test_formatPafs (b : ℕ) :
    Bitmap.test (pafsInitRead (formatPafs disk)).blockBitmap b = decide (b < 20) := by
  rw [initRead_formatPafs, Bitmap.test_foldl_set _ fun b hb => by
    have := List.mem_range.mp hb
    omega]
  simp

theorem entryInode_hostRootDir {j : ℕ} (hj : j < 16) :
    entryInode hostRootDir j = if j = 0 then 1#32 else 0#32 := by
  rw [entryInode, hostRootDir]
  by_cases h0 : j = 0
  · subst h0
    rw [Table.getWord_patch_of_disjoint _ _ (Or.inl (by omega)),
      Table.getWord_setWord _ (by omega)]
    rfl
  · rw [Table.getWord_patch_of_disjoint _ _ (Or.inr (by omega)), if_neg h0, Table.setWord,
      Table.getWord_patch_of_disjoint _ _ (Or.inr (by omega))]
    exact entryInode_default j

/-- **A formatted image** is off from the start. -/
theorem HostOffset.format : HostOffset (pafsInitRead (formatPafs disk)) := by
  have hdir : ((pafsInitRead (formatPafs disk)).inode 0).type = pafsTypeDir := by
    rw [inode_formatPafs]
    rfl
  have hblock : ∀ s, (pafsInitRead (formatPafs disk)).block 0 s = if s = 0 then 18#32 else 0#32 := by
    intro s
    rw [State.block, inode_formatPafs]
    exact block_hostDir 18 s
  have hzero := hblock 0
  have hrest : ∀ s, s ≠ 0 → (pafsInitRead (formatPafs disk)).block 0 s = 0#32 := fun s hs => by
    rw [hblock, if_neg hs]
  refine ⟨hdir, hzero, hrest, ?_, ?_, ?_, ?_, ?_⟩
  · rw [test_formatPafs]
    decide
  · -- the root directory has one entry, `mnt`
    have hoccupied : occupied (pafsInitRead (formatPafs disk)) 0 = {0} := by
      ext s
      rw [occupied, Finset.mem_filter, isEntry_iff hdir hzero hrest, disk_formatPafs,
        Finset.mem_range, Finset.mem_singleton]
      constructor
      · rintro ⟨-, hs, hne⟩
        rw [entryInode_hostRootDir hs] at hne
        by_contra h0
        exact hne (if_neg h0)
      · rintro rfl
        rw [entryInode_hostRootDir (by decide)]
        decide
    rw [hoccupied, inode_formatPafs]
    rfl
  · have hused : pafsTypeDir ≠ pafsTypeFree := by decide
    -- inodes 0 and 1 are in use
    have hfree : Pafs.freeInodes (pafsInitRead (formatPafs disk)) = Finset.Ico 2 128 := by
      ext j
      rw [mem_freeInodes, Finset.mem_Ico, inode_formatPafs]
      by_cases h0 : j = 0
      · subst h0
        simp [hostDir, hused]
      · by_cases h1 : j = 1
        · subst h1
          simp [hostDir, hused]
        · simp only [h0, h1, if_false, default_type, and_true]
          omega
    rw [hfree, initRead_formatPafs, Nat.card_Ico]
    rfl
  · -- blocks 18 and 19 are in use
    have hclear : Bitmap.clearBits (pafsInitRead (formatPafs disk)).blockBitmap 18 4096 =
        Finset.Ico 20 4096 := by
      ext b
      rw [Bitmap.mem_clearBits, test_formatPafs, Finset.mem_Ico, decide_eq_false_iff_not]
      omega
    rw [Bitmap.clearCount, hclear, Nat.card_Ico, initRead_formatPafs]
    exact (by decide : 4096 - 20 + 16386 ≤ hostSuperblock.freeBlocks.toNat)
  · rw [initRead_formatPafs]
    rfl

end Format

/-! ## Every image made on the host -/

section Images

variable {fs : State}

/-- The offsets of every image that successful calls make. -/
theorem HostOffset.addAll {disk disk' : ℕ → Sector} {files : List (List Byte × List Char)}
    (h : HostOffset (pafsInitRead disk)) (hadd : Pafs.addAll disk files = some disk') :
    HostOffset (pafsInitRead disk') := by
  induction files generalizing disk with
  | nil =>
    obtain rfl := Option.some.inj hadd
    exact h
  | cons file files ih =>
    obtain ⟨data, name⟩ := file
    rw [Pafs.addAll] at hadd
    dsimp only at hadd
    split at hadd
    · next hres =>
      obtain ⟨ino, bitmap, assigned, i, chars, ha⟩ := added_of_snd hres
      obtain ⟨hc, hs⟩ := ha.hostStep h.rootBlock
      exact ih (h.step hc hs) hadd
    · simp at hadd

/-- The last slot, as removal computes it, is the one before the last of as many slots as there are
entries. -/
theorem HostOffset.lastEntry (h : HostOffset fs) :
    lastEntryTotalIdx (fs.inode 0) + 2 = (occupied fs 0).card := by
  have hle : (occupied fs 0).card ≤ 224 := by
    have := Finset.card_filter_le (Finset.range 224) fun s => IsEntry fs 0 s
    rwa [Finset.card_range] at this
  have hsize := h.size
  have hnum : ((fs.inode 0).size / 32#32).toNat = (occupied fs 0).card - 1 := by
    rw [BitVec.toNat_udiv]
    simp only [BitVec.toNat_ofNat, Nat.reducePow, Nat.reduceMod]
    omega
  rw [lastEntryTotalIdx, BitVec.toInt_eq_toNat_cond, BitVec.toNat_sub, hnum]
  simp only [BitVec.toNat_ofNat, Nat.reducePow, Nat.reduceMod]
  omega

/-- The largest occupied slot is not below the number of entries but one. -/
theorem card_occupied_le {s : ℕ} (hmax : ∀ s', IsEntry fs 0 s' → s' ≤ s) :
    (occupied fs 0).card ≤ s + 1 := by
  have hsub : occupied fs 0 ⊆ Finset.range (s + 1) := by
    intro s' hs'
    have := hmax s' (Finset.mem_filter.mp hs').2
    rw [Finset.mem_range]
    omega
  have := Finset.card_le_card hsub
  rwa [Finset.card_range] at this

/-- **Images made on the host are never what the kernel assumes**: whatever the disk held before and
whatever files are added, the root's size is one entry short, one inode and at least 16386 blocks
are counted as free that are not, 20480 blocks are counted in all, and the slot that removal takes
for the last of the root lies before it. -/
theorem host_images_offset (disk : ℕ → Sector) (files : List (List Byte × List Char))
    {disk' : ℕ → Sector} (hadd : addAll (formatPafs disk) files = some disk') :
    ¬KernelAssumes (pafsInitRead disk') ∧
      (((pafsInitRead disk').inode 0).type = pafsTypeDir ∧
        ((pafsInitRead disk').inode 0).size.toNat + 32 =
          32 * (occupied (pafsInitRead disk') 0).card) ∧
      (pafsInitRead disk').sb.freeInodes.toNat = (freeInodes (pafsInitRead disk')).card + 1 ∧
      Bitmap.clearCount (pafsInitRead disk').blockBitmap 18 4096 + 16386 ≤
        (pafsInitRead disk').sb.freeBlocks.toNat ∧
      (pafsInitRead disk').sb.totalBlocks.toNat = 20480 ∧
      ∀ s, (∀ s', IsEntry (pafsInitRead disk') 0 s' → s' ≤ s) →
        lastEntryTotalIdx ((pafsInitRead disk').inode 0) < s := by
  have h := (HostOffset.format disk).addAll hadd
  refine ⟨fun hk => ?_, ⟨h.dir, h.size⟩, h.freeInodes, h.freeBlocks, ?_, fun s hmax => ?_⟩
  · have := hk.freeInodes
    have := h.freeInodes
    omega
  · rw [h.totalBlocks]
    rfl
  · have := h.lastEntry
    have := card_occupied_le hmax
    omega

/-- One byte added as `a` to a formatted empty disk. -/
theorem host_images_offset_one_file :
    ∃ disk', addAll (formatPafs fun _ => default) [([0x41#8], ['a'])] = some disk' ∧
      (pafsInitRead disk').sb.freeInodes.toNat = (freeInodes (pafsInitRead disk')).card + 1 := by
  have hres : (addFileToPafs (formatPafs fun _ => default) [0x41#8] ['a']).2 = .added := by
    decide +kernel
  have hadd : addAll (formatPafs fun _ => default) [([0x41#8], ['a'])] =
      some (addFileToPafs (formatPafs fun _ => default) [0x41#8] ['a']).1 := by
    rw [addAll]
    dsimp only
    rw [if_pos hres, addAll]
  exact ⟨_, hadd, (host_images_offset _ _ hadd).2.2.1⟩

/-- `mnt` is in slot 0 of the root of a formatted image, and lookup does not find it. -/
theorem mnt_not_found :
    ∃ disk', addAll (formatPafs fun _ => default) [] = some disk' ∧
      IsEntry (pafsInitRead disk') 0 0 ∧
      entryNameAt (pafsInitRead disk') 0 0 = [0x6D#8, 0x6E#8, 0x74#8] ∧
      pafsFindEntry (pafsInitRead disk') 0 ⟨[0x6D#8, 0x6E#8, 0x74#8], by decide⟩ = -1 ∧
      ¬KernelAssumes (pafsInitRead disk') := by
  refine ⟨_, rfl, ?_, ?_, ?_, fun hk => ?_⟩
  · have h := HostOffset.format fun _ => default
    rw [HostOffset.isEntry_iff h.dir h.block h.rest, disk_formatPafs]
    exact ⟨by decide, by decide⟩
  · decide +kernel
  · rw [pafsFindEntry, inode_formatPafs]
    rfl
  · have := hk.totalBlocks
    rw [(HostOffset.format _).totalBlocks] at this
    exact absurd this (by decide)

end Images

end PekerOS.Pafs
