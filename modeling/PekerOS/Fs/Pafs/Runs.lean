import PekerOS.Fs.Pafs.Entries

/-!
# PAFS: blocks and directories along runs

Two consequences of the invariant, over every sequence of calls after a `pafs_format`: the bitmap,
the free counter and the block numbers in the inodes tell the same story, and every directory is
compact, on which lookup, listing and removal all rely.

## Main definitions

* `dirEntries fs d`: the entries of a directory
* `Compact fs d`: the layout in terms of the source's fields
* `readdirFrom`: a caller of `pafs_vfs_readdir` that counts up until it returns null

## Main results

* `run_blocks_owned`: **the bitmap and the inodes agree**
* `run_dir_compact`: **directories are compact**, with what their three readers see
-/

namespace PekerOS.Pafs

/-! ## Directories -/

/-- Inode number and name of every entry of a directory, in slot order. -/
def dirEntries (fs : State) (d : ℕ) : List (Word × List Byte) :=
  ((List.range (14 * 16)).filter fun s => IsEntry fs d s).map fun s =>
    (slotInode fs.disk (fs.inode d) s, slotName fs.disk (fs.inode d) s)

/-- The results of `pafs_vfs_readdir(index)`, `(index + 1)`, … up to the first null, at most `fuel`
of them. Between calls the node's buffer is `impl`, null before the first. -/
def readdirFrom (k : Kernel) (ino : ℕ) (buffer : Word) : ℕ → Word → ℕ → List (Word × List Byte)
  | 0, _, _ => []
  | fuel + 1, impl, index =>
    match pafsVfsReaddir k ino impl (BitVec.ofNat 32 index) with
    | (_, none) => []
    | (k, some entry) => entry :: readdirFrom k ino buffer fuel buffer (index + 1)

/-- The layout of a directory, read off its inode and its blocks. -/
structure Compact (fs : State) (d : ℕ) : Prop where
  dvd : 32 ∣ (fs.inode d).size.toNat
  le : (fs.inode d).size.toNat ≤ 14 * 16 * 32
  prefix_ne_zero : ∀ i j, i ≤ j → j < 14 → fs.block d j ≠ 0#32 → fs.block d i ≠ 0#32
  occupied : ∀ s < (fs.inode d).size.toNat / 32, IsEntry fs d s
  vacant : ∀ s, (fs.inode d).size.toNat / 32 ≤ s → ¬IsEntry fs d s

section Directory

variable {fs : State} {d n m : ℕ}

theorem Layout.compact (ht : (fs.inode d).type = pafsTypeDir)
    (hl : Layout fs.disk (fs.inode d) n m) : Compact fs d := by
  have hsize : (fs.inode d).size.toNat / 32 = n := by
    rw [hl.size]
    omega
  refine ⟨⟨n, hl.size⟩, ?_, fun i j hij hj hne => ?_, fun s hs => ?_, fun s hs => ?_⟩
  · have := hl.entries_lt
    rw [hl.size]
    omega
  · exact hl.block_ne_zero (lt_of_le_of_lt hij ((hl.alloc j hj).mp hne))
  · exact (hl.isEntry_iff ht s).mpr (hsize ▸ hs)
  · rw [hl.isEntry_iff ht s]
    omega

theorem filter_range_lt {n r : ℕ} (h : n ≤ r) :
    (List.range r).filter (fun s => s < n) = List.range n := by
  obtain ⟨r, rfl⟩ := Nat.exists_eq_add_of_le h
  rw [List.range_add, List.filter_append, List.filter_eq_self.mpr (by simp),
    List.filter_eq_nil_iff.mpr (by simp), List.append_nil]

theorem Layout.dirEntries_eq (ht : (fs.inode d).type = pafsTypeDir)
    (hl : Layout fs.disk (fs.inode d) n m) : dirEntries fs d = (List.range n).map fun s =>
      (slotInode fs.disk (fs.inode d) s, slotName fs.disk (fs.inode d) s) := by
  simp only [dirEntries, hl.isEntry_iff ht]
  rw [filter_range_lt (by have := hl.entries_lt; omega)]

/-- The listed entries of a directory are its slots in order. -/
theorem dirEntries_eq_filterMap (fs : State) (d : ℕ) : dirEntries fs d =
    (List.range (14 * 16)).filterMap fun s =>
      (fs.dirent (d, s)).map fun e => (BitVec.ofNat 32 e.1, e.2) := by
  rw [dirEntries, ← List.filterMap_eq_map, List.filterMap_filter]
  congr 1
  funext s
  by_cases hs : IsEntry fs d s
  · simp [State.dirent, hs, entryTarget, entryNameAt]
  · simp [State.dirent, hs]

/-- Directories with the same slots list the same entries. -/
theorem dirEntries_congr {fs' : State} {d' : ℕ} (h : ∀ s, fs'.dirent (d', s) = fs.dirent (d, s)) :
    dirEntries fs' d' = dirEntries fs d := by
  simp only [dirEntries_eq_filterMap, h]

end Directory

section Readdir

variable {k : Kernel} {d n m : ℕ}

theorem fs_pafsVfsReaddir (k : Kernel) (ino : ℕ) (impl index : Word) :
    (pafsVfsReaddir k ino impl index).1.fs = k.fs := by
  have hk : (if impl = 0#32 then k.kmallocSection else k).fs = k.fs := by split <;> rfl
  simp only [pafsVfsReaddir]
  generalize (if impl = 0#32 then k.kmallocSection else k) = k' at hk ⊢
  split_ifs <;> simp [hk]

/-- **Listing**: index `i` gives entry `i`, and null from the number of entries on. -/
theorem pafsVfsReaddir_eq (ht : (k.fs.inode d).type = pafsTypeDir)
    (hl : Layout k.fs.disk (k.fs.inode d) n m) (impl : Word) {i : ℕ} (hi : i ≤ n) :
    (pafsVfsReaddir k d impl (BitVec.ofNat 32 i)).2 =
      if i < n then
        some (slotInode k.fs.disk (k.fs.inode d) i, slotName k.fs.disk (k.fs.inode d) i)
      else none := by
  have hle := hl.le
  have hcap := hl.cap
  have hk : (if impl = 0#32 then k.kmallocSection else k).fs = k.fs := by split <;> rfl
  have hindex : (BitVec.ofNat 32 i).toNat = i := toNat_ofNat_of_lt (by omega)
  have hslot : entryInode (pafsDiskRead k.fs ((k.fs.inode d).blocks.get (i / 16)).toNat) (i % 16) =
      slotInode k.fs.disk (k.fs.inode d) i := rfl
  simp only [pafsVfsReaddir, Kernel.fs_touch, Kernel.fs_lock, Kernel.fs_touchDisk, hk, hindex, hslot]
  generalize (if impl = 0#32 then k.kmallocSection else k) = k'
  -- an empty directory is answered before its blocks are looked at
  by_cases hn : n = 0
  · rw [if_pos (Or.inr (hl.size_eq_zero.mpr hn)), if_neg (by omega)]
  rw [if_neg (by simp [ht, hl.size_eq_zero, hn])]
  by_cases hin : i < n
  · have hblock : (k.fs.inode d).blocks.get (i / 16) ≠ 0#32 := hl.block_ne_zero (by omega)
    have htake : (slotName k.fs.disk (k.fs.inode d) i).take 27 =
        slotName k.fs.disk (k.fs.inode d) i := List.take_of_length_le (hl.name i hin)
    rw [if_neg (by omega), if_neg (by simp [hblock]; omega),
      if_neg ((hl.occupied i (by omega)).mpr hin), if_pos hin]
    exact congrArg some (Prod.ext rfl htake)
  · rw [if_neg hin]
    split_ifs with h₁ h₂ h₃
    · rfl
    · rfl
    · rfl
    · -- the slot after the last entry is empty or in no block
      have hblock : i / 16 < m := (hl.alloc _ (by omega)).mp fun h0 => h₂ (Or.inr h0)
      exact absurd ((hl.occupied i (by omega)).mp h₃) hin

/-- Counting up until null lists the entries from `i` on. -/
theorem readdirFrom_eq (ht : (k.fs.inode d).type = pafsTypeDir)
    (hl : Layout k.fs.disk (k.fs.inode d) n m) (buffer impl : Word) {fuel i : ℕ} (hi : i ≤ n)
    (hfuel : n < i + fuel) : readdirFrom k d buffer fuel impl i =
      (List.range' i (n - i)).map fun s =>
        (slotInode k.fs.disk (k.fs.inode d) s, slotName k.fs.disk (k.fs.inode d) s) := by
  induction fuel generalizing k impl i with
  | zero => omega
  | succ fuel ih =>
    have hentry := pafsVfsReaddir_eq ht hl impl hi
    have hfs := fs_pafsVfsReaddir k d impl (BitVec.ofNat 32 i)
    rw [readdirFrom]
    generalize pafsVfsReaddir k d impl (BitVec.ofNat 32 i) = res at hentry hfs ⊢
    obtain ⟨k', r⟩ := res
    dsimp only at hentry hfs
    subst hentry
    by_cases hin : i < n
    · rw [if_pos hin, show n - i = n - (i + 1) + 1 by omega, List.range'_succ, List.map_cons]
      dsimp only
      rw [ih (hfs ▸ ht) (hfs ▸ hl) buffer (by omega) (by omega), hfs]
    · rw [if_neg hin, show n - i = 0 by omega]
      rfl

end Readdir

/-! ## Runs -/

/-- **The bitmap and the inodes agree** after every sequence of calls: the counter is the number of
clear data bits, the metadata blocks are marked, a block number in an inode is a marked data block,
and a marked data block is named by exactly one slot of one inode. -/
theorem run_blocks_owned (k₀ : Kernel) (ops : List Op) :
    let fs := (run (pafsFormat k₀) ops).fs
    fs.sb.freeBlocks.toNat = Bitmap.clearCount fs.blockBitmap 18 4096 ∧
    (∀ b < 18, pafsBitmapTest fs b = true) ∧
    (∀ i < 128, ∀ s < 14, fs.block i s ≠ 0#32 →
      (18 ≤ (fs.block i s).toNat ∧ (fs.block i s).toNat < 4096) ∧
        pafsBitmapTest fs (fs.block i s).toNat = true) ∧
    (∀ b, 18 ≤ b → b < 4096 → pafsBitmapTest fs b = true →
      ∃! p : ℕ × ℕ, (p.1 < 128 ∧ p.2 < 14) ∧ (fs.block p.1 p.2).toNat = b) := by
  intro fs
  have h : Inv fs := Reachable.inv ⟨k₀, ops, rfl⟩
  refine ⟨h.count, h.reserved, fun i _ s _ hne => h.mem_used hne, fun b hlo hhi hset => ?_⟩
  obtain ⟨⟨i, s⟩, hown, huniq⟩ := h.owns.existsUnique (b := b) ⟨⟨hlo, hhi⟩, hset⟩
  obtain ⟨hne, hb⟩ := State.owner_eq_some.mp hown
  refine ⟨(i, s), ⟨⟨?_, ?_⟩, hb⟩, ?_⟩
  · by_contra hi
    exact hne (fs.block_eq_zero_of_le (by omega))
  · by_contra hs
    exact hne (fs.block_of_le (by omega))
  · rintro ⟨j, u⟩ ⟨-, hju⟩
    refine huniq (j, u) (State.owner_eq_some.mpr ⟨fun h0 => ?_, hju⟩)
    simp [h0] at hju
    omega

/-- **Directories are compact** after every sequence of calls. Listing by index until null gives
each entry once, emptiness is the absence of entries, and the last slot that the removal in
`pafs_delete` computes lies in an allocated block. -/
theorem run_dir_compact (k₀ : Kernel) (ops : List Op) (d : ℕ) :
    let k := run (pafsFormat k₀) ops
    (k.fs.inode d).type = pafsTypeDir →
      Compact k.fs d ∧
      (∀ buffer fuel, 14 * 16 < fuel → readdirFrom k d buffer fuel 0#32 0 = dirEntries k.fs d) ∧
      (pafsIsDirEmpty k.fs d = true ↔ ∀ s, ¬IsEntry k.fs d s) ∧
      (∀ name ino, pafsFindEntry k.fs d name = ino → ino ≠ -1 →
        ¬((k.fs.inode ino.toNat).type = pafsTypeDir ∧ pafsIsDirEmpty k.fs ino.toNat = false) →
        let fs := releaseInode k.fs ino.toNat
        0 ≤ lastEntryTotalIdx (fs.inode d) ∧ (lastEntryTotalIdx (fs.inode d)).tdiv 16 < 14 ∧
          fs.block d ((lastEntryTotalIdx (fs.inode d)).tdiv 16).toNat ≠ 0#32) := by
  intro k ht
  have h : Inv k.fs := Reachable.inv ⟨k₀, ops, rfl⟩
  obtain ⟨n, m, hl⟩ := h.dirs d ht
  refine ⟨hl.compact ht, fun buffer fuel hfuel => ?_, ?_, fun name ino hfind hino hrm => ?_⟩
  · have := hl.entries_lt
    rw [readdirFrom_eq ht hl buffer 0#32 (by omega) (by omega), hl.dirEntries_eq ht, Nat.sub_zero,
      ← List.range_eq_range']
  · simp only [hl.isEntry_iff ht, pafsIsDirEmpty, ht, hl.size_eq_zero, decide_true, Bool.true_and,
      decide_eq_true_eq]
    exact ⟨fun h0 s => by omega, fun h0 => by have := h0 0; omega⟩
  · -- removal still finds the last entry after the inode is released
    rcases h.findEntry_cases d name with hnone | ⟨i, t, n', m', hfind', hf⟩
    · exact absurd (hfind.symm.trans hnone) hino
    obtain rfl := hfind.symm.trans hfind'
    have hempty : (k.fs.inode i).type = pafsTypeDir → (k.fs.inode i).size = 0#32 := fun hdir =>
      not_not.mp fun hsize => hrm (pafsIsDirEmpty_eq_false.mpr ⟨hdir, hsize⟩)
    have hf' := hf.release hempty
    have hlt := hf'.lt
    have hle := hf'.layout.le
    have hcap := hf'.layout.cap
    dsimp only
    rw [Int.toNat_natCast, hf'.layout.lastEntryTotalIdx_eq (by omega)]
    have hdiv : ((n' - 1 : ℕ) : ℤ).tdiv 16 = (((n' - 1) / 16 : ℕ) : ℤ) := rfl
    rw [hdiv, Int.toNat_natCast]
    exact ⟨by omega, by omega, hf'.layout.block_ne_zero (by omega)⟩

/-- A name of one letter. -/
def letter (i : ℕ) : CString := CString.ofBytes [97#8 + BitVec.ofNat 8 i]

/-- Seventeen files in the root, the last of them in its second block. The first one is deleted, and the last
one takes its slot; one more file comes into the second block. -/
theorem run_dir_compact_moved :
    let ops : List Op := (List.range 17).map (fun i => .create 0 (letter i) false) ++
      [.delete 0 (letter 0), .create 0 (letter 17) false]
    let k := run (pafsFormat ramdiskKernel) ops
    Compact k.fs 0 ∧
      (readdirFrom k 0 0#32 225 0#32 0).map Prod.fst = [17, 2, 3, 4, 5, 6, 7, 8, 9, 10, 11, 12, 13, 14, 15, 16, 1] ∧
      pafsFindEntry k.fs 0 (letter 16) = 17 ∧
      let fs := releaseInode k.fs 17
      fs.block 0 ((lastEntryTotalIdx (fs.inode 0)).tdiv 16).toNat ≠ 0#32 := by
  intro ops k
  have hroot : (k.fs.inode 0).type = pafsTypeDir := (Reachable.inv ⟨ramdiskKernel, ops, rfl⟩).rootDir
  obtain ⟨hcompact, hlist, -, hlast⟩ := run_dir_compact ramdiskKernel ops 0 hroot
  have hrun : (dirEntries k.fs 0).map Prod.fst = [17, 2, 3, 4, 5, 6, 7, 8, 9, 10, 11, 12, 13, 14, 15, 16, 1] ∧
      pafsFindEntry k.fs 0 (letter 16) = 17 ∧ (k.fs.inode 17).type ≠ pafsTypeDir := by decide +kernel
  obtain ⟨hentries, hfind, hfile⟩ := hrun
  refine ⟨hcompact, ?_, hfind, ?_⟩
  · rw [hlist 0#32 225 (by decide)]
    exact hentries
  · exact (hlast (letter 16) 17 hfind (by decide) fun hdir => hfile hdir.1).2.2

end PekerOS.Pafs
