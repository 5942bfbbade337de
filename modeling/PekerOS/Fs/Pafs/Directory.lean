import PekerOS.Fs.Pafs.State

/-!
# PAFS: directories

The entries of a directory are numbered across its blocks, sixteen to a block. In a directory with
`n` entries in `m` blocks the first `m` block numbers are non-zero and the first `n` slots are
occupied, and the size field is `32 * n`. Lookup stops at the first zero block number, insertion
takes the first empty slot and removal computes the last slot from the size: on this layout each of
them does what its name says, and each is described here by one theorem.

## Main definitions

* `slotInode`, `slotName`: the entry in a slot
* `Layout disk dir n m`: `n` entries in `m` blocks
* `putEntry`, `growDir`, `dropEntry`: the states after an insertion, after a new block, after a
  removal

## Main results

* `findSlot_some`, `findSlot_none`: the scan finds the first entry of the name
* `pafsFindEntry_eq`: lookup
* `pafsAddEntry_cases`: insertion fails without a change or fills slot `n`
* `pafsRemoveEntry_eq`: removal of a found name
* `Layout.put`, `Layout.grow`, `Layout.drop`: the layout afterwards
-/

namespace PekerOS.Pafs

/-! ## Slots and layout -/

/-- The block that slot `s` of a directory lies in. -/
def slotBlock (disk : ℕ → Sector) (dir : Inode) (s : ℕ) : Sector :=
  disk (dir.blocks.get (s / 16)).toNat

/-- The inode number in slot `s`. -/
def slotInode (disk : ℕ → Sector) (dir : Inode) (s : ℕ) : Word :=
  entryInode (slotBlock disk dir s) (s % 16)

/-- The name in slot `s`. -/
def slotName (disk : ℕ → Sector) (dir : Inode) (s : ℕ) : List Byte :=
  entryName (slotBlock disk dir s) (s % 16)

/-- A directory with `n` entries in its first `m` blocks. -/
structure Layout (disk : ℕ → Sector) (dir : Inode) (n m : ℕ) : Prop where
  size : dir.size.toNat = 32 * n
  le : n ≤ 16 * m
  cap : m ≤ 14
  alloc : ∀ i < 14, dir.blocks.get i ≠ 0#32 ↔ i < m
  occupied : ∀ s < 16 * m, slotInode disk dir s ≠ 0#32 ↔ s < n
  range : ∀ s < n, (slotInode disk dir s).toNat < 128
  name : ∀ s < n, (slotName disk dir s).length ≤ 27

namespace Layout

variable {disk disk' : ℕ → Sector} {dir : Inode} {n m n' m' : ℕ}

theorem block_ne_zero (h : Layout disk dir n m) {i : ℕ} (hi : i < m) :
    dir.blocks.get i ≠ 0#32 :=
  (h.alloc i (by have := h.cap; omega)).mpr hi

theorem block_eq_zero (h : Layout disk dir n m) {i : ℕ} (hi : m ≤ i) :
    dir.blocks.get i = 0#32 := by
  by_cases hi14 : i < 14
  · by_contra hne
    have := (h.alloc i hi14).mp hne
    omega
  · exact Table.get_of_le _ (by omega)

theorem size_eq_zero (h : Layout disk dir n m) : dir.size = 0#32 ↔ n = 0 := by
  have := h.size
  rw [BitVec.toNat_eq]
  simp only [BitVec.toNat_ofNat, Nat.zero_mod]
  omega

theorem entries_lt (h : Layout disk dir n m) : n ≤ 224 := by
  have := h.le
  have := h.cap
  omega

/-- The number of entries and of blocks are determined by the directory. -/
theorem unique (h : Layout disk dir n m) (h' : Layout disk' dir n' m') : n = n' ∧ m = m' := by
  have hn : n = n' := by
    have := h.size
    have := h'.size
    omega
  refine ⟨hn, ?_⟩
  have hle : ∀ {d₁ d₂ n₁ n₂ m₁ m₂}, Layout d₁ dir n₁ m₁ → Layout d₂ dir n₂ m₂ → m₁ ≤ m₂ := by
    intro d₁ d₂ n₁ n₂ m₁ m₂ h₁ h₂
    by_contra hlt
    exact h₁.block_ne_zero (i := m₂) (by omega) (h₂.block_eq_zero le_rfl)
  exact le_antisymm (hle h h') (hle h' h)

/-- The layout depends on the directory's own blocks only. -/
theorem congr (h : Layout disk dir n m)
    (hd : ∀ i < 14, dir.blocks.get i ≠ 0#32 →
      disk' (dir.blocks.get i).toNat = disk (dir.blocks.get i).toNat) :
    Layout disk' dir n m := by
  have hslot : ∀ s < 16 * m, slotBlock disk' dir s = slotBlock disk dir s := fun s hs =>
    hd _ (by have := h.cap; omega) (h.block_ne_zero (by omega))
  refine ⟨h.size, h.le, h.cap, h.alloc, fun s hs => ?_, fun s hs => ?_, fun s hs => ?_⟩
  · rw [slotInode, hslot s hs]
    exact h.occupied s hs
  · rw [slotInode, hslot s (by have := h.le; omega)]
    exact h.range s hs
  · rw [slotName, hslot s (by have := h.le; omega)]
    exact h.name s hs

/-- A directory without blocks. -/
theorem empty (hsize : dir.size = 0#32) (hblocks : ∀ i < 14, dir.blocks.get i = 0#32) :
    Layout disk dir 0 0 where
  size := by rw [hsize]; rfl
  le := le_rfl
  cap := by omega
  alloc i hi := by simp [hblocks i hi]
  occupied s hs := absurd hs (by omega)
  range s hs := absurd hs (by omega)
  name s hs := absurd hs (by omega)

end Layout

/-! ## Lookup -/

section Lookup

variable {fs : State} {dir : Inode} {name : CString} {n m i j : ℕ}

theorem entryMatches_iff {block : Sector} :
    entryMatches block name j = true ↔
      entryInode block j ≠ 0#32 ∧ entryName block j = name.chars := by
  have hnul : ∀ c ∈ entryName block j, c ≠ 0#8 := cstrAt_noNul _ _
  rw [entryMatches, Bool.and_eq_true, decide_eq_true_eq, decide_eq_true_eq,
    strcmp_eq_zero_iff hnul name.noNul]

theorem takeWhile_range {p : ℕ → Bool} {m r : ℕ} (hlt : ∀ i < m, p i = true)
    (hend : r = 0 ∨ p m = false) : (List.range (m + r)).takeWhile p = List.range m := by
  rw [List.range_add, List.takeWhile_append_of_pos fun i hi => hlt i (List.mem_range.mp hi)]
  cases r with
  | zero => simp
  | succ r => simp [List.range_succ_eq_map, hend.resolve_left (by omega)]

/-- The blocks scanned are the allocated ones. -/
theorem Layout.takeWhile_blocks {disk : ℕ → Sector} (h : Layout disk dir n m) :
    ((List.range 14).takeWhile fun i => dir.blocks.get i ≠ 0#32) = List.range m := by
  have hcap : m + (14 - m) = 14 := Nat.add_sub_of_le h.cap
  have := takeWhile_range (p := fun i => decide (dir.blocks.get i ≠ 0#32)) (r := 14 - m)
    (fun i hi => decide_eq_true (h.block_ne_zero hi))
    (Or.inr (by simp [h.block_eq_zero le_rfl]))
  rwa [hcap] at this

theorem slot_div_mod {i j : ℕ} (hj : j < 16) : (16 * i + j) / 16 = i ∧ (16 * i + j) % 16 = j := by
  omega

theorem slotInode_mul_add {disk : ℕ → Sector} (hj : j < 16) :
    slotInode disk dir (16 * i + j) = entryInode (disk (dir.blocks.get i).toNat) j := by
  rw [slotInode, slotBlock, (slot_div_mod hj).1, (slot_div_mod hj).2]

theorem slotName_mul_add {disk : ℕ → Sector} (hj : j < 16) :
    slotName disk dir (16 * i + j) = entryName (disk (dir.blocks.get i).toNat) j := by
  rw [slotName, slotBlock, (slot_div_mod hj).1, (slot_div_mod hj).2]

/-- The scan finds the first entry with the name. -/
theorem findSlot_some (hl : Layout fs.disk dir n m) (h : findSlot fs dir name = some (i, j)) :
    j < 16 ∧ 16 * i + j < n ∧ slotName fs.disk dir (16 * i + j) = name.chars ∧
      ∀ s < 16 * i + j, slotName fs.disk dir s ≠ name.chars := by
  rw [findSlot, hl.takeWhile_blocks, List.findSome?_eq_some_iff] at h
  obtain ⟨l₁, a, l₂, hsplit, hfound, hnone⟩ := h
  obtain ⟨j', hj', hij⟩ := Option.map_eq_some_iff.mp hfound
  obtain ⟨rfl, rfl⟩ := Prod.mk.inj hij
  -- the blocks before the hit are exactly the smaller numbers
  have hl₁ : l₁ = List.range l₁.length := by
    have := congrArg (List.take l₁.length) hsplit
    rw [List.take_range, List.take_left] at this
    rw [← this]
    simp
  have ha : a = l₁.length ∧ a < m := by
    have hlen := congrArg List.length hsplit
    simp only [List.length_range, List.length_append, List.length_cons] at hlen
    have hget : (List.range m)[l₁.length]? = some a := by rw [hsplit]; simp
    rw [List.getElem?_range (by omega)] at hget
    have := Option.some.inj hget
    omega
  rw [List.find?_range_eq_some] at hj'
  obtain ⟨hmatch, hmem, hbefore⟩ := hj'
  have hj16 : j' < 16 := List.mem_range.mp hmem
  obtain ⟨hne, hname⟩ := entryMatches_iff.mp hmatch
  have hslot : 16 * a + j' < 16 * m := by omega
  refine ⟨hj16, (hl.occupied _ hslot).mp (by rwa [slotInode_mul_add hj16]),
    by rwa [slotName_mul_add hj16], fun s hs hsname => ?_⟩
  have hs16 : s % 16 < 16 := Nat.mod_lt _ (by decide)
  have hsn : s < n := by
    have := (hl.occupied _ hslot).mp (by rwa [slotInode_mul_add hj16])
    omega
  have hsmatch : entryMatches (pafsDiskRead fs (dir.blocks.get (s / 16)).toNat) name (s % 16) =
      true := by
    rw [entryMatches_iff]
    exact ⟨(hl.occupied s (by omega)).mpr hsn, hsname⟩
  by_cases hblock : s / 16 = a
  · have := hbefore (s % 16) (by omega)
    rw [hblock] at hsmatch
    simp [hsmatch] at this
  · have hmem₁ : s / 16 ∈ l₁ := by
      rw [hl₁, List.mem_range, ← ha.1]
      omega
    have := hnone _ hmem₁
    rw [Option.map_eq_none_iff, List.find?_range_eq_none] at this
    have := this (s % 16) hs16
    simp [hsmatch] at this

/-- The scan fails only when no entry has the name. -/
theorem findSlot_none (hl : Layout fs.disk dir n m) (h : findSlot fs dir name = none) :
    ∀ s < n, slotName fs.disk dir s ≠ name.chars := by
  intro s hs hsname
  rw [findSlot, hl.takeWhile_blocks, List.findSome?_eq_none_iff] at h
  have hsm : s < 16 * m := lt_of_lt_of_le hs hl.le
  have := h (s / 16) (List.mem_range.mpr (by omega))
  rw [Option.map_eq_none_iff, List.find?_range_eq_none] at this
  have := this (s % 16) (Nat.mod_lt _ (by decide))
  have hmatch : entryMatches (pafsDiskRead fs (dir.blocks.get (s / 16)).toNat) name (s % 16) =
      true := by
    rw [entryMatches_iff]
    exact ⟨(hl.occupied s hsm).mpr hs, hsname⟩
  simp [hmatch] at this

/-- An inode number below 128 is the same as an `int`. -/
theorem toInt_of_lt {w : Word} (h : w.toNat < 128) : w.toInt = w.toNat :=
  BitVec.toInt_eq_toNat_of_lt (by omega)

/-- **Lookup**: the inode of the first entry with the name, `-1` if there is none. -/
theorem pafsFindEntry_cases {dirIno : ℕ} (ht : (fs.inode dirIno).type = pafsTypeDir)
    (hl : Layout fs.disk (fs.inode dirIno) n m) :
    (pafsFindEntry fs dirIno name = -1 ∧
      (∀ s < n, slotName fs.disk (fs.inode dirIno) s ≠ name.chars)) ∨
    (∃ t < n, findSlot fs (fs.inode dirIno) name = some (t / 16, t % 16) ∧
      pafsFindEntry fs dirIno name = (slotInode fs.disk (fs.inode dirIno) t).toNat ∧
      slotName fs.disk (fs.inode dirIno) t = name.chars ∧
      ∀ s < t, slotName fs.disk (fs.inode dirIno) s ≠ name.chars) := by
  by_cases hn : n = 0
  · left
    refine ⟨?_, fun s hs => by omega⟩
    simp [pafsFindEntry, hl.size_eq_zero.mpr hn]
  -- with entries the size is not 0, and the blocks are searched
  have hsize : (fs.inode dirIno).size ≠ 0#32 := fun h => hn (hl.size_eq_zero.mp h)
  have hguard : ¬((fs.inode dirIno).type ≠ pafsTypeDir ∨ (fs.inode dirIno).size = 0#32) := by
    simp [ht, hsize]
  cases hf : findSlot fs (fs.inode dirIno) name with
  | none =>
    left
    refine ⟨?_, findSlot_none hl hf⟩
    simp only [pafsFindEntry, if_neg hguard, hf]
  | some p =>
    right
    obtain ⟨i, j⟩ := p
    obtain ⟨hj, hlt, hname, hfirst⟩ := findSlot_some hl hf
    refine ⟨16 * i + j, hlt, ?_, ?_, hname, hfirst⟩
    · rw [(slot_div_mod hj).1, (slot_div_mod hj).2]
    · have hrange := hl.range _ hlt
      rw [slotInode_mul_add hj] at hrange ⊢
      simp only [pafsFindEntry, if_neg hguard, hf, pafsDiskRead]
      exact toInt_of_lt hrange

/-- Only a directory has entries. -/
theorem pafsFindEntry_of_not_dir {dirIno : ℕ} (ht : (fs.inode dirIno).type ≠ pafsTypeDir) :
    pafsFindEntry fs dirIno name = -1 := by
  simp [pafsFindEntry, ht]

end Lookup

/-! ## Insertion -/

/-- Slot `n` of directory `d` filled, the entry counted in the size, the inode saved. -/
def putEntry (fs : State) (d n : ℕ) (name : CString) (ino : ℕ) : State :=
  let lba := (fs.block d (n / 16)).toNat
  let fs := pafsDiskWrite fs lba
    (writeEntry (pafsDiskRead fs lba) (n % 16) (BitVec.ofNat 32 ino) name)
  pafsSaveInode (fs.setSize d ((fs.inode d).size + 32#32)) d

/-- Block `b` taken and zeroed as block `m` of directory `d`. -/
def growDir (fs : State) (d m b : ℕ) : State :=
  pafsDiskWrite ((takeBlock fs b).setBlock d m (BitVec.ofNat 32 b)) b default

section Insertion

variable {fs : State} {d n m i j : ℕ} {name : CString} {ino : ℕ}

theorem toNat_ofNat_of_lt {b : ℕ} (h : b < 4096) : (BitVec.ofNat 32 b).toNat = b := by
  rw [BitVec.toNat_ofNat]
  omega

theorem findEmpty_some {block : Sector} (hj : j < 16) (hempty : entryInode block j = 0#32)
    (hbefore : ∀ l < j, entryInode block l ≠ 0#32) :
    (List.range 16).find? (fun j => entryInode block j = 0#32) = some j := by
  rw [List.find?_range_eq_some]
  refine ⟨by simpa using hempty, List.mem_range.mpr hj, fun l hl => ?_⟩
  simpa using hbefore l hl

theorem findEmpty_none {block : Sector} (h : ∀ l < 16, entryInode block l ≠ 0#32) :
    (List.range 16).find? (fun j => entryInode block j = 0#32) = none := by
  rw [List.find?_range_eq_none]
  intro l hl
  simpa using h l hl

theorem mem_clearBits_of_findFreeBlock {b : ℕ} (h : findFreeBlock fs = some b) :
    (18 ≤ b ∧ b < 4096) ∧ Bitmap.test fs.blockBitmap b = false :=
  Bitmap.mem_clearBits.mp (findFreeBlock_some.mp h).1

theorem growDir_block_self (fs : State) (hd : d < 128) (hm : m < 14) (b : ℕ) :
    (growDir fs d m b).block d m = BitVec.ofNat 32 b := by
  rw [growDir, block_pafsDiskWrite, State.block_setBlock_self _ hd hm]

/-- The loop at a full block. -/
theorem addEntryLoop_full {r : ℕ} (hblock : fs.block d i ≠ 0#32)
    (hfull : ∀ l < 16, entryInode (fs.disk (fs.block d i).toNat) l ≠ 0#32) :
    addEntryLoop d name ino (r + 1) fs i = addEntryLoop d name ino r fs (i + 1) := by
  have hnone : (List.range 16).find? (fun j =>
      entryInode (pafsDiskRead fs (fs.block d i).toNat) j = 0#32) = none := findEmpty_none hfull
  rw [addEntryLoop, if_neg hblock]
  dsimp only
  rw [hnone]

/-- The loop at a block with an empty entry. -/
theorem addEntryLoop_slot {r : ℕ} (hblock : fs.block d i ≠ 0#32) (hj : j < 16)
    (hempty : entryInode (fs.disk (fs.block d i).toNat) j = 0#32)
    (hbefore : ∀ l < j, entryInode (fs.disk (fs.block d i).toNat) l ≠ 0#32) :
    addEntryLoop d name ino (r + 1) fs i = (putEntry fs d (16 * i + j) name ino, 0) := by
  have hsome : (List.range 16).find? (fun j =>
      entryInode (pafsDiskRead fs (fs.block d i).toNat) j = 0#32) = some j :=
    findEmpty_some hj hempty hbefore
  rw [addEntryLoop, if_neg hblock]
  dsimp only
  rw [hsome, putEntry, (slot_div_mod hj).1, (slot_div_mod hj).2]

/-- The loop at a missing block, with no block to take. -/
theorem addEntryLoop_alloc_none {r : ℕ} (hzero : fs.block d i = 0#32)
    (hf : findFreeBlock fs = none) : addEntryLoop d name ino (r + 1) fs i = (fs, -1) := by
  rw [addEntryLoop, if_pos hzero, allocBlock, hf]
  rfl

/-- The loop at a missing block: a new one is taken, and its first entry filled. -/
theorem addEntryLoop_alloc {r b : ℕ} (hd : d < 128) (hi : i < 14) (hzero : fs.block d i = 0#32)
    (hf : findFreeBlock fs = some b) :
    addEntryLoop d name ino (r + 1) fs i = (putEntry (growDir fs d i b) d (16 * i) name ino, 0) := by
  have hb := (mem_clearBits_of_findFreeBlock hf).1
  have hlba : ((growDir fs d i b).block d i).toNat = b := by
    rw [growDir_block_self fs hd hi b, toNat_ofNat_of_lt hb.2]
  have hread : pafsDiskRead (growDir fs d i b) b = default := disk_pafsDiskWrite_self _ _ _
  have hgrow : pafsDiskWrite ((takeBlock fs b).setBlock d i (BitVec.ofNat 32 b)) b default =
      growDir fs d i b := rfl
  rw [addEntryLoop, if_pos hzero, allocBlock, hf]
  simp only [Option.map_some, hgrow, hlba, hread]
  rw [findEmpty_some (j := 0) (by decide) (entryInode_default 0)
    fun l hl0 => absurd hl0 (by omega), putEntry, show 16 * i / 16 = i by omega,
    show 16 * i % 16 = 0 by omega, hlba, hread]

/-- What `pafs_add_entry` does to a directory: slot `n` is filled, in a new block when the others
are full; without a slot or a block nothing changes. -/
def addEntryResult (fs : State) (d n m : ℕ) (name : CString) (ino : ℕ) : State × ℤ :=
  if n < 16 * m then (putEntry fs d n name ino, 0)
  else if m < 14 then
    match findFreeBlock fs with
    | none => (fs, -1)
    | some b => (putEntry (growDir fs d m b) d n name ino, 0)
  else (fs, -1)

/-- The loop from block `i` on, the blocks before it being full. -/
theorem addEntryLoop_eq (hd : d < 128) (hl : Layout fs.disk (fs.inode d) n m) (r : ℕ) (hr : i + r = 14)
    (hi : 16 * i ≤ n) : addEntryLoop d name ino r fs i = addEntryResult fs d n m name ino := by
  have hle := hl.le
  have hcap := hl.cap
  have hslot : ∀ l < 16, 16 * i + l < 16 * m →
      (entryInode (fs.disk (fs.block d i).toNat) l ≠ 0#32 ↔ 16 * i + l < n) := by
    intro l hl16 hlm
    have := hl.occupied (16 * i + l) hlm
    rwa [slotInode_mul_add hl16] at this
  induction r generalizing i with
  | zero =>
    rw [addEntryLoop, addEntryResult, if_neg (by omega), if_neg (by omega)]
  | succ r ih =>
    by_cases him : i < m
    · have hblock : fs.block d i ≠ 0#32 := hl.block_ne_zero him
      -- the block is full, and the search goes on with the next
      by_cases hfull : 16 * i + 16 ≤ n
      · rw [addEntryLoop_full hblock fun l hl16 => (hslot l hl16 (by omega)).mpr (by omega)]
        refine ih (by omega) (by omega) fun l hl16 hlm => ?_
        have := hl.occupied (16 * (i + 1) + l) hlm
        rwa [slotInode_mul_add hl16] at this
      · -- the first free slot is the one behind the last entry
        have hempty := not_not.mp ((hslot (n - 16 * i) (by omega) (by omega)).not.mpr (by omega))
        rw [addEntryLoop_slot hblock (by omega) hempty fun l hlt =>
          (hslot l (by omega) (by omega)).mpr (by omega), addEntryResult, if_pos (by omega),
          show 16 * i + (n - 16 * i) = n by omega]
    · -- the blocks are full: a new one, if there is one
      obtain rfl : i = m := by omega
      have hzero : fs.block d i = 0#32 := hl.block_eq_zero le_rfl
      rw [addEntryResult, if_neg (by omega), if_pos (by omega)]
      cases hf : findFreeBlock fs with
      | none => exact addEntryLoop_alloc_none hzero hf
      | some b =>
        rw [addEntryLoop_alloc hd (by omega) hzero hf, show 16 * i = n by omega]

/-- **Insertion** into a directory. -/
theorem pafsAddEntry_eq (hd : d < 128) (ht : (fs.inode d).type = pafsTypeDir)
    (hl : Layout fs.disk (fs.inode d) n m) :
    pafsAddEntry fs d name ino = addEntryResult fs d n m name ino := by
  rw [pafsAddEntry, if_neg (by simp [ht]), addEntryLoop_eq hd hl 14 rfl (Nat.zero_le n)]

theorem pafsAddEntry_of_not_dir (ht : (fs.inode d).type ≠ pafsTypeDir) :
    pafsAddEntry fs d name ino = (fs, -1) := by
  rw [pafsAddEntry, if_pos ht]

end Insertion

/-! ## The layout after a change -/

/-- The block numbers of an inode are data blocks, each named once. -/
structure Inode.Separate (dir : Inode) : Prop where
  data : ∀ {i}, dir.blocks.get i ≠ 0#32 → 18 ≤ (dir.blocks.get i).toNat
  inj : ∀ {i j}, dir.blocks.get i ≠ 0#32 →
    (dir.blocks.get i).toNat = (dir.blocks.get j).toNat → i = j

/-- Slot `s'` of the second directory holds the bytes of slot `s` of the first. -/
def SlotFrom (disk : ℕ → Sector) (dir : Inode) (s : ℕ) (disk' : ℕ → Sector) (dir' : Inode)
    (s' : ℕ) : Prop :=
  EntryFrom (slotBlock disk dir s) (s % 16) (slotBlock disk' dir' s') (s' % 16)

namespace SlotFrom

variable {disk disk' : ℕ → Sector} {dir dir' : Inode} {s s' : ℕ}

theorem inode (h : SlotFrom disk dir s disk' dir' s') :
    slotInode disk' dir' s' = slotInode disk dir s :=
  EntryFrom.inode h

theorem name (h : SlotFrom disk dir s disk' dir' s')
    (hlen : (slotName disk dir s).length ≤ 27) : slotName disk' dir' s' = slotName disk dir s :=
  EntryFrom.name (Nat.mod_lt _ (by decide)) (Nat.mod_lt _ (by decide)) h hlen

theorem of_block_eq (h : slotBlock disk' dir' s = slotBlock disk dir s) :
    SlotFrom disk dir s disk' dir' s := by
  rw [SlotFrom, h]
  exact EntryFrom.refl _ _

end SlotFrom

section Effects

variable {fs : State} {d n m : ℕ} (name : CString) (ino : ℕ)

theorem inode_putEntry_self (hd : d < 128) : (putEntry fs d n name ino).inode d =
    { fs.inode d with size := (fs.inode d).size + 32#32 } :=
  State.inode_setSize_self _ hd _

theorem inode_putEntry_ne {j : ℕ} (hj : j ≠ d) : (putEntry fs d n name ino).inode j = fs.inode j :=
  State.inode_setSize_ne _ hj _

theorem disk_putEntry_self (hd : d < 128) (hdata : 18 ≤ (fs.block d (n / 16)).toNat) :
    (putEntry fs d n name ino).disk (fs.block d (n / 16)).toNat =
      writeEntry (fs.disk (fs.block d (n / 16)).toNat) (n % 16) (BitVec.ofNat 32 ino) name := by
  rw [putEntry, (State.SameData.saveInode hd).data _ hdata]
  exact disk_pafsDiskWrite_self _ _ _

theorem disk_putEntry_ne (hd : d < 128) {lba : ℕ} (hdata : 18 ≤ lba)
    (hne : lba ≠ (fs.block d (n / 16)).toNat) : (putEntry fs d n name ino).disk lba = fs.disk lba := by
  rw [putEntry, (State.SameData.saveInode hd).data _ hdata]
  exact disk_pafsDiskWrite_ne _ hne _

/-- Filling slot `n` changes no other slot. -/
theorem slotFrom_putEntry (hd : d < 128) (hl : Layout fs.disk (fs.inode d) n m) (hn : n < 16 * m)
    (hsep : (fs.inode d).Separate) {s : ℕ} (hs : s < 16 * m) (hsn : s ≠ n) :
    SlotFrom fs.disk (fs.inode d) s (putEntry fs d n name ino).disk
      ((putEntry fs d n name ino).inode d) s := by
  have hne : fs.block d (n / 16) ≠ 0#32 := hl.block_ne_zero (by omega)
  have hsne : (fs.inode d).blocks.get (s / 16) ≠ 0#32 := hl.block_ne_zero (by omega)
  by_cases hblock : s / 16 = n / 16
  · rw [SlotFrom, slotBlock, slotBlock, inode_putEntry_self name ino hd, hblock]
    change EntryFrom _ _ ((putEntry fs d n name ino).disk (fs.block d (n / 16)).toNat) _
    rw [disk_putEntry_self name ino hd (hsep.data hne)]
    exact writeEntry_of_ne _ (by omega) _ _
  · apply SlotFrom.of_block_eq
    rw [slotBlock, slotBlock, inode_putEntry_self name ino hd]
    exact disk_putEntry_ne name ino hd (hsep.data hsne) fun h => hblock (hsep.inj hsne h)

theorem slotBlock_putEntry_self (hd : d < 128) (hl : Layout fs.disk (fs.inode d) n m)
    (hn : n < 16 * m) (hsep : (fs.inode d).Separate) :
    slotBlock (putEntry fs d n name ino).disk ((putEntry fs d n name ino).inode d) n =
      writeEntry (slotBlock fs.disk (fs.inode d) n) (n % 16) (BitVec.ofNat 32 ino) name := by
  have hne : fs.block d (n / 16) ≠ 0#32 := hl.block_ne_zero (by omega)
  rw [slotBlock, inode_putEntry_self name ino hd]
  exact disk_putEntry_self name ino hd (hsep.data hne)

theorem slotInode_putEntry_self (hd : d < 128) (hl : Layout fs.disk (fs.inode d) n m)
    (hn : n < 16 * m) (hsep : (fs.inode d).Separate) :
    slotInode (putEntry fs d n name ino).disk ((putEntry fs d n name ino).inode d) n =
      BitVec.ofNat 32 ino := by
  rw [slotInode, slotBlock_putEntry_self name ino hd hl hn hsep,
    entryInode_writeEntry _ (Nat.mod_lt _ (by decide))]

theorem slotName_putEntry_self (hd : d < 128) (hl : Layout fs.disk (fs.inode d) n m)
    (hn : n < 16 * m) (hsep : (fs.inode d).Separate) :
    slotName (putEntry fs d n name ino).disk ((putEntry fs d n name ino).inode d) n =
      name.chars.take 27 := by
  rw [slotName, slotBlock_putEntry_self name ino hd hl hn hsep,
    entryName_writeEntry _ (Nat.mod_lt _ (by decide))]

/-- The layout after slot `n` is filled. -/
theorem Layout.put (hd : d < 128) (hl : Layout fs.disk (fs.inode d) n m) (hn : n < 16 * m)
    (hsep : (fs.inode d).Separate) (hpos : 0 < ino) (hino : ino < 128) :
    Layout (putEntry fs d n name ino).disk ((putEntry fs d n name ino).inode d) (n + 1) m := by
  have hcap := hl.cap
  have hword : (BitVec.ofNat 32 ino).toNat = ino := toNat_ofNat_of_lt (by omega)
  have hfrom := fun s hs hsn => slotFrom_putEntry name ino hd hl hn hsep (s := s) hs hsn
  have hself := slotInode_putEntry_self name ino hd hl hn hsep
  refine ⟨?_, hn, hcap, ?_, fun s hs => ?_, fun s hs => ?_, fun s hs => ?_⟩
  · have := hl.size
    rw [inode_putEntry_self name ino hd]
    simp only [BitVec.toNat_add, BitVec.toNat_ofNat]
    omega
  · rw [inode_putEntry_self name ino hd]
    exact hl.alloc
  · by_cases hsn : s = n
    · subst hsn
      have : BitVec.ofNat 32 ino ≠ 0#32 := fun h => by simp [h] at hword; omega
      simp [hself, this]
    · rw [(hfrom s hs hsn).inode, hl.occupied s hs]
      omega
  · by_cases hsn : s = n
    · subst hsn
      rw [hself, hword]
      exact hino
    · rw [(hfrom s (by omega) hsn).inode]
      exact hl.range s (by omega)
  · by_cases hsn : s = n
    · subst hsn
      rw [slotName_putEntry_self name ino hd hl hn hsep]
      exact length_take_name_le name
    · have hlen := hl.name s (by omega)
      rw [(hfrom s (by omega) hsn).name hlen]
      exact hlen

end Effects

section Grow

variable {fs : State} {d n m b : ℕ}

theorem inode_growDir_self (hd : d < 128) : (growDir fs d m b).inode d =
    { fs.inode d with blocks := (fs.inode d).blocks.set m (BitVec.ofNat 32 b) } :=
  State.inode_setBlock_self _ hd _

theorem inode_growDir_ne {j : ℕ} (hj : j ≠ d) : (growDir fs d m b).inode j = fs.inode j :=
  State.inode_setBlock_ne _ hj _

theorem disk_growDir_self : (growDir fs d m b).disk b = default := disk_pafsDiskWrite_self _ _ _

theorem disk_growDir_ne {lba : ℕ} (hdata : 18 ≤ lba) (hne : lba ≠ b) :
    (growDir fs d m b).disk lba = fs.disk lba := by
  rw [growDir, disk_pafsDiskWrite_ne _ hne]
  exact disk_takeBlock fs b hdata

/-- A new block changes no slot of the old ones. -/
theorem slotFrom_growDir (hd : d < 128) (hl : Layout fs.disk (fs.inode d) n m)
    (hsep : (fs.inode d).Separate) (hfresh : ∀ i, (fs.inode d).blocks.get i ≠ 0#32 →
      ((fs.inode d).blocks.get i).toNat ≠ b) {s : ℕ} (hs : s < 16 * m) :
    SlotFrom fs.disk (fs.inode d) s (growDir fs d m b).disk ((growDir fs d m b).inode d) s := by
  have hne : (fs.inode d).blocks.get (s / 16) ≠ 0#32 := hl.block_ne_zero (by omega)
  apply SlotFrom.of_block_eq
  rw [slotBlock, slotBlock, inode_growDir_self hd, Table.get_set_ne _ (by omega)]
  exact disk_growDir_ne (hsep.data hne) (hfresh _ hne)

/-- The layout after a block is added. -/
theorem Layout.grow (hd : d < 128) (hl : Layout fs.disk (fs.inode d) n m) (hm : m < 14)
    (hsep : (fs.inode d).Separate) (hb : 18 ≤ b ∧ b < 4096)
    (hfresh : ∀ i, (fs.inode d).blocks.get i ≠ 0#32 → ((fs.inode d).blocks.get i).toNat ≠ b) :
    Layout (growDir fs d m b).disk ((growDir fs d m b).inode d) n (m + 1) := by
  have hle := hl.le
  have hword := toNat_ofNat_of_lt hb.2
  have hfrom := fun s hs => slotFrom_growDir hd hl hsep hfresh (s := s) hs
  refine ⟨?_, by omega, by omega, fun i hi => ?_, fun s hs => ?_, fun s hs => ?_, fun s hs => ?_⟩
  · rw [inode_growDir_self hd]
    exact hl.size
  · rw [inode_growDir_self hd, Table.get_set _ hm]
    split
    · next him =>
      have : BitVec.ofNat 32 b ≠ 0#32 := fun h => by simp [h] at hword; omega
      simp [this, him]
    · rw [hl.alloc i hi]
      omega
  · by_cases hsm : s < 16 * m
    · rw [(hfrom s hsm).inode]
      exact hl.occupied s hsm
    · -- the slots of the new block are empty
      have hdiv : s / 16 = m := by omega
      rw [slotInode, slotBlock, inode_growDir_self hd, hdiv, Table.get_set_self _ hm, hword,
        disk_growDir_self, entryInode_default]
      simp
      omega
  · rw [(hfrom s (by omega)).inode]
    exact hl.range s hs
  · rw [(hfrom s (by omega)).name (hl.name s hs)]
    exact hl.name s hs

end Grow

/-! ## Removal -/

/-- Slot `t` of the `n` entries of directory `d` removed: the last entry is copied over it, then the
block of the last entry is written back as it was read, with the last entry cleared. -/
def dropEntry (fs : State) (d t n : ℕ) : State :=
  let targetLba := (fs.block d (t / 16)).toNat
  let lastLba := (fs.block d ((n - 1) / 16)).toNat
  let targetData := pafsDiskRead fs targetLba
  let lastBlockData := pafsDiskRead fs lastLba
  let fs :=
    if t ≠ n - 1 then
      pafsDiskWrite fs targetLba (copyEntry targetData (t % 16) lastBlockData ((n - 1) % 16))
    else fs
  let fs := pafsDiskWrite fs lastLba (clearEntry lastBlockData ((n - 1) % 16))
  pafsSaveInode (fs.setSize d ((fs.inode d).size - 32#32)) d

/-- Where the entry of slot `s` comes from when slot `t` of `n` is removed. Within the block of the
last entry the copy over the target is overwritten, so the target keeps its old entry there. -/
def dropSource (t n s : ℕ) : ℕ := if s = t ∧ t / 16 ≠ (n - 1) / 16 then n - 1 else s

section Removal

variable {fs : State} {d n m t : ℕ} {name : CString}

/-- The last slot, as removal computes it. -/
theorem Layout.lastEntryTotalIdx_eq {disk : ℕ → Sector} {dir : Inode} (hl : Layout disk dir n m)
    (hn : 0 < n) : lastEntryTotalIdx dir = ((n - 1 : ℕ) : ℤ) := by
  have hle := hl.entries_lt
  have hquot : (dir.size / 32#32 - 1#32).toNat = n - 1 := by
    have hdiv : dir.size.toNat / 32 = n := by
      rw [hl.size]
      omega
    simp only [BitVec.toNat_sub, BitVec.toNat_udiv, BitVec.toNat_ofNat, Nat.reducePow, Nat.reduceMod,
      hdiv]
    omega
  rw [lastEntryTotalIdx, BitVec.toInt_eq_toNat_of_lt (by omega), hquot]

/-- **Removal** of the first entry with the name. -/
theorem pafsRemoveEntry_eq (hl : Layout fs.disk (fs.inode d) n m) (ht : t < n)
    (hf : findSlot fs (fs.inode d) name = some (t / 16, t % 16)) :
    pafsRemoveEntry fs d name = (dropEntry fs d t n, 0) := by
  have hlast := hl.lastEntryTotalIdx_eq (by omega)
  have hdiv : ((n - 1 : ℕ) : ℤ).tdiv 16 = (((n - 1) / 16 : ℕ) : ℤ) := rfl
  have hmod : ((n - 1 : ℕ) : ℤ).tmod 16 = (((n - 1) % 16 : ℕ) : ℤ) := rfl
  have hguard : (((t / 16 : ℕ) : ℤ) ≠ (((n - 1) / 16 : ℕ) : ℤ) ∨
      ((t % 16 : ℕ) : ℤ) ≠ (((n - 1) % 16 : ℕ) : ℤ)) ↔ t ≠ n - 1 := by
    omega
  simp only [pafsRemoveEntry, hf, hlast, hdiv, hmod, hguard, Int.toNat_natCast]
  rfl

theorem inode_dropEntry_self (hd : d < 128) : (dropEntry fs d t n).inode d =
    { fs.inode d with size := (fs.inode d).size - 32#32 } := by
  unfold dropEntry
  dsimp only
  split <;> exact State.inode_setSize_self _ hd _

theorem inode_dropEntry_ne {j : ℕ} (hj : j ≠ d) : (dropEntry fs d t n).inode j = fs.inode j := by
  unfold dropEntry
  dsimp only
  split <;> exact State.inode_setSize_ne _ hj _

/-- The disk after a removal: the block of the last entry as it was read, less that entry. -/
theorem disk_dropEntry_last (hd : d < 128) (hdata : 18 ≤ (fs.block d ((n - 1) / 16)).toNat) :
    (dropEntry fs d t n).disk (fs.block d ((n - 1) / 16)).toNat =
      clearEntry (fs.disk (fs.block d ((n - 1) / 16)).toNat) ((n - 1) % 16) := by
  rw [dropEntry, (State.SameData.saveInode hd).data _ hdata]
  exact disk_pafsDiskWrite_self _ _ _

theorem disk_dropEntry_target (hd : d < 128) (hdata : 18 ≤ (fs.block d (t / 16)).toNat)
    (ht : t ≠ n - 1) (hne : (fs.block d (t / 16)).toNat ≠ (fs.block d ((n - 1) / 16)).toNat) :
    (dropEntry fs d t n).disk (fs.block d (t / 16)).toNat =
      copyEntry (fs.disk (fs.block d (t / 16)).toNat) (t % 16)
        (fs.disk (fs.block d ((n - 1) / 16)).toNat) ((n - 1) % 16) := by
  rw [dropEntry, (State.SameData.saveInode hd).data _ hdata, if_pos ht]
  exact (disk_pafsDiskWrite_ne _ hne _).trans (disk_pafsDiskWrite_self _ _ _)

theorem disk_dropEntry_ne (hd : d < 128) {lba : ℕ} (hdata : 18 ≤ lba)
    (hne : lba ≠ (fs.block d (t / 16)).toNat) (hne' : lba ≠ (fs.block d ((n - 1) / 16)).toNat) :
    (dropEntry fs d t n).disk lba = fs.disk lba := by
  rw [dropEntry, (State.SameData.saveInode hd).data _ hdata]
  refine (disk_pafsDiskWrite_ne _ hne' _).trans ?_
  split
  · exact disk_pafsDiskWrite_ne _ hne _
  · rfl

/-- The slots after a removal. -/
theorem slotFrom_dropEntry (hd : d < 128) (hl : Layout fs.disk (fs.inode d) n m)
    (hsep : (fs.inode d).Separate) (ht : t < n) {s : ℕ} (hs : s < 16 * m) (hlast : s ≠ n - 1) :
    SlotFrom fs.disk (fs.inode d) (dropSource t n s) (dropEntry fs d t n).disk
      ((dropEntry fs d t n).inode d) s := by
  have hle := hl.le
  have hne : ∀ u < 16 * m, fs.block d (u / 16) ≠ 0#32 := fun u hu => hl.block_ne_zero (by omega)
  have hblock : slotBlock (dropEntry fs d t n).disk ((dropEntry fs d t n).inode d) s =
      (dropEntry fs d t n).disk (fs.block d (s / 16)).toNat := by
    rw [slotBlock, inode_dropEntry_self hd]
    rfl
  rw [SlotFrom, hblock]
  by_cases hsl : s / 16 = (n - 1) / 16
  · -- the block of the last entry: the write-back of the first read wins
    have hsrc : dropSource t n s = s := by
      rw [dropSource, if_neg]
      rintro ⟨rfl, h⟩
      exact h hsl
    rw [hsrc, hsl, disk_dropEntry_last hd (hsep.data (hne (n - 1) (by omega))), slotBlock, hsl]
    exact clearEntry_of_ne _ (by omega)
  · have hlba : (fs.block d (s / 16)).toNat ≠ (fs.block d ((n - 1) / 16)).toNat := fun h =>
      hsl (hsep.inj (hne s hs) h)
    -- the block of the entry removed, which the last entry is copied to
    by_cases hst : s / 16 = t / 16
    · rw [hst] at hlba ⊢
      rw [disk_dropEntry_target hd (hsep.data (hne t (by omega))) (fun h => hsl (by rw [hst, h]))
        hlba]
      by_cases hsteq : s = t
      · rw [dropSource, if_pos ⟨hsteq, hst ▸ hsl⟩, hsteq]
        exact copyEntry_self _ _ (Nat.mod_lt _ (by decide))
      · rw [dropSource, if_neg (fun h => hsteq h.1), slotBlock, hst]
        exact copyEntry_of_ne _ _ (by omega)
    · -- any other block is not written
      have hlbat : (fs.block d (s / 16)).toNat ≠ (fs.block d (t / 16)).toNat := fun h =>
        hst (hsep.inj (hne s hs) h)
      have hdata : 18 ≤ (fs.block d (s / 16)).toNat := hsep.data (hne s hs)
      rw [dropSource, if_neg (fun h => hst (by rw [h.1])), disk_dropEntry_ne hd hdata hlbat hlba]
      exact EntryFrom.refl _ _

theorem slotInode_dropEntry_last (hd : d < 128) (hl : Layout fs.disk (fs.inode d) n m)
    (hsep : (fs.inode d).Separate) (hn : 0 < n) :
    slotInode (dropEntry fs d t n).disk ((dropEntry fs d t n).inode d) (n - 1) = 0#32 := by
  have hle := hl.le
  have hne : fs.block d ((n - 1) / 16) ≠ 0#32 := hl.block_ne_zero (by omega)
  rw [slotInode, slotBlock, inode_dropEntry_self hd]
  change entryInode ((dropEntry fs d t n).disk (fs.block d ((n - 1) / 16)).toNat) _ = _
  rw [disk_dropEntry_last hd (hsep.data hne)]
  exact entryInode_clearEntry _ (Nat.mod_lt _ (by decide))

theorem dropSource_lt {s : ℕ} (hs : s < n - 1) : dropSource t n s < n := by
  unfold dropSource
  split <;> omega

/-- The layout after a removal. -/
theorem Layout.drop (hd : d < 128) (hl : Layout fs.disk (fs.inode d) n m)
    (hsep : (fs.inode d).Separate) (ht : t < n) :
    Layout (dropEntry fs d t n).disk ((dropEntry fs d t n).inode d) (n - 1) m := by
  have hle := hl.le
  have hfrom := fun s hs hlast => slotFrom_dropEntry hd hl hsep ht (s := s) hs hlast
  refine ⟨?_, by omega, hl.cap, ?_, fun s hs => ?_, fun s hs => ?_, fun s hs => ?_⟩
  · have hsize := hl.size
    rw [inode_dropEntry_self hd]
    simp only [BitVec.toNat_sub, BitVec.toNat_ofNat]
    omega
  · rw [inode_dropEntry_self hd]
    exact hl.alloc
  · by_cases hlast : s = n - 1
    · subst hlast
      simp [slotInode_dropEntry_last hd hl hsep (by omega)]
    · rw [(hfrom s hs hlast).inode]
      have hsrc : dropSource t n s < 16 * m ∧ (dropSource t n s < n ↔ s < n - 1) := by
        unfold dropSource
        split <;> omega
      rw [hl.occupied _ hsrc.1, hsrc.2]
  · rw [(hfrom s (by omega) (by omega)).inode]
    exact hl.range _ (dropSource_lt hs)
  · have hlen := hl.name _ (dropSource_lt hs (t := t))
    rw [(hfrom s (by omega) (by omega)).name hlen]
    exact hlen

end Removal

end PekerOS.Pafs
