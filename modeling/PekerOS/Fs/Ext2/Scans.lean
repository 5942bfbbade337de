import PekerOS.Fs.Ext2.Listing

/-!
# ext2: scans of directory blocks

Both scans go from record to record by lengths that they find in the block. `ext2_readdir` ends a scan at
a length of 0, where `ext2_finddir` stays at the same record, and neither compares the end of a record
with that of its block.

## Main definitions

* `chain`: the records of a block, whatever is in it
* `findReads`, `readReads`: the bytes that the scans read
* `Scans`: a call returns and reads inside the block
* `FindFits`, `ReadFits`: the records of a directory for which it does

## Main results

* `scans_inside_iff`: the calls that return and stay inside the block
-/

namespace PekerOS.Ext2

/-! ## The bytes that are read -/

/-- What the inner loop of `ext2_finddir` reads of the block. -/
def findReads (buf : ℕ → Byte) (size : Word) (name : CString) : ℕ → Word → List ℕ
  | 0, _ => []
  | rounds + 1, offset =>
    if offset < size then
      let entry := dirEntry buf offset.toNat
      -- `name_len` and the name
      (offset.toNat + 6) :: List.range' (offset.toNat + 8) entry.name.length ++
        if strcmp (CString.ofBytes entry.name).chars name.chars = 0 then List.range' offset.toNat 4
        else
          List.range' (offset.toNat + 4) 2 ++
            findReads buf size name rounds (offset + entry.recLen.setWidth 32)
    else []

def findReadsIn (fs : Ext2Fs) (rounds : ℕ) (name : CString) : List Word → List ℕ
  | [] => []
  | block :: blocks =>
    findReads (ext2ReadBlock fs block) fs.blockSize name rounds 0#32 ++
      match findInBlock (ext2ReadBlock fs block) fs.blockSize name rounds 0#32 with
      | some none => findReadsIn fs rounds name blocks
      | _ => []

/-- What `ext2_finddir` reads of the blocks of the directory. -/
def ext2FinddirReads (fs : Ext2Fs) (rounds : ℕ) (dir : Word) (name : CString) : List ℕ :=
  match ext2ReadInode fs dir with
  | none => []
  | some inode => findReadsIn fs rounds name inode.dirBlocks

/-- What the inner loop of `ext2_readdir` reads of the block. -/
def readReads (buf : ℕ → Byte) (size index : Word) : ℕ → Word → Word → List ℕ
  | 0, _, _ => []
  | rounds + 1, offset, current =>
    if offset < size then
      let entry := dirEntry buf offset.toNat
      List.range' offset.toNat 4 ++
        if entry.inode ≠ 0#32 ∧ current = index then
          (offset.toNat + 6) :: List.range' (offset.toNat + 8) entry.name.length
        else
          let current := if entry.inode ≠ 0#32 then current + 1#32 else current
          List.range' (offset.toNat + 4) 2 ++
            if entry.recLen = 0#16 then []
            else readReads buf size index rounds (offset + entry.recLen.setWidth 32) current
    else []

def readReadsIn (fs : Ext2Fs) (rounds : ℕ) (index : Word) : List Word → Word → List ℕ
  | [], _ => []
  | block :: blocks, current =>
    readReads (ext2ReadBlock fs block) fs.blockSize index rounds 0#32 current ++
      match readInBlock (ext2ReadBlock fs block) fs.blockSize index rounds 0#32 current with
      | some (.counted current) => readReadsIn fs rounds index blocks current
      | _ => []

/-- What `ext2_readdir` reads of the blocks of the directory. -/
def ext2ReaddirReads (fs : Ext2Fs) (rounds : ℕ) (dir index : Word) : List ℕ :=
  match ext2ReadInode fs dir with
  | none => []
  | some inode => readReadsIn fs rounds index inode.dirBlocks 0#32

/-- The call returns, for some number of rounds, and what it reads is in a block of `size` bytes, for any
number of rounds. -/
structure Scans {α : Type} (size : ℕ) (run : ℕ → Option α) (reads : ℕ → List ℕ) : Prop where
  returns : ∃ rounds, run rounds ≠ none
  inside : ∀ rounds, ∀ i ∈ reads rounds, i < size

/-! ## The records of a directory -/

/-- A record and where it is in its block. -/
structure BlockRecord where
  offset : ℕ
  entry : DirEntry

/-- The records of a block from an offset on, each behind the length of the one before, up to the end of
the block or a length of 0. -/
def chain (buf : ℕ → Byte) (size o : ℕ) : List BlockRecord :=
  if o < size then
    ⟨o, dirEntry buf o⟩ ::
      if (dirEntry buf o).recLen = 0#16 then []
      else chain buf size (o + (dirEntry buf o).recLen.toNat)
  else []
termination_by size - o
decreasing_by
  next hlt hrec =>
  have hpos : (dirEntry buf o).recLen.toNat ≠ 0 := fun h => hrec (BitVec.eq_of_toNat_eq h)
  omega

/-- The records of the blocks of a directory. -/
def dirRecords (fs : Ext2Fs) (dir : Word) : List BlockRecord :=
  match ext2ReadInode fs dir with
  | none => []
  | some inode =>
    inode.dirBlocks.flatMap fun block => chain (ext2ReadBlock fs block) fs.blockSize.toNat 0

/-- `name_len` and the name are in a block of `size` bytes. -/
def BlockRecord.NameInside (size : ℕ) (r : BlockRecord) : Prop :=
  r.offset + 7 ≤ size ∧ (r.entry.name ≠ [] → r.offset + 8 + r.entry.name.length ≤ size)

/-- `inode` and `rec_len` are in a block of `size` bytes. -/
def BlockRecord.LengthInside (size : ℕ) (r : BlockRecord) : Prop := r.offset + 6 ≤ size

/-- Up to the first record with the name, the names are inside, and no length is 0 before that record. -/
def FindFits (size : ℕ) (name : CString) (records : List BlockRecord) : Prop :=
  ∀ pre r post, records = pre ++ r :: post → (∀ q ∈ pre, ¬q.entry.named name) →
    r.NameInside size ∧ (r.entry.named name ∨ r.entry.recLen ≠ 0#16)

/-- The number of records that are not deleted. -/
def liveCount (records : List BlockRecord) : ℕ := records.countP fun r => r.entry.live

/-- Up to the record of the index, the lengths are inside, and the name of that record is. -/
def ReadFits (size index : ℕ) (records : List BlockRecord) : Prop :=
  ∀ pre r post, records = pre ++ r :: post → liveCount pre ≤ index →
    if r.entry.live ∧ liveCount pre = index then r.NameInside size else r.LengthInside size

/-- What `ext2_init` leaves for a superblock with a valid block size and number of inodes. -/
structure Mounted (fs : Ext2Fs) : Prop where
  groups : fs.inodesPerGroup ≠ 0#32
  blockSize : ∃ k, fs.blockSize.toNat = 1024 * 2 ^ k

section Lists

variable {size index : ℕ} {name : CString} {r : BlockRecord} {rs qs : List BlockRecord}

theorem findFits_nil : FindFits size name [] := by
  intro pre r post hsplit
  simp at hsplit

theorem findFits_cons : FindFits size name (r :: rs) ↔
    r.NameInside size ∧ (r.entry.named name ∨ r.entry.recLen ≠ 0#16 ∧ FindFits size name rs) := by
  constructor
  · intro h
    obtain ⟨hinside, hnext⟩ := h [] r rs rfl (by simp)
    by_cases hname : r.entry.named name
    · exact ⟨hinside, .inl hname⟩
    · refine ⟨hinside, .inr ⟨hnext.resolve_left hname, fun pre q post hsplit hpre => ?_⟩⟩
      exact h (r :: pre) q post (congrArg _ hsplit) (List.forall_mem_cons.mpr ⟨hname, hpre⟩)
  · rintro ⟨hinside, hnext⟩ pre q post hsplit hpre
    cases pre with
    | nil =>
      obtain ⟨rfl, -⟩ := List.cons.inj hsplit
      exact ⟨hinside, hnext.imp id And.left⟩
    | cons p pre =>
      obtain ⟨rfl, hrest⟩ := List.cons.inj hsplit
      obtain ⟨hp, hpre⟩ := List.forall_mem_cons.mp hpre
      exact (hnext.resolve_left hp).2 pre q post hrest hpre

theorem findFits_append : FindFits size name (rs ++ qs) ↔
    FindFits size name rs ∧ ((∀ r ∈ rs, ¬r.entry.named name) → FindFits size name qs) := by
  induction rs with
  | nil => simp [findFits_nil]
  | cons r rs ih =>
    rw [List.cons_append, findFits_cons, findFits_cons, ih]
    simp only [List.forall_mem_cons]
    by_cases hname : r.entry.named name
    · simp [hname]
    · simp [hname, and_assoc]

theorem liveCount_cons : liveCount (r :: rs) = liveCount rs + if r.entry.live then 1 else 0 :=
  List.countP_cons

theorem readFits_nil : ReadFits size index [] := by
  intro pre r post hsplit
  simp at hsplit

/-- A record that is passed, and the ones behind it. -/
theorem readFits_cons : ReadFits size index (r :: rs) ↔
    if r.entry.live ∧ index = 0 then r.NameInside size
    else r.LengthInside size ∧ ReadFits size (index - if r.entry.live then 1 else 0) rs := by
  -- the record at the front, and those behind it
  have hhead : ReadFits size index (r :: rs) ↔
      (if r.entry.live ∧ index = 0 then r.NameInside size else r.LengthInside size) ∧
        ∀ pre q post, rs = pre ++ q :: post → liveCount (r :: pre) ≤ index →
          if q.entry.live ∧ liveCount (r :: pre) = index then q.NameInside size
          else q.LengthInside size := by
    constructor
    · intro h
      refine ⟨?_, fun pre q post hsplit => h (r :: pre) q post (congrArg _ hsplit)⟩
      have hfirst := h [] r rs rfl (Nat.zero_le _)
      simpa only [liveCount, List.countP_nil, eq_comm (a := 0)] using hfirst
    · rintro ⟨hfirst, hrest⟩ pre q post hsplit hle
      cases pre with
      | nil =>
        obtain ⟨rfl, -⟩ := List.cons.inj hsplit
        simpa only [liveCount, List.countP_nil, eq_comm (a := 0)] using hfirst
      | cons p pre =>
        obtain ⟨rfl, htail⟩ := List.cons.inj hsplit
        exact hrest pre q post htail hle
  rw [hhead]
  simp only [liveCount_cons]
  by_cases hlive : r.entry.live
  · by_cases hindex : index = 0
    · -- no record behind the first one with the index is looked at
      simp only [hlive, hindex, and_self, if_true, and_iff_left_iff_imp]
      intro _ pre q post _ hle
      omega
    · have hshift (pre : List BlockRecord) : liveCount pre + 1 ≤ index ↔ liveCount pre ≤ index - 1 := by
        omega
      have hshift' (pre : List BlockRecord) : liveCount pre + 1 = index ↔ liveCount pre = index - 1 := by
        omega
      simp only [hlive, hindex, and_false, if_false, if_true, hshift, hshift']
      rfl
  · -- a deleted record is not counted
    simp only [hlive, Bool.false_eq_true, false_and, if_false, Nat.add_zero, Nat.sub_zero]
    rfl

theorem readFits_append : ReadFits size index (rs ++ qs) ↔
    ReadFits size index rs ∧ (liveCount rs ≤ index → ReadFits size (index - liveCount rs) qs) := by
  induction rs generalizing index with
  | nil => simp [readFits_nil, liveCount]
  | cons r rs ih =>
    rw [List.cons_append, readFits_cons, readFits_cons, liveCount_cons]
    split
    · next hfirst =>
      rw [if_pos hfirst.1]
      simp only [iff_self_and]
      intro _ hle
      omega
    · next hfirst =>
      rw [ih, and_assoc]
      refine and_congr_right fun _ => and_congr_right fun _ => ?_
      split
      · next hlive =>
        have hpos : index ≠ 0 := fun h => hfirst ⟨hlive, h⟩
        rw [show index - 1 - liveCount rs = index - (liveCount rs + 1) by omega]
        exact imp_congr_left (by omega)
      · rfl

end Lists

/-! ## One block -/

theorem forall_range'_lt {a n size : ℕ} : (∀ i ∈ List.range' a n, i < size) ↔ (n ≠ 0 → a + n ≤ size) := by
  simp only [List.mem_range'_1]
  constructor
  · intro h hn
    have hlast := h (a + n - 1) (by omega)
    omega
  · intro h i hi
    omega

theorem nameReads_iff {size : ℕ} {r : BlockRecord} :
    (∀ i ∈ (r.offset + 6) :: List.range' (r.offset + 8) r.entry.name.length, i < size) ↔
      r.NameInside size := by
  rw [List.forall_mem_cons, forall_range'_lt, BlockRecord.NameInside, ne_eq, List.length_eq_zero_iff]
  exact Iff.rfl

section Block

variable {buf : ℕ → Byte} {size offset current index : Word} {rounds o n : ℕ} {name : CString}

theorem chain_of_lt (h : o < n) : chain buf n o =
    ⟨o, dirEntry buf o⟩ ::
      if (dirEntry buf o).recLen = 0#16 then [] else chain buf n (o + (dirEntry buf o).recLen.toNat) := by
  rw [chain, if_pos h]

theorem chain_of_le (h : n ≤ o) : chain buf n o = [] := by
  rw [chain, if_neg (Nat.not_lt.mpr h)]

/-- The next offset does not wrap. -/
theorem next_toNat (hsize : size.toNat ≤ 2 ^ 31) (hlt : offset < size) :
    (offset + (dirEntry buf offset.toNat).recLen.setWidth 32).toNat =
      offset.toNat + (dirEntry buf offset.toNat).recLen.toNat := by
  have hrec := (dirEntry buf offset.toNat).recLen.isLt
  have hlt' := BitVec.lt_def.mp hlt
  rw [BitVec.toNat_add, BitVec.toNat_setWidth, Nat.mod_eq_of_lt (hrec.trans (by decide) : _ < 2 ^ 32)]
  exact Nat.mod_eq_of_lt (by omega)

/-- After a length of 0 the scan is where it was. -/
theorem next_zero (hrec : (dirEntry buf offset.toNat).recLen = 0#16) :
    offset + (dirEntry buf offset.toNat).recLen.setWidth 32 = offset := by
  rw [hrec]
  exact BitVec.add_zero offset

theorem rec_pos (hrec : (dirEntry buf o).recLen ≠ 0#16) : 0 < (dirEntry buf o).recLen.toNat :=
  Nat.pos_of_ne_zero fun h => hrec (BitVec.eq_of_toNat_eq h)

/-! ### The scan of `ext2_finddir` -/

/-- A scan that returns has gone to the first record with the name, or over all of them. -/
theorem findInBlock_some (hsize : size.toNat ≤ 2 ^ 31) {x : Option DirEntry}
    (h : findInBlock buf size name rounds offset = some x) :
    x = ((chain buf size.toNat offset.toNat).find? fun r => r.entry.named name).map BlockRecord.entry := by
  induction rounds generalizing offset with
  | zero => cases h
  | succ rounds ih =>
    rw [findInBlock] at h
    split at h
    · next hlt =>
      rw [chain_of_lt (BitVec.lt_def.mp hlt)]
      dsimp only at h
      split at h
      · next hname =>
        obtain rfl := Option.some.inj h
        simp [named_iff.mpr hname]
      · next hname =>
        have hnamed : (dirEntry buf offset.toNat).named name = false :=
          Bool.eq_false_iff.mpr fun h => hname (named_iff.mp h)
        have hrest := ih h
        simp only [List.find?_cons, hnamed]
        by_cases hrec : (dirEntry buf offset.toNat).recLen = 0#16
        · rw [next_zero hrec, chain_of_lt (BitVec.lt_def.mp hlt), if_pos hrec] at hrest
          simpa [hrec, hnamed] using hrest
        · rwa [if_neg hrec, ← next_toNat hsize hlt]
    · next hlt =>
      rw [chain_of_le (Nat.not_lt.mp fun h => hlt (BitVec.lt_def.mpr h))]
      exact (Option.some.inj h).symm

/-- The bytes that are read at a record, and those that are read behind it. -/
theorem findReads_succ (hlt : offset < size) :
    (∀ i ∈ findReads buf size name (rounds + 1) offset, i < size.toNat) ↔
      BlockRecord.NameInside size.toNat ⟨offset.toNat, dirEntry buf offset.toNat⟩ ∧
        ((dirEntry buf offset.toNat).named name ∨
          ∀ i ∈ findReads buf size name rounds (offset + (dirEntry buf offset.toNat).recLen.setWidth 32),
            i < size.toNat) := by
  rw [findReads, if_pos hlt]
  dsimp only
  rw [List.forall_mem_append, nameReads_iff (r := ⟨offset.toNat, dirEntry buf offset.toNat⟩), named_iff]
  refine and_congr_right fun hinside => ?_
  have hseven : offset.toNat + 7 ≤ size.toNat := hinside.1
  split
  · next hname =>
    refine iff_of_true (forall_range'_lt.mpr fun _ => by omega) (.inl hname)
  · next hname =>
    rw [or_iff_right hname, List.forall_mem_append]
    exact and_iff_right (forall_range'_lt.mpr fun _ => by omega)

theorem findReads_of_le (h : ¬offset < size) : findReads buf size name rounds offset = [] := by
  cases rounds with
  | zero => rfl
  | succ rounds => rw [findReads, if_neg h]

theorem find_inside (hsize : size.toNat ≤ 2 ^ 31)
    (hfits : FindFits size.toNat name (chain buf size.toNat offset.toNat)) :
    ∀ i ∈ findReads buf size name rounds offset, i < size.toNat := by
  induction rounds generalizing offset with
  | zero => simp [findReads]
  | succ rounds ih =>
    by_cases hlt : offset < size
    · rw [findReads_succ hlt]
      rw [chain_of_lt (BitVec.lt_def.mp hlt), findFits_cons] at hfits
      refine ⟨hfits.1, hfits.2.imp id fun ⟨hrec, hrest⟩ => ih ?_⟩
      rwa [if_neg hrec, ← next_toNat hsize hlt] at hrest
    · simp [findReads_of_le hlt]

theorem find_returns (hsize : size.toNat ≤ 2 ^ 31)
    (hfits : FindFits size.toNat name (chain buf size.toNat offset.toNat))
    (hrounds : size.toNat - offset.toNat < rounds) : findInBlock buf size name rounds offset ≠ none := by
  induction rounds generalizing offset with
  | zero => omega
  | succ rounds ih =>
    rw [findInBlock]
    split
    · next hlt =>
      rw [chain_of_lt (BitVec.lt_def.mp hlt), findFits_cons] at hfits
      dsimp only
      split
      · simp
      · next hname =>
        obtain ⟨hrec, hrest⟩ := hfits.2.resolve_left fun h => hname (named_iff.mp h)
        have hpos := rec_pos hrec
        have hlt' := BitVec.lt_def.mp hlt
        rw [if_neg hrec, ← next_toNat hsize hlt] at hrest
        exact ih hrest (by rw [next_toNat hsize hlt]; omega)
    · simp

theorem find_fits (hsize : size.toNat ≤ 2 ^ 31) {x : Option DirEntry}
    (h : findInBlock buf size name rounds offset = some x)
    (hinside : ∀ i ∈ findReads buf size name rounds offset, i < size.toNat) :
    FindFits size.toNat name (chain buf size.toNat offset.toNat) := by
  induction rounds generalizing offset with
  | zero => cases h
  | succ rounds ih =>
    by_cases hlt : offset < size
    · rw [findReads_succ hlt] at hinside
      rw [findInBlock, if_pos hlt] at h
      dsimp only at h
      have hrest (hname : ¬(dirEntry buf offset.toNat).named name) := ih
        (by rwa [if_neg fun h => hname (named_iff.mpr h)] at h) (hinside.2.resolve_left hname)
      by_cases hrec : (dirEntry buf offset.toNat).recLen = 0#16
      · -- the scan has returned, so the record has the name
        by_cases hname : (dirEntry buf offset.toNat).named name
        · rw [chain_of_lt (BitVec.lt_def.mp hlt), findFits_cons]
          exact ⟨hinside.1, .inl hname⟩
        · have := hrest hname
          rwa [next_zero hrec] at this
      · rw [chain_of_lt (BitVec.lt_def.mp hlt), findFits_cons, if_neg hrec]
        refine ⟨hinside.1, or_iff_not_imp_left.mpr fun hname => ⟨hrec, ?_⟩⟩
        rw [← next_toNat hsize hlt]
        exact hrest hname
    · rw [chain_of_le (Nat.not_lt.mp fun h => hlt (BitVec.lt_def.mpr h))]
      exact findFits_nil

/-! ### The scan of `ext2_readdir` -/

/-- The scan is at the record of the index. -/
theorem found_iff {r : DirEntry} (hle : current.toNat ≤ index.toNat) :
    r.inode ≠ 0#32 ∧ current = index ↔ r.live ∧ index.toNat - current.toNat = 0 := by
  rw [live_iff, ← BitVec.toNat_inj]
  exact and_congr_right fun _ => by omega

/-- `current_index` behind a record that is passed. -/
theorem passed_toNat {r : DirEntry} (hle : current.toNat ≤ index.toNat)
    (hnot : ¬(r.live ∧ index.toNat - current.toNat = 0)) :
    (if r.inode ≠ 0#32 then current + 1#32 else current).toNat =
        current.toNat + (if r.live then 1 else 0) ∧
      (if r.inode ≠ 0#32 then current + 1#32 else current).toNat ≤ index.toNat := by
  have hindex := index.isLt
  by_cases hlive : r.live
  · have hlt : current.toNat < index.toNat := by
      have hne : index.toNat - current.toNat ≠ 0 := fun h => hnot ⟨hlive, h⟩
      omega
    have hone : (current + 1#32).toNat = current.toNat + 1 := by
      rw [BitVec.toNat_add]
      exact Nat.mod_eq_of_lt (by show current.toNat + 1 < 2 ^ 32; omega)
    rw [if_pos (live_iff.mp hlive), if_pos hlive, hone]
    exact ⟨rfl, hlt⟩
  · rw [if_neg fun h => hlive (live_iff.mpr h), if_neg hlive]
    exact ⟨rfl, hle⟩

/-- A scan that returns has found the record of the index, or counted all that are not deleted. -/
theorem readInBlock_some (hsize : size.toNat ≤ 2 ^ 31) (hle : current.toNat ≤ index.toNat) {s : Scan}
    (h : readInBlock buf size index rounds offset current = some s) :
    (∃ entry, s = .found entry) ∧
        index.toNat < current.toNat + liveCount (chain buf size.toNat offset.toNat) ∨
      ∃ last, s = .counted last ∧
        last.toNat = current.toNat + liveCount (chain buf size.toNat offset.toNat) ∧
        last.toNat ≤ index.toNat := by
  induction rounds generalizing offset current with
  | zero => cases h
  | succ rounds ih =>
    rw [readInBlock] at h
    split at h
    · next hlt =>
      rw [chain_of_lt (BitVec.lt_def.mp hlt), liveCount_cons]
      simp only [found_iff hle] at h
      split at h
      · next hfound =>
        refine .inl ⟨⟨_, (Option.some.inj h).symm⟩, ?_⟩
        rw [if_pos hfound.1]
        omega
      · next hnot =>
        obtain ⟨hpassed, hpassed'⟩ := passed_toNat hle hnot
        split at h
        · next hrec =>
          -- a length of 0 ends the scan of the block
          refine .inr ⟨_, (Option.some.inj h).symm, ?_, hpassed'⟩
          rw [hpassed, if_pos hrec]
          simp [liveCount]
        · next hrec =>
          have hrest := ih hpassed' h
          rw [next_toNat hsize hlt, hpassed] at hrest
          rw [if_neg hrec]
          dsimp only
          refine hrest.imp (And.imp_right fun hlt => ?_) (Exists.imp fun last h => ⟨h.1, ?_, h.2.2⟩)
          · omega
          · have hlast := h.2.1
            omega
    · next hlt =>
      -- past the end of the block
      rw [chain_of_le (Nat.not_lt.mp fun h => hlt (BitVec.lt_def.mpr h))]
      exact .inr ⟨current, (Option.some.inj h).symm, rfl, hle⟩

/-- The bytes that are read at a record, and those that are read behind it. -/
theorem readReads_succ (hlt : offset < size) (hle : current.toNat ≤ index.toNat) :
    (∀ i ∈ readReads buf size index (rounds + 1) offset current, i < size.toNat) ↔
      if (dirEntry buf offset.toNat).live ∧ index.toNat - current.toNat = 0 then
        BlockRecord.NameInside size.toNat ⟨offset.toNat, dirEntry buf offset.toNat⟩
      else
        BlockRecord.LengthInside size.toNat ⟨offset.toNat, dirEntry buf offset.toNat⟩ ∧
          ((dirEntry buf offset.toNat).recLen ≠ 0#16 →
            ∀ i ∈ readReads buf size index rounds
              (offset + (dirEntry buf offset.toNat).recLen.setWidth 32)
              (if (dirEntry buf offset.toNat).inode ≠ 0#32 then current + 1#32 else current),
              i < size.toNat) := by
  rw [readReads, if_pos hlt]
  simp only [found_iff hle]
  rw [List.forall_mem_append, forall_range'_lt]
  split
  · next hfound =>
    rw [nameReads_iff (r := ⟨offset.toNat, dirEntry buf offset.toNat⟩)]
    refine and_iff_right_of_imp fun hinside _ => ?_
    have hseven : offset.toNat + 7 ≤ size.toNat := hinside.1
    omega
  · next hnot =>
    rw [List.forall_mem_append, forall_range'_lt, ← and_assoc]
    refine and_congr ?_ ?_
    · rw [BlockRecord.LengthInside]
      dsimp only
      omega
    · split
      · next hrec => simp [hrec]
      · next hrec => exact (imp_iff_right hrec).symm

theorem readReads_of_le (h : ¬offset < size) :
    readReads buf size index rounds offset current = [] := by
  cases rounds with
  | zero => rfl
  | succ rounds => rw [readReads, if_neg h]

theorem read_inside (hsize : size.toNat ≤ 2 ^ 31) (hle : current.toNat ≤ index.toNat)
    (hfits : ReadFits size.toNat (index.toNat - current.toNat) (chain buf size.toNat offset.toNat)) :
    ∀ i ∈ readReads buf size index rounds offset current, i < size.toNat := by
  induction rounds generalizing offset current with
  | zero => simp [readReads]
  | succ rounds ih =>
    by_cases hlt : offset < size
    · rw [readReads_succ hlt hle]
      rw [chain_of_lt (BitVec.lt_def.mp hlt), readFits_cons] at hfits
      dsimp only at hfits
      split at hfits
      · next hfound => rwa [if_pos hfound]
      · next hnot =>
        rw [if_neg hnot]
        refine ⟨hfits.1, fun hrec => ?_⟩
        obtain ⟨hpassed, hpassed'⟩ := passed_toNat hle hnot
        have hrest := hfits.2
        rw [if_neg hrec, ← next_toNat hsize hlt, Nat.sub_sub, ← hpassed] at hrest
        exact ih hpassed' hrest
    · simp [readReads_of_le hlt]

/-- A scan of `ext2_readdir` always returns. -/
theorem read_returns (hsize : size.toNat ≤ 2 ^ 31) (hrounds : size.toNat - offset.toNat < rounds) :
    readInBlock buf size index rounds offset current ≠ none := by
  induction rounds generalizing offset current with
  | zero => omega
  | succ rounds ih =>
    rw [readInBlock]
    split
    · next hlt =>
      have hlt' := BitVec.lt_def.mp hlt
      dsimp only
      split
      · simp
      · split
        · simp
        · next hrec =>
          have hpos := rec_pos hrec
          exact ih (by rw [next_toNat hsize hlt]; omega)
    · simp

theorem read_fits (hsize : size.toNat ≤ 2 ^ 31) (hle : current.toNat ≤ index.toNat)
    (hrounds : size.toNat - offset.toNat < rounds)
    (hinside : ∀ i ∈ readReads buf size index rounds offset current, i < size.toNat) :
    ReadFits size.toNat (index.toNat - current.toNat) (chain buf size.toNat offset.toNat) := by
  induction rounds generalizing offset current with
  | zero => omega
  | succ rounds ih =>
    by_cases hlt : offset < size
    · have hlt' := BitVec.lt_def.mp hlt
      rw [readReads_succ hlt hle] at hinside
      rw [chain_of_lt hlt', readFits_cons]
      dsimp only
      split at hinside
      · next hfound => rwa [if_pos hfound]
      · next hnot =>
        obtain ⟨hpassed, hpassed'⟩ := passed_toNat hle hnot
        rw [if_neg hnot]
        refine ⟨hinside.1, ?_⟩
        by_cases hrec : (dirEntry buf offset.toNat).recLen = 0#16
        · rw [if_pos hrec]
          exact readFits_nil
        · have hpos := rec_pos hrec
          have hrest := ih hpassed' (by rw [next_toNat hsize hlt]; omega) (hinside.2 hrec)
          rwa [if_neg hrec, ← next_toNat hsize hlt, Nat.sub_sub, ← hpassed]
    · rw [chain_of_le (Nat.not_lt.mp fun h => hlt (BitVec.lt_def.mpr h))]
      exact readFits_nil

end Block

/-! ## The whole directory -/

section Directory

variable {fs : Ext2Fs} {rounds : ℕ} {name : CString} {current index : Word} {blocks : List Word}

/-- The records of some blocks. -/
abbrev blockRecords (fs : Ext2Fs) (blocks : List Word) : List BlockRecord :=
  blocks.flatMap fun block => chain (ext2ReadBlock fs block) fs.blockSize.toNat 0

theorem Mounted.le (hfs : Mounted fs) : fs.blockSize.toNat ≤ 2 ^ 31 := by
  obtain ⟨k, hk⟩ := hfs.blockSize
  have hlt := fs.blockSize.isLt
  rw [hk] at hlt ⊢
  have hpow : 2 ^ k < 2 ^ 22 := by omega
  have hk : k ≤ 21 := Nat.le_of_lt_succ ((Nat.pow_lt_pow_iff_right (by decide)).mp hpow)
  have := Nat.pow_le_pow_right (show 0 < 2 by decide) hk
  omega

theorem Mounted.pos (hfs : Mounted fs) : 0 < fs.blockSize.toNat := by
  obtain ⟨k, hk⟩ := hfs.blockSize
  have := Nat.two_pow_pos k
  omega

/-- No record of the block has the name: the scan goes on with the next block. -/
theorem find_none (hsize : fs.blockSize.toNat ≤ 2 ^ 31) {block : Word}
    (h : findInBlock (ext2ReadBlock fs block) fs.blockSize name rounds 0#32 = some none) :
    ∀ r ∈ chain (ext2ReadBlock fs block) fs.blockSize.toNat 0, ¬r.entry.named name := by
  have hfind := findInBlock_some hsize h
  exact List.find?_eq_none.mp (Option.map_eq_none_iff.mp hfind.symm)

theorem findIn_inside (hsize : fs.blockSize.toNat ≤ 2 ^ 31)
    (hfits : FindFits fs.blockSize.toNat name (blockRecords fs blocks)) :
    ∀ i ∈ findReadsIn fs rounds name blocks, i < fs.blockSize.toNat := by
  induction blocks with
  | nil => simp [findReadsIn]
  | cons block blocks ih =>
    rw [blockRecords, List.flatMap_cons, findFits_append] at hfits
    rw [findReadsIn, List.forall_mem_append]
    refine ⟨find_inside hsize hfits.1, ?_⟩
    split
    · next hnone => exact ih (hfits.2 (find_none hsize hnone))
    · simp

theorem findIn_returns (hsize : fs.blockSize.toNat ≤ 2 ^ 31) (hrounds : fs.blockSize.toNat < rounds)
    (hfits : FindFits fs.blockSize.toNat name (blockRecords fs blocks)) :
    findInBlocks fs rounds name blocks ≠ none := by
  induction blocks with
  | nil => simp [findInBlocks]
  | cons block blocks ih =>
    rw [blockRecords, List.flatMap_cons, findFits_append] at hfits
    rw [findInBlocks]
    rcases hres : findInBlock (ext2ReadBlock fs block) fs.blockSize name rounds 0#32 with _ | _ | entry
    · exact absurd hres (find_returns hsize hfits.1 (by simpa using hrounds))
    · exact ih (hfits.2 (find_none hsize hres))
    · simp

theorem findIn_fits (hsize : fs.blockSize.toNat ≤ 2 ^ 31)
    (hreturns : findInBlocks fs rounds name blocks ≠ none)
    (hinside : ∀ i ∈ findReadsIn fs rounds name blocks, i < fs.blockSize.toNat) :
    FindFits fs.blockSize.toNat name (blockRecords fs blocks) := by
  induction blocks with
  | nil => exact findFits_nil
  | cons block blocks ih =>
    rw [findReadsIn, List.forall_mem_append] at hinside
    rw [findInBlocks] at hreturns
    rw [blockRecords, List.flatMap_cons, findFits_append]
    rcases hres : findInBlock (ext2ReadBlock fs block) fs.blockSize name rounds 0#32 with _ | _ | entry
    all_goals rw [hres] at hreturns hinside
    · exact absurd rfl hreturns
    · exact ⟨find_fits hsize hres hinside.1, fun _ => ih hreturns hinside.2⟩
    · -- the name was found, so it is in this block
      refine ⟨find_fits hsize hres hinside.1, fun hnone => ?_⟩
      have hfind := findInBlock_some hsize hres
      rw [BitVec.toNat_zero, List.find?_eq_none.mpr hnone] at hfind
      cases hfind

theorem readIn_inside (hsize : fs.blockSize.toNat ≤ 2 ^ 31) (hle : current.toNat ≤ index.toNat)
    (hfits : ReadFits fs.blockSize.toNat (index.toNat - current.toNat) (blockRecords fs blocks)) :
    ∀ i ∈ readReadsIn fs rounds index blocks current, i < fs.blockSize.toNat := by
  induction blocks generalizing current with
  | nil => simp [readReadsIn]
  | cons block blocks ih =>
    rw [blockRecords, List.flatMap_cons, readFits_append] at hfits
    rw [readReadsIn, List.forall_mem_append]
    refine ⟨read_inside hsize hle hfits.1, ?_⟩
    split
    · next last hres =>
      obtain ⟨⟨entry, hfound⟩, -⟩ | ⟨last', hlast, hcount, hle'⟩ := readInBlock_some hsize hle hres
      · cases hfound
      · obtain rfl := Scan.counted.inj hlast
        rw [BitVec.toNat_zero] at hcount
        have hrest := hfits.2 (by omega)
        rw [Nat.sub_sub, ← hcount] at hrest
        exact ih hle' hrest
    · simp

theorem readIn_returns (hsize : fs.blockSize.toNat ≤ 2 ^ 31) (hrounds : fs.blockSize.toNat < rounds) :
    readInBlocks fs rounds index blocks current ≠ none := by
  induction blocks generalizing current with
  | nil => simp [readInBlocks]
  | cons block blocks ih =>
    rw [readInBlocks]
    rcases hres : readInBlock (ext2ReadBlock fs block) fs.blockSize index rounds 0#32 current with
      _ | entry | last
    · exact absurd hres (read_returns hsize (by simpa using hrounds))
    · simp
    · exact ih

theorem readIn_fits (hsize : fs.blockSize.toNat ≤ 2 ^ 31) (hle : current.toNat ≤ index.toNat)
    (hrounds : fs.blockSize.toNat < rounds)
    (hinside : ∀ i ∈ readReadsIn fs rounds index blocks current, i < fs.blockSize.toNat) :
    ReadFits fs.blockSize.toNat (index.toNat - current.toNat) (blockRecords fs blocks) := by
  induction blocks generalizing current with
  | nil => exact readFits_nil
  | cons block blocks ih =>
    rw [readReadsIn, List.forall_mem_append] at hinside
    rw [blockRecords, List.flatMap_cons, readFits_append]
    refine ⟨read_fits hsize hle (by simpa using hrounds) hinside.1, fun hcount => ?_⟩
    rcases hres : readInBlock (ext2ReadBlock fs block) fs.blockSize index rounds 0#32 current with
      _ | s
    · exact absurd hres (read_returns hsize (by simpa using hrounds))
    · rw [hres] at hinside
      obtain ⟨-, hlt⟩ | ⟨last, rfl, hlast, hle'⟩ := readInBlock_some hsize hle hres
      · rw [BitVec.toNat_zero] at hlt
        omega
      · rw [BitVec.toNat_zero] at hlast
        rw [Nat.sub_sub, ← hlast]
        exact ih hle' hinside.2

/-- The node of an entry that is found is made without a fault. -/
theorem ext2Finddir_ne_none (hfs : Mounted fs) {dir : Word} {inode : Inode}
    (hinode : ext2ReadInode fs dir = some inode) :
    ext2Finddir fs rounds dir name ≠ none ↔ findInBlocks fs rounds name inode.dirBlocks ≠ none := by
  rw [ext2Finddir, hinode]
  simp only [Option.bind_eq_bind, Option.bind_some]
  rcases findInBlocks fs rounds name inode.dirBlocks with _ | _ | entry
  · exact iff_of_false (fun h => h rfl) fun h => h rfl
  · exact iff_of_true (by simp) (by simp)
  · obtain ⟨node, hnode, -⟩ :=
      ext2InodeToVfs_some hfs.groups hfs.pos entry.inode (CString.ofBytes entry.name).chars
    exact iff_of_true (by simp [hnode]) (by simp)

theorem ext2Readdir_ne_none {dir : Word} {inode : Inode} (hinode : ext2ReadInode fs dir = some inode)
    (mem : ℕ → Byte) : ext2Readdir fs rounds dir index mem ≠ none ↔
      readInBlocks fs rounds index inode.dirBlocks 0#32 ≠ none := by
  rw [ext2Readdir, hinode]
  simp only [Option.bind_eq_bind, Option.bind_some]
  rcases readInBlocks fs rounds index inode.dirBlocks 0#32 with _ | entry | last
  · exact iff_of_false (fun h => h rfl) fun h => h rfl
  · exact iff_of_true (by simp) (by simp)
  · exact iff_of_true (by simp) (by simp)

theorem finddir_scans_iff (hfs : Mounted fs) (dir : Word) (name : CString) :
    Scans fs.blockSize.toNat (fun rounds => ext2Finddir fs rounds dir name)
        (fun rounds => ext2FinddirReads fs rounds dir name) ↔
      FindFits fs.blockSize.toNat name (dirRecords fs dir) := by
  obtain ⟨inode, hinode⟩ := ext2ReadInode_some hfs.groups hfs.pos dir
  have hsize := hfs.le
  rw [dirRecords, hinode]
  constructor
  · rintro ⟨⟨rounds, hreturns⟩, hinside⟩
    have hreads := hinside rounds
    rw [ext2FinddirReads, hinode] at hreads
    exact findIn_fits hsize ((ext2Finddir_ne_none hfs hinode).mp hreturns) hreads
  · intro hfits
    refine ⟨⟨fs.blockSize.toNat + 1, ?_⟩, fun rounds => ?_⟩
    · exact (ext2Finddir_ne_none hfs hinode).mpr (findIn_returns hsize (Nat.lt_succ_self _) hfits)
    · rw [ext2FinddirReads, hinode]
      exact findIn_inside hsize hfits

theorem readdir_scans_iff (hfs : Mounted fs) (dir index : Word) (mem : ℕ → Byte) :
    Scans fs.blockSize.toNat (fun rounds => ext2Readdir fs rounds dir index mem)
        (fun rounds => ext2ReaddirReads fs rounds dir index) ↔
      ReadFits fs.blockSize.toNat index.toNat (dirRecords fs dir) := by
  obtain ⟨inode, hinode⟩ := ext2ReadInode_some hfs.groups hfs.pos dir
  have hsize := hfs.le
  have hle : (0#32).toNat ≤ index.toNat := Nat.zero_le _
  rw [dirRecords, hinode]
  constructor
  · rintro ⟨-, hinside⟩
    have hreads := hinside (fs.blockSize.toNat + 1)
    rw [ext2ReaddirReads, hinode] at hreads
    exact readIn_fits hsize hle (Nat.lt_succ_self _) hreads
  · intro hfits
    refine ⟨⟨fs.blockSize.toNat + 1, ?_⟩, fun rounds => ?_⟩
    · exact (ext2Readdir_ne_none hinode mem).mpr (readIn_returns hsize (Nat.lt_succ_self _))
    · rw [ext2ReaddirReads, hinode]
      exact readIn_inside hsize hle hfits

end Directory

/-- **Scans.** In a mounted file system and whatever is in the blocks of a directory, `ext2_finddir` returns
and reads inside of them exactly if, up to the first record with the name, the names lie inside and no
length is 0; and `ext2_readdir` does exactly if, up to the record of the index, the lengths lie inside and
the name of that record does. -/
theorem scans_inside_iff {fs : Ext2Fs} (hfs : Mounted fs) (dir : Word) :
    (∀ name, Scans fs.blockSize.toNat (fun rounds => ext2Finddir fs rounds dir name)
        (fun rounds => ext2FinddirReads fs rounds dir name) ↔
      FindFits fs.blockSize.toNat name (dirRecords fs dir)) ∧
    ∀ index mem, Scans fs.blockSize.toNat (fun rounds => ext2Readdir fs rounds dir index mem)
        (fun rounds => ext2ReaddirReads fs rounds dir index) ↔
      ReadFits fs.blockSize.toNat index.toNat (dirRecords fs dir) :=
  ⟨finddir_scans_iff hfs dir, readdir_scans_iff hfs dir⟩

theorem mounted_tinyFs (bytes : List Byte) : Mounted (tinyFs bytes) :=
  ⟨show 8#32 ≠ 0#32 by decide, 0, rfl⟩

/-- The root directory is in block 9. -/
theorem dirRecords_tinyFs {bytes : List Byte}
    (hblocks : (ext2ReadInode (tinyFs bytes) 2#32).map Inode.dirBlocks = some [9#32]) :
    dirRecords (tinyFs bytes) 2#32 = chain (ext2ReadBlock (tinyFs bytes) 9#32) 1024 0 := by
  obtain ⟨inode, hinode, hdir⟩ := Option.map_eq_some_iff.mp hblocks
  rw [dirRecords, hinode]
  dsimp only
  rw [hdir]
  exact List.flatMap_singleton _ _

/-- `a` is found in the first record. -/
theorem scans_inside_recreated :
    Scans 1024 (fun rounds => ext2Finddir (tinyFs recreated) rounds 2#32 ⟨[0x61#8], by decide⟩)
      fun rounds => ext2FinddirReads (tinyFs recreated) rounds 2#32 ⟨[0x61#8], by decide⟩ := by
  refine ((scans_inside_iff (mounted_tinyFs recreated) 2#32).1 ⟨[0x61#8], by decide⟩).mpr ?_
  have hentry : dirEntry (ext2ReadBlock (tinyFs recreated) 9#32) 0 = ⟨12#32, 12#16, [0x61#8]⟩ := by
    decide +kernel
  rw [dirRecords_tinyFs (by decide +kernel), chain_of_lt (by decide), hentry, findFits_cons]
  exact ⟨⟨by decide, fun _ => by decide⟩, .inl (by decide)⟩

/-- A directory of zeros, in which `ext2_finddir` never gets past the first record. -/
theorem finddir_loops : ¬∀ (fs : Ext2Fs), Mounted fs → ∀ dir,
    (∀ name, Scans fs.blockSize.toNat (fun rounds => ext2Finddir fs rounds dir name)
      fun rounds => ext2FinddirReads fs rounds dir name) ∧
    ∀ index mem, Scans fs.blockSize.toNat (fun rounds => ext2Readdir fs rounds dir index mem)
      fun rounds => ext2ReaddirReads fs rounds dir index := by
  intro h
  have hscans := (h (tinyFs []) (mounted_tinyFs []) 2#32).1 ⟨[0x61#8], by decide⟩
  have hfits := (finddir_scans_iff (mounted_tinyFs []) 2#32 _).mp hscans
  have hentry : dirEntry (ext2ReadBlock (tinyFs []) 9#32) 0 = ⟨0#32, 0#16, []⟩ := by decide +kernel
  rw [dirRecords_tinyFs (by decide +kernel), chain_of_lt (by decide), hentry, findFits_cons] at hfits
  rcases hfits.2 with hname | ⟨hrec, -⟩
  · exact absurd hname (by decide)
  · exact hrec rfl

end PekerOS.Ext2
