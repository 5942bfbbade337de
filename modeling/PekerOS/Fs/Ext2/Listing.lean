import PekerOS.Fs.Ext2.Ext2

/-!
# ext2: listing and lookup

On blocks that records tile, both scans of a directory go through the records one after another.
`ext2_finddir` takes the first record with the name, a deleted one as well; `ext2_readdir` counts the
records that are not deleted. A name of more than 127 characters does not come out of `ext2_readdir` as
it was, since `ino` is stored over it.

## Main definitions

* `Tiles`: the records of a block
* `WellFormed`: a directory and its records
* `Agree`: listing and lookup agree
* `NoneShadowed`, `ReadsBack`: no deleted record is the first with its name; a name fits

## Main results

* `ext2Finddir_eq`, `ext2Readdir_eq`: the functions on the list of records
* `listing_agrees`: when listing and lookup agree
-/

namespace PekerOS.Ext2

/-- The records of a block of `size` bytes from an offset on, up to its end. -/
inductive Tiles (buf : ℕ → Byte) (size : ℕ) : ℕ → List DirEntry → Prop
  | nil : Tiles buf size size []
  | cons {offset records} : offset < size →
      8 + (dirEntry buf offset).name.length ≤ (dirEntry buf offset).recLen.toNat →
      Tiles buf size (offset + (dirEntry buf offset).recLen.toNat) records →
      Tiles buf size offset (dirEntry buf offset :: records)

/-- `inode` of the record is not 0. -/
def DirEntry.live (r : DirEntry) : Bool := r.inode ≠ 0#32

/-- The directory consists of these records: they tile its blocks, the names of those that are not
deleted have no zero byte, and no two of them are the same. -/
structure WellFormed (fs : Ext2Fs) (dir : Word) (records : List DirEntry) : Prop where
  groups : fs.inodesPerGroup ≠ 0#32
  blockSize : 0 < fs.blockSize.toNat ∧ fs.blockSize.toNat ≤ 2 ^ 31
  tiles : ∀ inode, ext2ReadInode fs dir = some inode → ∃ blocks, blocks.flatten = records ∧
    List.Forall₂ (fun block => Tiles (ext2ReadBlock fs block) fs.blockSize.toNat 0) inode.dirBlocks blocks
  names : ∀ r ∈ records, r.live → r.name ≠ [] ∧ ∀ c ∈ r.name, c ≠ 0#8
  unique : ((records.filter DirEntry.live).map DirEntry.name).Nodup

section Scans

variable {buf : ℕ → Byte} {size offset current index : Word} {rounds : ℕ} {records : List DirEntry}
  {name : CString}

theorem Tiles.le {n : ℕ} {o : ℕ} (h : Tiles buf n o records) : o + 8 * records.length ≤ n := by
  induction h with
  | nil => exact le_rfl
  | cons hlt hlen _ ih =>
    rw [List.length_cons]
    omega

theorem Tiles.record {n o : ℕ} {r : DirEntry} (hr : dirEntry buf o = r) (hlt : o < n)
    (hlen : 8 + r.name.length ≤ r.recLen.toNat) (h : Tiles buf n (o + r.recLen.toNat) records) :
    Tiles buf n o (r :: records) := by
  subst hr
  exact .cons hlt hlen h

/-- The next offset does not wrap. -/
theorem Tiles.next {n : ℕ} (hn : n < 2 ^ 32)
    (h : Tiles buf n (offset.toNat + (dirEntry buf offset.toNat).recLen.toNat) records) :
    (offset + (dirEntry buf offset.toNat).recLen.setWidth 32).toNat =
      offset.toNat + (dirEntry buf offset.toNat).recLen.toNat := by
  have hle := h.le
  have hrec := (dirEntry buf offset.toNat).recLen.isLt
  rw [BitVec.toNat_add, BitVec.toNat_setWidth, Nat.mod_eq_of_lt (hrec.trans (by decide) : _ < 2 ^ 32)]
  exact Nat.mod_eq_of_lt (by omega)

/-- A record has the name, as `strcmp` sees it. -/
def DirEntry.named (name : CString) (r : DirEntry) : Bool := CString.ofBytes r.name = name

theorem named_eq {r : DirEntry} : r.named name = true ↔ CString.ofBytes r.name = name := decide_eq_true_iff

theorem named_iff {r : DirEntry} : r.named name ↔ strcmp (CString.ofBytes r.name).chars name.chars = 0 := by
  rw [DirEntry.named, decide_eq_true_iff, strcmp_eq_zero_iff (CString.ofBytes r.name).noNul name.noNul]
  constructor
  · exact fun h => congrArg _ h
  · intro h
    cases hc : CString.ofBytes r.name
    cases name
    rw [hc] at h
    simpa using h

/-- A scan of `ext2_finddir`. -/
theorem findInBlock_eq (h : Tiles buf size.toNat offset.toNat records) (hrounds : records.length < rounds) :
    findInBlock buf size name rounds offset = some (records.find? (DirEntry.named name)) := by
  have hsize := size.isLt
  generalize ho : offset.toNat = o at h
  induction h generalizing offset rounds with
  | nil =>
    obtain ⟨k, rfl⟩ : ∃ k, rounds = k + 1 := ⟨rounds - 1, by omega⟩
    rw [findInBlock, if_neg (by rw [BitVec.lt_def]; omega), List.find?_nil]
  | cons hlt hlen htail ih =>
    subst ho
    obtain ⟨k, rfl⟩ : ∃ k, rounds = k + 1 := ⟨rounds - 1, by omega⟩
    rw [findInBlock, if_pos (BitVec.lt_def.mpr hlt), List.find?_cons]
    by_cases hname : strcmp (CString.ofBytes (dirEntry buf offset.toNat).name).chars name.chars = 0
    · rw [if_pos hname, named_iff.mpr hname]
    · rw [if_neg hname, Bool.eq_false_iff.mpr fun h => hname (named_iff.mp h)]
      refine ih (Nat.lt_of_succ_lt_succ hrounds) (htail.next hsize)

/-- A scan of `ext2_readdir`, which has counted as far as `current`. -/
theorem readInBlock_eq (h : Tiles buf size.toNat offset.toNat records) (hrounds : records.length < rounds)
    (hle : current.toNat ≤ index.toNat)
    (hfits : current.toNat + (records.filter DirEntry.live).length < 2 ^ 32) :
    readInBlock buf size index rounds offset current =
      match (records.filter DirEntry.live)[index.toNat - current.toNat]? with
      | some r => some (.found r)
      | none => some (.counted (current + BitVec.ofNat 32 (records.filter DirEntry.live).length)) := by
  have hsize := size.isLt
  generalize ho : offset.toNat = o at h
  induction h generalizing offset rounds current with
  | nil =>
    obtain ⟨k, rfl⟩ : ∃ k, rounds = k + 1 := ⟨rounds - 1, by omega⟩
    rw [readInBlock, if_neg (by rw [BitVec.lt_def]; omega)]
    simp
  | @cons o records hlt hlen htail ih =>
    subst ho
    obtain ⟨k, rfl⟩ : ∃ k, rounds = k + 1 := ⟨rounds - 1, by omega⟩
    have hnext := htail.next hsize
    -- a record with a name has a length, so the scan goes on behind it
    have hrec : (dirEntry buf offset.toNat).recLen ≠ 0#16 := by
      intro h0
      rw [h0] at hlen
      exact absurd hlen (by show ¬(8 + _ ≤ 0); omega)
    rw [readInBlock, if_pos (BitVec.lt_def.mpr hlt)]
    dsimp only
    -- a record whose inode is 0 is passed over and not counted
    by_cases hlive : (dirEntry buf offset.toNat).inode = 0#32
    · have hfalse : (dirEntry buf offset.toNat).live = false := by simp [DirEntry.live, hlive]
      rw [if_neg (fun h => h.1 hlive), if_neg (not_not_intro hlive), if_neg hrec,
        List.filter_cons_of_neg (by rw [hfalse]; decide)]
      rw [List.filter_cons_of_neg (by rw [hfalse]; decide)] at hfits
      exact ih (Nat.lt_of_succ_lt_succ hrounds) hle hfits hnext
    · have htrue : (dirEntry buf offset.toNat).live = true := by simp [DirEntry.live, hlive]
      rw [List.filter_cons_of_pos htrue] at hfits ⊢
      rw [List.length_cons] at hfits
      by_cases hindex : current = index
      · -- the record asked for
        rw [if_pos ⟨hlive, hindex⟩, hindex, Nat.sub_self, List.getElem?_cons_zero]
      · have hlt' : current.toNat < index.toNat :=
          lt_of_le_of_ne hle fun h => hindex (BitVec.eq_of_toNat_eq h)
        have hone : (current + 1#32).toNat = current.toNat + 1 := by
          rw [BitVec.toNat_add]
          exact Nat.mod_eq_of_lt (by show current.toNat + 1 < 2 ^ 32; omega)
        rw [if_neg (fun h => hindex h.2), if_pos hlive, if_neg hrec,
          ih (Nat.lt_of_succ_lt_succ hrounds) (by omega) (by omega) hnext,
          show index.toNat - current.toNat = index.toNat - (current + 1#32).toNat + 1 by omega,
          List.getElem?_cons_succ, List.length_cons]
        split
        · rfl
        · rw [Nat.add_comm _ 1, BitVec.ofNat_add, BitVec.add_assoc]

end Scans

/-! ## The whole directory -/

section Directory

variable {fs : Ext2Fs} {dir index : Word} {rounds : ℕ} {records : List DirEntry} {name : CString}
  {blocks : List Word} {lists : List (List DirEntry)}

theorem findInBlocks_eq (hrounds : fs.blockSize.toNat < rounds)
    (h : List.Forall₂ (fun block => Tiles (ext2ReadBlock fs block) fs.blockSize.toNat 0) blocks lists) :
    findInBlocks fs rounds name blocks = some (lists.flatten.find? (DirEntry.named name)) := by
  induction h with
  | nil => rfl
  | @cons block records blocks lists htiles _ ih =>
    have hle := htiles.le
    have hblock := @findInBlock_eq _ _ 0#32 rounds _ name htiles (by omega)
    rw [findInBlocks, hblock, List.flatten_cons, List.find?_append]
    cases records.find? (DirEntry.named name) with
    | none => exact ih
    | some r => rfl

theorem readInBlocks_eq (hrounds : fs.blockSize.toNat < rounds) {current : Word}
    (h : List.Forall₂ (fun block => Tiles (ext2ReadBlock fs block) fs.blockSize.toNat 0) blocks lists)
    (hle : current.toNat ≤ index.toNat)
    (hfits : current.toNat + (lists.flatten.filter DirEntry.live).length < 2 ^ 32) :
    ∃ last, readInBlocks fs rounds index blocks current = some
      (((lists.flatten.filter DirEntry.live)[index.toNat - current.toNat]?.map Scan.found).getD
        (.counted last)) := by
  induction h generalizing current with
  | nil => exact ⟨current, rfl⟩
  | @cons block records blocks lists htiles _ ih =>
    have hlen := htiles.le
    rw [List.flatten_cons, List.filter_append, List.length_append] at hfits
    have hblock := @readInBlock_eq _ _ 0#32 _ _ rounds _ htiles (by omega) hle (by omega)
    rw [readInBlocks, hblock, List.flatten_cons, List.filter_append]
    by_cases hhere : index.toNat - current.toNat < (records.filter DirEntry.live).length
    · rw [List.getElem?_append_left hhere, List.getElem?_eq_getElem hhere]
      exact ⟨current, rfl⟩
    · have hskip : (current + BitVec.ofNat 32 (records.filter DirEntry.live).length).toNat =
          current.toNat + (records.filter DirEntry.live).length := by
        rw [BitVec.toNat_add, BitVec.toNat_ofNat]
        omega
      rw [List.getElem?_append_right (by omega), List.getElem?_eq_none (by omega),
        show index.toNat - current.toNat - (records.filter DirEntry.live).length =
          index.toNat - (current + BitVec.ofNat 32 (records.filter DirEntry.live).length).toNat by omega]
      exact ih (by omega) (by omega)

/-- Each record takes at least 8 bytes. -/
theorem length_flatten_le
    (h : List.Forall₂ (fun block => Tiles (ext2ReadBlock fs block) fs.blockSize.toNat 0) blocks lists) :
    8 * lists.flatten.length ≤ blocks.length * fs.blockSize.toNat := by
  induction h with
  | nil => exact Nat.zero_le _
  | cons htiles _ ih =>
    have hle := htiles.le
    rw [List.flatten_cons, List.length_append, List.length_cons, Nat.add_mul]
    omega

theorem length_dirBlocks (inode : Inode) : inode.dirBlocks.length ≤ 12 := by
  have hle := (List.takeWhile_prefix (l := (List.range 12).map inode.block)
    fun block => decide (block ≠ 0#32)).length_le
  rwa [List.length_map, List.length_range] at hle

theorem ext2ReadInode_some (hgroups : fs.inodesPerGroup ≠ 0#32) (hsize : 0 < fs.blockSize.toNat)
    (ino : Word) : ∃ inode, ext2ReadInode fs ino = some inode := by
  have hzero : fs.blockSize ≠ 0#32 := fun h => by
    rw [h] at hsize
    exact absurd hsize (lt_irrefl 0)
  rw [ext2ReadInode, if_neg (not_or.mpr ⟨hgroups, hzero⟩)]
  exact ⟨_, rfl⟩

theorem ext2InodeToVfs_some (hgroups : fs.inodesPerGroup ≠ 0#32) (hsize : 0 < fs.blockSize.toNat)
    (ino : Word) (name : List Byte) :
    ∃ node, ext2InodeToVfs fs ino name = some node ∧ node.inode = ino := by
  obtain ⟨inode, hinode⟩ := ext2ReadInode_some hgroups hsize ino
  rw [ext2InodeToVfs, hinode]
  exact ⟨_, rfl, rfl⟩

namespace WellFormed

/-- `current_index` does not wrap. -/
theorem length_live (h : WellFormed fs dir records) : (records.filter DirEntry.live).length < 2 ^ 32 := by
  obtain ⟨inode, hinode⟩ := ext2ReadInode_some h.groups h.blockSize.1 dir
  obtain ⟨lists, hflat, hlists⟩ := h.tiles inode hinode
  have hblocks := length_dirBlocks inode
  have hsize := h.blockSize.2
  have hsum := length_flatten_le hlists
  have hlive := List.length_filter_le DirEntry.live records
  have hmul := Nat.mul_le_mul hblocks hsize
  rw [hflat] at hsum
  omega

/-- **`ext2_finddir`** takes the first record with the name. -/
theorem ext2Finddir_eq (h : WellFormed fs dir records) (hrounds : fs.blockSize.toNat < rounds)
    (name : CString) : match records.find? (DirEntry.named name) with
      | none => ext2Finddir fs rounds dir name = some none
      | some r => ∃ node, ext2Finddir fs rounds dir name = some (some node) ∧ node.inode = r.inode := by
  obtain ⟨inode, hinode⟩ := ext2ReadInode_some h.groups h.blockSize.1 dir
  obtain ⟨lists, hflat, hlists⟩ := h.tiles inode hinode
  have hfind := @findInBlocks_eq _ rounds name _ _ hrounds hlists
  rw [hflat] at hfind
  cases hr : records.find? (DirEntry.named name) with
  | none =>
    dsimp only
    rw [ext2Finddir, hinode]
    simp [hfind, hr]
  | some r =>
    obtain ⟨node, hnode, hino⟩ :=
      ext2InodeToVfs_some h.groups h.blockSize.1 r.inode (CString.ofBytes r.name).chars
    refine ⟨node, ?_, hino⟩
    rw [ext2Finddir, hinode]
    simp [hfind, hr, hnode]

/-- **`ext2_readdir`** takes the records that are not deleted by their number. -/
theorem ext2Readdir_eq (h : WellFormed fs dir records) (hrounds : fs.blockSize.toNat < rounds)
    (index : Word) (mem : ℕ → Byte) : ext2Readdir fs rounds dir index mem =
      some ((records.filter DirEntry.live)[index.toNat]?.map (direntStore mem)) := by
  obtain ⟨inode, hinode⟩ := ext2ReadInode_some h.groups h.blockSize.1 dir
  obtain ⟨lists, hflat, hlists⟩ := h.tiles inode hinode
  have hlen := h.length_live
  obtain ⟨last, hscan⟩ := @readInBlocks_eq _ index _ _ _ hrounds 0#32 hlists
    (Nat.zero_le _) (by rw [hflat]; simpa using hlen)
  rw [hflat, show index.toNat - (0#32).toNat = index.toNat from rfl] at hscan
  rw [ext2Readdir, hinode]
  simp only [Option.bind_eq_bind, Option.bind_some, hscan]
  cases (records.filter DirEntry.live)[index.toNat]? <;> rfl

end WellFormed

end Directory

/-! ## What is in the dirent -/

section Dirent

variable {mem : ℕ → Byte} {r : DirEntry} {name name' : CString} {ino ino' : Word} {i : ℕ}

/-- `ino` is stored last. -/
theorem direntStore_ino (mem : ℕ → Byte) (r : DirEntry) (hlo : 128 ≤ i) (hhi : i < 132) :
    direntStore mem r i = (r.inode >>> (8 * (i - 128))).setWidth 8 := if_pos ⟨hlo, hhi⟩

/-- A word is put together from its bytes. -/
theorem append_bytes (x : Word) :
    ((((x >>> 24).setWidth 8 : Byte) ++ ((x >>> 16).setWidth 8 : Byte)) : BitVec 16) ++
    ((((x >>> 8).setWidth 8 : Byte) ++ ((x >>> 0).setWidth 8 : Byte)) : BitVec 16) = x := by
  apply BitVec.eq_of_getLsbD_eq
  intro j hj
  simp only [BitVec.getLsbD_append, BitVec.getLsbD_setWidth, BitVec.getLsbD_ushiftRight]
  by_cases h8 : j < 8
  · simp [h8]
    omega
  by_cases h16 : j < 16
  · simp [h8, h16, show j - 8 < 8 by omega, show 8 + (j - 8) = j by omega]
  by_cases h24 : j < 24
  · simp [h16, show j - 16 < 8 by omega, show 16 + (j - 16) = j by omega]
  · simp [h16, show ¬j - 16 < 8 by omega, show j - 16 - 8 < 8 by omega, show 24 + (j - 16 - 8) = j by omega]

theorem le32_direntStore (mem : ℕ → Byte) (r : DirEntry) : le32 (direntStore mem r) 128 = r.inode := by
  have h0 := direntStore_ino (i := 128) mem r (by decide) (by decide)
  have h1 := direntStore_ino (i := 129) mem r (by decide) (by decide)
  have h2 := direntStore_ino (i := 130) mem r (by decide) (by decide)
  have h3 := direntStore_ino (i := 131) mem r (by decide) (by decide)
  rw [le32, le16, le16, h0, h1, h2, h3]
  exact append_bytes r.inode

/-- The characters that `ino` is stored over are its bytes, if the name reaches there. -/
def ReadsBack (r : DirEntry) : Prop :=
  ∀ i, 128 ≤ i → i < 132 → i ≤ r.name.length →
    r.name.getD i 0#8 = (r.inode >>> (8 * (i - 128))).setWidth 8

theorem readsBack_of_length (h : r.name.length ≤ 127) : ReadsBack r := fun i hlo _ hi => by omega

/-- A name that reads back does so. -/
theorem ReadsBack.direntIs (h : ReadsBack r) (hname : ∀ c ∈ r.name, c ≠ 0#8) (mem : ℕ → Byte) :
    DirentIs (direntStore mem r) (CString.ofBytes r.name) r.inode := by
  refine ⟨fun i hi => ?_, le32_direntStore mem r⟩
  rw [CString.ofBytes_chars hname] at hi ⊢
  by_cases hino : 128 ≤ i ∧ i < 132
  · rw [direntStore_ino mem r hino.1 hino.2, h i hino.1 hino.2 hi]
  · rw [direntStore, if_neg hino, if_pos hi]

/-- The string that starts at a place. -/
theorem DirentIs.unique (h : DirentIs mem name ino) (h' : DirentIs mem name' ino') :
    name = name' ∧ ino = ino' := by
  have hle {n n' : CString} (hn : ∀ i ≤ n.chars.length, mem i = n.chars.getD i 0#8)
      (hn' : ∀ i ≤ n'.chars.length, mem i = n'.chars.getD i 0#8) : n'.chars.length ≤ n.chars.length := by
    by_contra hlt
    have hzero := hn n.chars.length le_rfl
    have hchar := hn' n.chars.length (by omega)
    rw [List.getD_eq_default _ _ le_rfl] at hzero
    rw [hzero, List.getD_eq_getElem _ _ (by omega)] at hchar
    exact n'.noNul _ (List.getElem_mem _) hchar.symm
  have hlen := le_antisymm (hle h'.name h.name) (hle h.name h'.name)
  refine ⟨?_, h.ino.symm.trans h'.ino⟩
  have hchars : name.chars = name'.chars := by
    refine List.ext_getElem hlen fun i hi hi' => ?_
    rw [← List.getD_eq_getElem _ 0#8 hi, ← List.getD_eq_getElem _ 0#8 hi', ← h.name i hi.le,
      h'.name i hi'.le]
  cases name
  cases name'
  simpa using hchars

end Dirent

/-! ## Agreement -/

/-- Listing and lookup agree, and neither returns a deleted entry. -/
structure Agree (fs : Ext2Fs) (rounds : ℕ) (dir : Word) (mem : ℕ → Byte) : Prop where
  listed : ∀ name k, (∃ node, ext2Finddir fs rounds dir name = some (some node) ∧ node.inode = k) ↔
    ∃ index mem', ext2Readdir fs rounds dir index mem = some (some mem') ∧ DirentIs mem' name k
  found : ∀ name node, ext2Finddir fs rounds dir name = some (some node) → node.inode ≠ 0#32
  read : ∀ index mem', ext2Readdir fs rounds dir index mem = some (some mem') → le32 mem' 128 ≠ 0#32

/-- Each deleted record comes after one with the same name. -/
def NoneShadowed (records : List DirEntry) : Prop :=
  ∀ pre r post, records = pre ++ r :: post → r.inode = 0#32 →
    ∃ q ∈ pre, CString.ofBytes q.name = CString.ofBytes r.name

section Agreement

variable {fs : Ext2Fs} {dir index k : Word} {rounds : ℕ} {records : List DirEntry} {name : CString}
  {mem mem' : ℕ → Byte} {r q : DirEntry} {node : VfsNode}

theorem live_iff : r.live ↔ r.inode ≠ 0#32 := decide_eq_true_iff

/-- The first record with a name is not a deleted one. -/
theorem NoneShadowed.live (h : NoneShadowed records)
    (hfind : records.find? (DirEntry.named name) = some r) : r.live := by
  obtain ⟨hname, pre, post, hsplit, hpre⟩ := List.find?_eq_some_iff_append.mp hfind
  rw [live_iff]
  intro hdead
  obtain ⟨q, hq, hqname⟩ := h pre r post hsplit hdead
  have hnot := hpre q hq
  rw [DirEntry.named, hqname] at hnot
  rw [DirEntry.named] at hname
  rw [hname] at hnot
  cases hnot

namespace WellFormed

theorem ofBytes_chars (h : WellFormed fs dir records) (hr : r ∈ records) (hlive : r.live) :
    (CString.ofBytes r.name).chars = r.name := CString.ofBytes_chars (h.names r hr hlive).2

/-- Records that are not deleted are told apart by their names. -/
theorem eq_of_named (h : WellFormed fs dir records) (hr : r ∈ records) (hrlive : r.live) (hq : q ∈ records)
    (hqlive : q.live) (hname : CString.ofBytes q.name = CString.ofBytes r.name) : q = r := by
  have hbytes := congrArg CString.chars hname
  rw [h.ofBytes_chars hr hrlive, h.ofBytes_chars hq hqlive] at hbytes
  exact List.inj_on_of_nodup_map h.unique (List.mem_filter.mpr ⟨hq, hqlive⟩)
    (List.mem_filter.mpr ⟨hr, hrlive⟩) hbytes

/-- A node that is found is that of the first record with the name. -/
theorem found_iff (h : WellFormed fs dir records) (hrounds : fs.blockSize.toNat < rounds) (name : CString)
    (k : Word) : (∃ node, ext2Finddir fs rounds dir name = some (some node) ∧ node.inode = k) ↔
      ∃ r, records.find? (DirEntry.named name) = some r ∧ r.inode = k := by
  have heq := h.ext2Finddir_eq hrounds name
  cases hfind : records.find? (DirEntry.named name) with
  | none =>
    rw [hfind] at heq
    dsimp only at heq
    rw [heq]
    simp
  | some r =>
    rw [hfind] at heq
    obtain ⟨node, hnode, hino⟩ := heq
    rw [hnode]
    simp [hino]

/-- A dirent is that of a record that is not deleted. -/
theorem read_iff (h : WellFormed fs dir records) (hrounds : fs.blockSize.toNat < rounds)
    (mem mem' : ℕ → Byte) :
    (∃ index, ext2Readdir fs rounds dir index mem = some (some mem')) ↔
      ∃ r ∈ records, r.live ∧ direntStore mem r = mem' := by
  constructor
  · rintro ⟨index, hread⟩
    rw [h.ext2Readdir_eq hrounds] at hread
    obtain ⟨r, hget, hstore⟩ := Option.map_eq_some_iff.mp (Option.some.inj hread)
    obtain ⟨hr, hlive⟩ := List.mem_filter.mp (List.mem_of_getElem? hget)
    exact ⟨r, hr, hlive, hstore⟩
  · rintro ⟨r, hr, hlive, hstore⟩
    obtain ⟨i, hi, hget⟩ := List.getElem_of_mem (List.mem_filter.mpr ⟨hr, hlive⟩)
    refine ⟨BitVec.ofNat 32 i, ?_⟩
    rw [h.ext2Readdir_eq hrounds, BitVec.toNat_ofNat, Nat.mod_eq_of_lt (hi.trans h.length_live),
      List.getElem?_eq_getElem hi, hget, ← hstore]
    rfl

/-- A record that is found by its name, if it is not deleted. -/
theorem find_live (h : WellFormed fs dir records) (hr : r ∈ records) (hlive : r.live)
    (hfirst : ∀ q, records.find? (DirEntry.named (CString.ofBytes r.name)) = some q → q.live) :
    records.find? (DirEntry.named (CString.ofBytes r.name)) = some r := by
  cases hfind : records.find? (DirEntry.named (CString.ofBytes r.name)) with
  | none =>
    have hnot := List.find?_eq_none.mp hfind r hr
    exact absurd (named_eq.mpr rfl) hnot
  | some q =>
    have hname : CString.ofBytes q.name = CString.ofBytes r.name := named_eq.mp (List.find?_some hfind)
    rw [h.eq_of_named hr hlive (List.mem_of_find?_eq_some hfind) (hfirst q hfind) hname]

end WellFormed

end Agreement

/-- **Listing and lookup** return, and they agree exactly if each deleted record comes after one with the
same name and each name that is not deleted comes out of `ext2_readdir` as it is, as those of at most 127
characters do. -/
theorem listing_agrees {fs : Ext2Fs} {dir : Word} {records : List DirEntry} {rounds : ℕ}
    (h : WellFormed fs dir records) (hrounds : fs.blockSize.toNat < rounds) (mem : ℕ → Byte) :
    ((∀ name, ∃ o, ext2Finddir fs rounds dir name = some o) ∧
      ∀ index, ∃ o, ext2Readdir fs rounds dir index mem = some o) ∧
    (Agree fs rounds dir mem ↔
      NoneShadowed records ∧ ∀ r ∈ records, r.inode ≠ 0#32 → ReadsBack r) := by
  refine ⟨⟨fun name => ?_, fun index => ⟨_, h.ext2Readdir_eq hrounds index mem⟩⟩, fun hagree => ?_, ?_⟩
  · have heq := h.ext2Finddir_eq hrounds name
    cases hfind : records.find? (DirEntry.named name) with
    | none => exact ⟨none, by rwa [hfind] at heq⟩
    | some r =>
      rw [hfind] at heq
      exact ⟨_, heq.choose_spec.1⟩
  · -- whatever is found is live
    have hfirst (name : CString) (q : DirEntry) (hfind : records.find? (DirEntry.named name) = some q) :
        q.live := by
      obtain ⟨node, hnode, hino⟩ := (h.found_iff hrounds name q.inode).mpr ⟨q, hfind, rfl⟩
      exact live_iff.mpr (hino ▸ hagree.found name node hnode)
    refine ⟨fun pre r post hsplit hdead => ?_, fun r hr hlive i hlo hhi hi => ?_⟩
    · -- a deleted record that is the first of its name would be found
      by_contra hnone
      push Not at hnone
      have hfind : records.find? (DirEntry.named (CString.ofBytes r.name)) = some r := by
        rw [hsplit, List.find?_append, List.find?_eq_none.mpr fun q hq => ?_, Option.none_or,
          List.find?_cons_of_pos (named_eq.mpr rfl)]
        exact fun hname => hnone q hq (named_eq.mp hname)
      exact live_iff.mp (hfirst _ r hfind) hdead
    · -- the record is found, so it is listed under its name and with its inode
      have hfind := h.find_live hr (live_iff.mpr hlive) (hfirst _)
      obtain ⟨index, mem', hread, hdirent⟩ := (hagree.listed (CString.ofBytes r.name) r.inode).mp
        ((h.found_iff hrounds _ _).mpr ⟨r, hfind, rfl⟩)
      obtain ⟨q, -, -, hstore⟩ := (h.read_iff hrounds mem mem').mp ⟨index, hread⟩
      have hino : q.inode = r.inode := by
        rw [← hdirent.ino, ← hstore, le32_direntStore]
      have hchars := h.ofBytes_chars hr (live_iff.mpr hlive)
      have hbyte := hdirent.name i (by rwa [hchars])
      rw [hchars, ← hstore, direntStore_ino mem q hlo hhi, hino] at hbyte
      exact hbyte.symm
  · rintro ⟨hshadow, hback⟩
    -- the three parts of the agreement, of which the first goes both ways
    refine ⟨fun name k => ?_, fun name node hnode => ?_, fun index mem' hread => ?_⟩
    · rw [h.found_iff hrounds]
      constructor
      · rintro ⟨r, hfind, rfl⟩
        have hr := List.mem_of_find?_eq_some hfind
        have hlive := hshadow.live hfind
        have hname : CString.ofBytes r.name = name := named_eq.mp (List.find?_some hfind)
        obtain ⟨index, hread⟩ := (h.read_iff hrounds mem _).mpr ⟨r, hr, hlive, rfl⟩
        have hdirent := (hback r hr (live_iff.mp hlive)).direntIs (h.names r hr hlive).2 mem
        exact ⟨index, _, hread, hname ▸ hdirent⟩
      · rintro ⟨index, mem', hread, hdirent⟩
        obtain ⟨r, hr, hlive, rfl⟩ := (h.read_iff hrounds mem mem').mp ⟨index, hread⟩
        obtain ⟨rfl, rfl⟩ :=
          hdirent.unique ((hback r hr (live_iff.mp hlive)).direntIs (h.names r hr hlive).2 mem)
        exact ⟨r, h.find_live hr hlive fun q => hshadow.live, rfl⟩
    · obtain ⟨r, hfind, hino⟩ := (h.found_iff hrounds name node.inode).mp ⟨node, hnode, rfl⟩
      exact hino ▸ live_iff.mp (hshadow.live hfind)
    · obtain ⟨r, -, hlive, rfl⟩ := (h.read_iff hrounds mem mem').mp ⟨index, hread⟩
      rw [le32_direntStore]
      exact live_iff.mp hlive

/-! ## Small directories -/

/-- A device whose root directory, inode 2, is these bytes, in block 9. -/
def tinyFs (bytes : List Byte) : Ext2Fs where
  dev i := if i = 5288 then 9#8 else if 9216 ≤ i then bytes.getD (i - 9216) 0#8 else 0#8
  inodesPerGroup := 8#32
  inodeSize := 128#16
  blockSize := 1024#32
  bgInodeTable _ := 5#32
  behind _ := 0#8

/-- `a`, and a deleted entry of the same name. -/
def recreated : List Byte :=
  [12#8, 0#8, 0#8, 0#8, 12#8, 0#8, 1#8, 1#8, 0x61#8, 0#8, 0#8, 0#8,
    0#8, 0#8, 0#8, 0#8, 0xF4#8, 0x03#8, 1#8, 1#8, 0x61#8]

/-- A deleted entry. -/
def deleted : List Byte := [0#8, 0#8, 0#8, 0#8, 0x00#8, 0x04#8, 1#8, 1#8, 0x61#8]

/-- A root directory of the one block 9, with these records. -/
theorem wellFormed_tinyFs {bytes : List Byte} {records : List DirEntry}
    (hblocks : (ext2ReadInode (tinyFs bytes) 2#32).map Inode.dirBlocks = some [9#32])
    (htiles : Tiles (ext2ReadBlock (tinyFs bytes) 9#32) 1024 0 records)
    (hnames : ∀ r ∈ records, r.live → r.name ≠ [] ∧ ∀ c ∈ r.name, c ≠ 0#8)
    (hunique : ((records.filter DirEntry.live).map DirEntry.name).Nodup) :
    WellFormed (tinyFs bytes) 2#32 records := by
  refine ⟨show 8#32 ≠ 0#32 by decide, show 0 < 1024 ∧ 1024 ≤ 2 ^ 31 by decide,
    fun inode hinode => ⟨[records], List.flatten_singleton, ?_⟩, hnames, hunique⟩
  rw [hinode] at hblocks
  rw [Option.some.inj hblocks]
  exact .cons htiles .nil

theorem wellFormed_recreated :
    WellFormed (tinyFs recreated) 2#32 [⟨12#32, 12#16, [0x61#8]⟩, ⟨0#32, 1012#16, [0x61#8]⟩] :=
  wellFormed_tinyFs (by decide +kernel)
    (.record (by decide +kernel) (by decide) (by decide)
      (.record (by decide +kernel) (by decide) (by decide) .nil)) (by decide) (by decide)

theorem wellFormed_deleted : WellFormed (tinyFs deleted) 2#32 [⟨0#32, 1024#16, [0x61#8]⟩] :=
  wellFormed_tinyFs (by decide +kernel) (.record (by decide +kernel) (by decide) (by decide) .nil)
    (by decide) (by decide)

theorem listing_agrees_recreated : Agree (tinyFs recreated) 1025 2#32 fun _ => 0#8 := by
  refine (listing_agrees wellFormed_recreated (by decide) fun _ => 0#8).2.mpr ⟨?_, ?_⟩
  · intro pre r post hsplit hdead
    cases pre with
    | nil =>
      obtain ⟨rfl, -⟩ := List.cons.inj hsplit
      cases hdead
    | cons q pre =>
      obtain ⟨rfl, htail⟩ := List.cons.inj hsplit
      have hr : r ∈ [(⟨0#32, 1012#16, [0x61#8]⟩ : DirEntry)] := by
        rw [htail]
        exact List.mem_append_right _ List.mem_cons_self
      rw [List.mem_singleton.mp hr]
      exact ⟨_, List.mem_cons_self, rfl⟩
  · exact fun r hr _ => readsBack_of_length ((by decide : ∀ r ∈ [(⟨12#32, 12#16, [0x61#8]⟩ : DirEntry),
      ⟨0#32, 1012#16, [0x61#8]⟩], r.name.length ≤ 127) r hr)

/-- `ext2_finddir` returns the deleted entry. -/
theorem deleted_found : ∃ records, WellFormed (tinyFs deleted) 2#32 records ∧
    ¬Agree (tinyFs deleted) 1025 2#32 fun _ => 0#8 := by
  refine ⟨_, wellFormed_deleted, fun hagree => ?_⟩
  have hrounds : (tinyFs deleted).blockSize.toNat < 1025 := by decide
  obtain ⟨node, hnode, hino⟩ := (wellFormed_deleted.found_iff hrounds ⟨[0x61#8], by decide⟩
    0#32).mpr ⟨⟨0#32, 1024#16, [0x61#8]⟩, by decide, rfl⟩
  exact hagree.found _ node hnode hino

end PekerOS.Ext2
