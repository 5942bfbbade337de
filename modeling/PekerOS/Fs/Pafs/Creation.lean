import PekerOS.Fs.Pafs.Files
import PekerOS.Fs.Pafs.Runs

/-!
# PAFS: what a creation adds

`pafs_create` claims a free inode before it inserts the entry and gives it back when the insertion
fails. Whether the parent is a directory is checked by the insertion only, after the new inode has
its type: a new directory whose parent is the very inode being claimed passes that check and becomes
its own entry.

## Main definitions

* `contents fs ino`: the bytes of a file, each from the block that holds it
* `Untouched j fs fs'`: inode `j` and its blocks are as they were
* `Appended fs fs' parentIno name isDir new`: one inode and one entry more
* `SelfParent fs parentIno isDir`: the parent is the free inode that becomes the new directory

## Main results

* `Created.untouched`, `Created.dirEntries`: what is left alone, and the entries of the parent
* `create_atomic_iff`: **creation is atomic and adds one entry unless a directory is its own parent**
-/

namespace PekerOS.Pafs

/-- Byte `p` of the file for every `p` below its size, `none` where it has no block. -/
def contents (fs : State) (ino : ℕ) : List (Option Byte) :=
  (List.range (fs.inode ino).size.toNat).map fun p =>
    if fs.block ino (p / 512) = 0#32 then none else some (byteAt fs ino p)

/-- Inode `j` and its blocks are as they were. -/
structure Untouched (j : ℕ) (fs fs' : State) : Prop where
  inode : fs'.inode j = fs.inode j
  data : ∀ s, fs.block j s ≠ 0#32 →
    fs'.disk (fs.block j s).toNat = fs.disk (fs.block j s).toNat

/-- One inode and one entry more. -/
structure Appended (fs fs' : State) (parentIno : ℕ) (name : CString) (isDir : Bool) (new : ℕ) :
    Prop where
  pos : 1 ≤ new
  wasFree : (fs.inode new).type = pafsTypeFree
  counter : fs'.sb.freeInodes.toNat + 1 = fs.sb.freeInodes.toNat
  inode : fs'.inode new = ⟨if isDir then pafsTypeDir else pafsTypeFile, 0#32, default⟩
  entries : dirEntries fs' parentIno =
    dirEntries fs parentIno ++ [(BitVec.ofNat 32 new, name.chars.take 27)]
  inodes : ∀ j, j ≠ new → j ≠ parentIno → fs'.inode j = fs.inode j
  directories : ∀ d, d ≠ parentIno → dirEntries fs' d = dirEntries fs d
  files : ∀ j, (fs.inode j).type = pafsTypeFile →
    fs'.inode j = fs.inode j ∧ contents fs' j = contents fs j

/-- `pafs_create` fails without a change or adds one inode and one entry. -/
def CreatesAtomically (k : Kernel) (parentIno : ℕ) (name : CString) (isDir : Bool) : Prop :=
  ((pafsCreate k parentIno name isDir).2 = -1 ∧ (pafsCreate k parentIno name isDir).1.fs = k.fs) ∨
    ∃ new : ℕ, (pafsCreate k parentIno name isDir).2 = new ∧
      Appended k.fs (pafsCreate k parentIno name isDir).1.fs parentIno name isDir new

/-- The parent is the free inode that becomes the new directory, and there is a block for it. -/
def SelfParent (fs : State) (parentIno : ℕ) (isDir : Bool) : Prop :=
  isDir = true ∧ fs.sb.freeInodes ≠ 0#32 ∧ findFreeInode fs = some parentIno ∧
    findFreeBlock fs ≠ none

/-! ## What is left alone -/

namespace Untouched

variable {j : ℕ} {fs fs₁ fs₂ : State}

theorem trans (h : Untouched j fs fs₁) (h' : Untouched j fs₁ fs₂) : Untouched j fs fs₂ where
  inode := h'.inode.trans h.inode
  data s hs := by
    have hblock : fs₁.block j s = fs.block j s := by rw [State.block, h.inode, State.block]
    have hdata := h'.data s (hblock ▸ hs)
    rw [hblock] at hdata
    exact hdata.trans (h.data s hs)

theorem of_sameData (h : Inv fs) (hs : State.SameData fs fs₁) (j : ℕ) : Untouched j fs fs₁ :=
  ⟨hs.inode j, fun _ hb => hs.data _ (h.data hb)⟩

theorem of_onlyFile {ino : ℕ} (ho : OnlyFile ino fs fs₁) (hj : j ≠ ino) : Untouched j fs fs₁ :=
  ⟨ho.inode j hj, ho.data j hj⟩

theorem contents (h : Untouched j fs fs₁) : contents fs₁ j = contents fs j := by
  have hblock : ∀ s, fs₁.block j s = fs.block j s := fun s => by rw [State.block, h.inode, State.block]
  rw [Pafs.contents, h.inode]
  apply List.map_congr_left
  intro p hp
  by_cases hs : fs.block j (p / 512) = 0#32
  · rw [hblock, if_pos hs, if_pos hs]
  · rw [hblock, if_neg hs, if_neg hs, byteAt, hblock, h.data _ hs, byteAt]

end Untouched

/-- A directory in which slot `n` is filled lists one entry more at its end. -/
theorem dirEntries_append {fs fs' : State} {d n : ℕ} {e : ℕ × List Byte} (hn : n < 14 * 16)
    (hlast : ∀ s, n ≤ s → fs.dirent (d, s) = none)
    (hentry : ∀ s, fs'.dirent (d, s) = if s = n then some e else fs.dirent (d, s)) :
    dirEntries fs' d = dirEntries fs d ++ [(BitVec.ofNat 32 e.1, e.2)] := by
  -- the slots before `n`, slot `n`, and the empty ones behind it
  have hsplit : List.range (14 * 16) =
      List.range n ++ (n :: List.range' (n + 1) (14 * 16 - (n + 1))) := by
    have happend := @List.range'_append_1 0 n (14 * 16 - (n + 1) + 1)
    rw [show n + (14 * 16 - (n + 1) + 1) = 14 * 16 by omega, Nat.zero_add, List.range'_succ,
      ← List.range_eq_range', ← List.range_eq_range'] at happend
    exact happend.symm
  have hrest : ∀ s ∈ List.range' (n + 1) (14 * 16 - (n + 1)), n < s := fun s hs => by
    have := List.mem_range'_1.mp hs
    omega
  have hold : (List.range n).filterMap
        (fun s => (fs'.dirent (d, s)).map fun e => (BitVec.ofNat 32 e.1, e.2)) =
      (List.range n).filterMap fun s => (fs.dirent (d, s)).map fun e => (BitVec.ofNat 32 e.1, e.2) := by
    refine List.filterMap_congr fun s hs => ?_
    rw [hentry, if_neg (Nat.ne_of_lt (List.mem_range.mp hs))]
  rw [dirEntries_eq_filterMap, dirEntries_eq_filterMap, hsplit, List.filterMap_append,
    List.filterMap_append, hold, List.append_assoc]
  congr 1
  rw [List.filterMap_cons, List.filterMap_cons, hentry, if_pos rfl, hlast n le_rfl,
    List.filterMap_eq_nil_iff.mpr fun s hs => by
      rw [hentry, if_neg (Nat.ne_of_gt (hrest s hs)), hlast s (Nat.le_of_lt (hrest s hs))]
      rfl,
    List.filterMap_eq_nil_iff.mpr fun s hs => by
      rw [hlast s (Nat.le_of_lt (hrest s hs))]
      rfl]
  rfl

section Create

variable {fs fs' mid : State} {parentIno new n m : ℕ} {name : CString} {isDir : Bool}

/-- The block search sees the bitmap only. -/
theorem findFreeBlock_newInode (fs : State) (ino : ℕ) (isDir : Bool) :
    findFreeBlock (newInode fs ino isDir) = findFreeBlock fs := rfl

/-- A creation leaves every inode but the new one and the parent alone. -/
theorem Created.untouched (h : Inv fs) (hcr : Created fs parentIno name isDir new n m mid fs') {j : ℕ}
    (hnew : j ≠ new) (hparent : j ≠ parentIno) : Untouched j fs fs' := by
  have hfree := findFreeInode_free hcr.free
  have hpos := hcr.new_pos h
  have hmid : Untouched j fs mid := by
    rcases hcr.mid_eq with heq | ⟨m', b, -, -, -, hb, -, heq⟩
    · rw [heq]
      exact ⟨inode_newInode_ne fs hnew isDir, fun _ _ => rfl⟩
    · obtain ⟨-, hclear⟩ := mem_clearBits_of_findFreeBlock hb
      rw [heq]
      refine ⟨(inode_growDir_ne hparent).trans (inode_newInode_ne fs hnew isDir), fun s hs => ?_⟩
      exact disk_growDir_ne (h.data hs) (h.fresh hclear hs)
  -- the parent's block is no block of another inode
  have hput : Untouched j mid (putEntry mid parentIno n name new) := by
    refine ⟨inode_putEntry_ne name new hparent, fun s hs => ?_⟩
    exact disk_putEntry_ne name new hcr.parent_lt (hcr.inv.data hs)
      fun heq => hparent (hcr.inv.inj hs heq).1
  have hinv := (@Inv.put _ _ _ _ name _ hcr.inv hcr.dir hcr.layout hcr.room hpos hcr.new_lt).1
  rw [hcr.result]
  exact (hmid.trans hput).trans (Untouched.of_sameData hinv (State.SameData.saveInode hcr.new_lt) j)

/-- The entries of the parent: one more, at the end. -/
theorem Created.dirEntries (h : Inv fs) (hcr : Created fs parentIno name isDir new n m mid fs') :
    dirEntries fs' parentIno =
      dirEntries fs parentIno ++ [(BitVec.ofNat 32 new, name.chars.take 27)] := by
  have hroom := hcr.room
  have hcap := hcr.layout.cap
  refine dirEntries_append (e := (new, name.chars.take 27)) (n := n) (by omega) (fun s hs => ?_) fun s => ?_
  · rw [← hcr.dirent_mid h, hcr.layout.dirent_eq hcr.dir, if_neg (by omega)]
  · rw [hcr.dirent h]
    simp only [Prod.mk.injEq, true_and]

/-- The entries of the other directories stay. -/
theorem Created.dirEntries_ne (h : Inv fs) (hcr : Created fs parentIno name isDir new n m mid fs')
    {d : ℕ} (hd : d ≠ parentIno) : Pafs.dirEntries fs' d = Pafs.dirEntries fs d := by
  refine dirEntries_congr fun s => ?_
  rw [hcr.dirent h, if_neg fun heq => hd (Prod.mk.inj heq).1]

/-- The parent has an entry afterwards, so its size is not zero. -/
theorem Created.size_parent (hcr : Created fs parentIno name isDir new n m mid fs') :
    (fs'.inode parentIno).size ≠ 0#32 := by
  have hcap := hcr.layout.cap
  have hroom := hcr.room
  have hsize : (fs'.inode parentIno).size = (mid.inode parentIno).size + 32#32 := by
    rw [hcr.result, (State.SameData.saveInode hcr.new_lt).inode,
      inode_putEntry_self name new hcr.parent_lt]
  intro h0
  have hnat := congrArg BitVec.toNat (hsize.symm.trans h0)
  rw [BitVec.toNat_add, hcr.layout.size] at hnat
  simp only [BitVec.toNat_ofNat] at hnat
  omega

/-- The layout of a new directory is empty. -/
theorem layout_newInode (fs : State) (hlt : new < 128) (isDir : Bool) (disk : ℕ → Sector) :
    Layout disk ((newInode fs new isDir).inode new) 0 0 := by
  rw [inode_newInode_self fs hlt]
  exact Layout.empty rfl fun i _ => Table.get_default i

/-- A creation in the new inode itself needs the type of a directory and a first block. -/
theorem Created.selfParent (hcr : Created fs new name isDir new n m mid fs') :
    SelfParent fs new isDir := by
  have htype : ((newInode fs new isDir).inode new).type = pafsTypeDir := by
    rcases hcr.mid_eq with heq | ⟨m', b, -, -, -, -, -, heq⟩
    · exact heq ▸ hcr.dir
    · have hdir := hcr.dir
      rwa [heq, type_growDir hcr.parent_lt] at hdir
  have hisDir : isDir = true := by
    rw [inode_newInode_self fs hcr.new_lt] at htype
    cases isDir
    · exact absurd htype (by decide)
    · rfl
  refine ⟨hisDir, hcr.counter, hcr.free, ?_⟩
  rcases hcr.mid_eq with heq | ⟨m', b, -, -, -, hb, -, -⟩
  · -- without a new block there is no slot
    have hlayout := hcr.layout
    have hroom := hcr.room
    rw [heq] at hlayout
    have hm := (hlayout.unique (layout_newInode fs hcr.new_lt isDir fs.disk)).2
    omega
  · rw [findFreeBlock_newInode] at hb
    simp [hb]

/-- The new directory is found to be a directory and given its own name. -/
theorem SelfParent.creates (hs : SelfParent fs parentIno isDir) :
    ¬CreateFails fs parentIno name isDir := by
  obtain ⟨rfl, hcounter, hfree, hblock⟩ := hs
  have hlt := findFreeInode_lt hfree
  have htype := findFreeInode_free hfree
  rintro (h0 | hfound | hadd)
  · exact hcounter h0
  · exact hfound (pafsFindEntry_of_not_dir (by rw [htype]; decide))
  · refine hadd parentIno hfree ?_
    have hdir : ((newInode fs parentIno true).inode parentIno).type = pafsTypeDir := by
      rw [inode_newInode_self fs hlt]
      rfl
    obtain ⟨b, hb⟩ := Option.ne_none_iff_exists'.mp hblock
    rw [pafsAddEntry_eq hlt hdir (layout_newInode fs hlt true _), addEntryResult, if_neg (by omega),
      if_pos (by omega), findFreeBlock_newInode, hb]

/-- A creation below another inode adds one inode and one entry. -/
theorem Created.appended (h : Inv fs) (hcr : Created fs parentIno name isDir new n m mid fs')
    (hne : new ≠ parentIno) : Appended fs fs' parentIno name isDir new where
  pos := hcr.new_pos h
  wasFree := findFreeInode_free hcr.free
  counter := by
    have hpos : fs.sb.freeInodes.toNat ≠ 0 := fun h0 => hcr.counter (BitVec.eq_of_toNat_eq h0)
    rw [hcr.freeInodes_eq, BitVec.toNat_sub]
    simp only [BitVec.toNat_ofNat]
    have := fs.sb.freeInodes.isLt
    omega
  inode := hcr.inode_new hne
  entries := hcr.dirEntries h
  inodes j hnew hparent := (hcr.untouched h hnew hparent).inode
  directories d hd := hcr.dirEntries_ne h hd
  files j ht := by
    -- neither the free inode nor the parent is a file
    have hnew : j ≠ new := by
      rintro rfl
      rw [findFreeInode_free hcr.free] at ht
      exact absurd ht (by decide)
    have hparent := hcr.ne_parent ((hcr.type_ne hnew).trans ht)
    have hsame := hcr.untouched h hnew hparent
    exact ⟨hsame.inode, hsame.contents⟩

end Create

/-- **Creation is atomic and adds one entry, unless a directory is to be its own parent**: in every
reachable state, for every parent inode, name and kind, `pafs_create` changes nothing or adds exactly
one inode and one entry, if and only if it is not asked for a directory below the free inode that it is
about to claim, with a block to spare. -/
theorem create_atomic_iff (k₀ : Kernel) (ops : List Op) (parentIno : Fin 128) (name : CString)
    (isDir : Bool) :
    let k := run (pafsFormat k₀) ops
    CreatesAtomically k parentIno name isDir ↔ ¬SelfParent k.fs parentIno isDir := by
  intro k
  have h : Inv k.fs := Reachable.inv ⟨k₀, ops, rfl⟩
  have hcases := pafsCreate_cases h parentIno.isLt name isDir
  constructor
  · intro hatomic hself
    rcases hcases with ⟨hfail, -⟩ | ⟨new, n, m, mid, hnew, hcr⟩
    · exact hself.creates ((pafsCreate_eq_neg_one_iff k parentIno name isDir).mp hfail)
    · -- the new inode is the parent, and it has an entry
      obtain rfl : (parentIno : ℕ) = new := Option.some.inj (hself.2.2.1.symm.trans hcr.free)
      rcases hatomic with ⟨hfail, -⟩ | ⟨new', hnew', happ⟩
      · omega
      · obtain rfl : (parentIno : ℕ) = new' := by omega
        exact hcr.size_parent (congrArg Inode.size happ.inode)
  · intro hself
    rcases hcases with hfail | ⟨new, n, m, mid, hnew, hcr⟩
    · exact Or.inl hfail
    · refine Or.inr ⟨new, hnew, hcr.appended h ?_⟩
      rintro rfl
      exact hself hcr.selfParent

/-- A directory created in a fresh RAM disk below inode 1, which is free, becomes its own entry. -/
theorem create_in_itself :
    let name : CString := ⟨[97#8], by decide⟩
    let k := run (pafsFormat ramdiskKernel) []
    let parentIno : Fin 128 := 1
    (pafsCreate k parentIno name true).2 = 1 ∧
      ((pafsCreate k parentIno name true).1.fs.inode 1).size = 32#32 ∧
      ¬CreatesAtomically k parentIno name true := by
  intro name k parentIno
  have hres : (pafsCreate k parentIno name true).2 = 1 := by decide +kernel
  have hsize : ((pafsCreate k parentIno name true).1.fs.inode 1).size = 32#32 := by decide +kernel
  refine ⟨hres, hsize, ?_⟩
  rintro (⟨hfail, -⟩ | ⟨new, hnew, happ⟩)
  · rw [hres] at hfail
    exact absurd hfail (by decide)
  · obtain rfl : new = 1 := by
      rw [hres] at hnew
      omega
    have hzero := congrArg Inode.size happ.inode
    rw [hsize] at hzero
    exact absurd hzero (by decide)

end PekerOS.Pafs
