import PekerOS.Lib.Run
import PekerOS.Fs.Pafs.Format
import PekerOS.Fs.Pafs.Ops

/-!
# PAFS: what each operation can do

One theorem per operation says every way it can end and the state it leaves: a failed call leaves
the state as it was, a successful `pafs_create` fills the slot after the last entry of the parent, a
successful `pafs_delete` releases the inode and removes the entry, and the two writing operations
change one file. The invariant, and later every other property of runs, follows from these.

## Main definitions

* `Created`, `Deleted`: the state after a successful call

## Main results

* `pafsCreate_cases`, `pafsDelete_cases`, `pafsWrite_cases`: the outcomes of a call
* `pafsCreate_keeps`, `pafsDelete_keeps`, `pafsVfsWrite_keeps`: the rules a run's invariants use
* `Inv.step`, `Reachable.inv`: the invariant holds in every reachable state
-/

namespace PekerOS.Pafs

namespace Kernel

variable (k : Kernel)

@[simp] theorem fs_lock : k.lock.fs = k.fs := rfl
@[simp] theorem fs_unlock : k.unlock.fs = k.fs := rfl
@[simp] theorem fs_touch : k.touch.fs = k.fs := rfl
@[simp] theorem fs_setFs (fs : State) : (k.setFs fs).fs = fs := rfl
@[simp] theorem fs_kmallocSection : k.kmallocSection.fs = k.fs := rfl

@[simp] theorem fs_touchDisk : k.touchDisk.fs = k.fs := by
  unfold touchDisk
  split <;> rfl

end Kernel

/-! ## Lookup -/

/-- A lookup that finds inode `ino` in slot `t` of the directory's `n` entries. -/
structure Found (fs : State) (parentIno : ℕ) (name : CString) (ino t n m : ℕ) : Prop where
  dir : (fs.inode parentIno).type = pafsTypeDir
  layout : Layout fs.disk (fs.inode parentIno) n m
  lt : t < n
  slot : findSlot fs (fs.inode parentIno) name = some (t / 16, t % 16)
  target : (slotInode fs.disk (fs.inode parentIno) t).toNat = ino
  named : slotName fs.disk (fs.inode parentIno) t = name.chars
  first : ∀ s < t, slotName fs.disk (fs.inode parentIno) s ≠ name.chars

/-- **The outcomes of a lookup** in any inode. -/
theorem Inv.findEntry_cases {fs : State} (h : Inv fs) (parentIno : ℕ) (name : CString) :
    pafsFindEntry fs parentIno name = -1 ∨ ∃ ino t n m,
      pafsFindEntry fs parentIno name = (ino : ℕ) ∧ Found fs parentIno name ino t n m := by
  by_cases ht : (fs.inode parentIno).type = pafsTypeDir
  · obtain ⟨n, m, hl⟩ := h.dirs parentIno ht
    rcases @pafsFindEntry_cases _ name _ _ _ ht hl with
      ⟨hnone, -⟩ | ⟨t, htn, hslot, hfind, hname, hfirst⟩
    · exact Or.inl hnone
    · exact Or.inr ⟨_, t, n, m, hfind, ht, hl, htn, hslot, rfl, hname, hfirst⟩
  · exact Or.inl (pafsFindEntry_of_not_dir ht)

namespace Found

variable {fs : State} {parentIno : ℕ} {name : CString} {ino t n m : ℕ}

theorem parent_lt (hf : Found fs parentIno name ino t n m) : parentIno < 128 :=
  State.lt_of_type_ne (by rw [hf.dir]; decide)

theorem ino_lt (hf : Found fs parentIno name ino t n m) : ino < 128 :=
  hf.target ▸ hf.layout.range t hf.lt

theorem ino_ne_zero (hf : Found fs parentIno name ino t n m) : ino ≠ 0 := by
  have hne := (hf.layout.occupied t (lt_of_lt_of_le hf.lt hf.layout.le)).mpr hf.lt
  exact fun h0 => hne (BitVec.eq_of_toNat_eq (hf.target.trans h0))

/-- The parent has an entry, so it is not an empty directory. -/
theorem ino_ne_parent (hf : Found fs parentIno name ino t n m)
    (hempty : (fs.inode ino).type = pafsTypeDir → (fs.inode ino).size = 0#32) :
    ino ≠ parentIno := by
  rintro rfl
  have := hf.layout.size_eq_zero.mp (hempty hf.dir)
  have := hf.lt
  omega

end Found

theorem pafsIsDirEmpty_eq_false {fs : State} {ino : ℕ} :
    ((fs.inode ino).type = pafsTypeDir ∧ pafsIsDirEmpty fs ino = false) ↔
      ((fs.inode ino).type = pafsTypeDir ∧ (fs.inode ino).size ≠ 0#32) := by
  simp only [pafsIsDirEmpty]
  constructor
  · rintro ⟨ht, h⟩
    exact ⟨ht, by simpa [ht] using h⟩
  · rintro ⟨ht, h⟩
    exact ⟨ht, by simpa [ht] using h⟩

/-! ## Creation -/

/-- Why `pafs_create` fails: no inode, a name that is there already, or no room for the entry. -/
def CreateFails (fs : State) (parentIno : ℕ) (name : CString) (isDir : Bool) : Prop :=
  fs.sb.freeInodes = 0#32 ∨ pafsFindEntry fs parentIno name ≠ -1 ∨
    ∀ new, findFreeInode fs = some new →
      (pafsAddEntry (newInode fs new isDir) parentIno name new).2 ≠ 0

theorem pafsCreate_eq_neg_one_iff (k : Kernel) (parentIno : ℕ) (name : CString) (isDir : Bool) :
    (pafsCreate k parentIno name isDir).2 = -1 ↔ CreateFails k.fs parentIno name isDir := by
  simp only [pafsCreate, CreateFails, Kernel.fs_touch, Kernel.fs_lock, Kernel.fs_touchDisk]
  by_cases hc : k.fs.sb.freeInodes = 0#32
  · simp [hc]
  by_cases ha : pafsFindEntry k.fs parentIno name ≠ -1
  · simp [hc, ha]
  rw [if_neg hc, if_neg ha]
  cases hf : findFreeInode k.fs with
  | none => simp
  | some new =>
    simp only [hc, ha, false_or, Option.some.injEq, forall_eq']
    by_cases hres : (pafsAddEntry (newInode k.fs new isDir) parentIno name new).2 = 0
    · rw [if_pos hres]
      simp only [hres, ne_eq, not_true_eq_false, iff_false]
      omega
    · rw [if_neg hres]
      simp [hres]

/-- A successful `pafs_create`: inode `new` is taken and slot `n` of the parent filled, in the
state `mid` in which the parent has `m` blocks. -/
structure Created (fs : State) (parentIno : ℕ) (name : CString) (isDir : Bool) (new n m : ℕ)
    (mid fs' : State) : Prop where
  counter : fs.sb.freeInodes ≠ 0#32
  absent : pafsFindEntry fs parentIno name = -1
  free : findFreeInode fs = some new
  mid_eq : mid = newInode fs new isDir ∨ ∃ m' b, m = m' + 1 ∧ n = 16 * m' ∧ m' < 14 ∧
    findFreeBlock (newInode fs new isDir) = some b ∧
    Layout (newInode fs new isDir).disk ((newInode fs new isDir).inode parentIno) n m' ∧
    mid = growDir (newInode fs new isDir) parentIno m' b
  dir : (mid.inode parentIno).type = pafsTypeDir
  inv : Inv mid
  layout : Layout mid.disk (mid.inode parentIno) n m
  room : n < 16 * m
  result : fs' = pafsSaveInode (putEntry mid parentIno n name new) new

section Create

variable {fs : State} {parentIno new : ℕ} {name : CString} {isDir : Bool}

theorem findFreeInode_lt (hf : findFreeInode fs = some new) : new < 128 :=
  (findFreeInode_some.mp hf).1.1

theorem findFreeInode_free (hf : findFreeInode fs = some new) :
    (fs.inode new).type = pafsTypeFree :=
  (findFreeInode_some.mp hf).1.2

/-- Undoing the new inode gives the state back. -/
theorem undo_newInode (h : Inv fs) (hf : findFreeInode fs = some new) :
    (let fs₁ := newInode fs new isDir
     let fs₂ := fs₁.setInode new { fs₁.inode new with type := pafsTypeFree }
     { fs₂ with sb := { fs₂.sb with freeInodes := fs₂.sb.freeInodes + 1#32 } }) = fs := by
  have hlt := findFreeInode_lt hf
  have hfree := h.free new (findFreeInode_free hf)
  have hinodes : ((newInode fs new isDir).setInode new
      { (newInode fs new isDir).inode new with type := pafsTypeFree }).inodes = fs.inodes := by
    refine Table.ext_get fun i hi => ?_
    change ((newInode fs new isDir).setInode new _).inode i = fs.inode i
    by_cases hin : i = new
    · subst hin
      rw [State.inode_setInode_self _ hlt, inode_newInode_self fs hlt, hfree]
      rfl
    · rw [State.inode_setInode_ne _ hin, inode_newInode_ne fs hin]
  have hcount : fs.sb.freeInodes - 1#32 + 1#32 = fs.sb.freeInodes := BitVec.sub_add_cancel _ _
  simp only [hinodes]
  change State.mk { fs.sb with freeInodes := fs.sb.freeInodes - 1#32 + 1#32 } fs.inodes
    fs.blockBitmap fs.disk = fs
  rw [hcount]

/-- Insertion of the entry of a new inode: failure changes nothing, success fills slot `n`. -/
theorem pafsAddEntry_newInode (h : Inv fs) (hp : parentIno < 128) (hc : fs.sb.freeInodes ≠ 0#32)
    (ha : pafsFindEntry fs parentIno name = -1) (hf : findFreeInode fs = some new) :
    pafsAddEntry (newInode fs new isDir) parentIno name new = (newInode fs new isDir, -1) ∨
      ∃ fs₁ n m mid, pafsAddEntry (newInode fs new isDir) parentIno name new = (fs₁, 0) ∧
        Created fs parentIno name isDir new n m mid (pafsSaveInode fs₁ new) := by
  have hinv := h.newInode (findFreeInode_lt hf) (findFreeInode_free hf) isDir
  by_cases ht : ((newInode fs new isDir).inode parentIno).type = pafsTypeDir
  · obtain ⟨n, m, hl⟩ := hinv.dirs parentIno ht
    rw [pafsAddEntry_eq hp ht hl, addEntryResult]
    split
    · next hn =>
      -- a slot in a block that the directory has
      exact Or.inr ⟨_, n, m, _, rfl, hc, ha, hf, Or.inl rfl, ht, hinv, hl, hn, rfl⟩
    · next hn =>
      split
      · next hm =>
        cases hb : findFreeBlock (newInode fs new isDir) with
        | none => exact Or.inl rfl
        | some b =>
          right
          -- a slot in a new block
          have hle := hl.le
          have hn16 : n = 16 * m := by omega
          obtain ⟨hinv', hl'⟩ := hinv.grow ht hl hm hb
          have ht' : ((growDir (newInode fs new isDir) parentIno m b).inode parentIno).type =
              pafsTypeDir := by
            rw [inode_growDir_self hp]
            exact ht
          exact ⟨_, n, m + 1, _, rfl, hc, ha, hf, Or.inr ⟨m, b, rfl, hn16, hm, hb, hl, rfl⟩,
            ht', hinv', hl', by omega, rfl⟩
      · -- all 14 blocks are full
        exact Or.inl rfl
  · exact Or.inl (pafsAddEntry_of_not_dir ht)

/-- **The outcomes of `pafs_create`**: `-1` without a change, or a new inode and entry. -/
theorem pafsCreate_cases {k : Kernel} (h : Inv k.fs) (hp : parentIno < 128) (name : CString)
    (isDir : Bool) :
    ((pafsCreate k parentIno name isDir).2 = -1 ∧
      (pafsCreate k parentIno name isDir).1.fs = k.fs) ∨
    ∃ new n m mid, (pafsCreate k parentIno name isDir).2 = (new : ℕ) ∧
      Created k.fs parentIno name isDir new n m mid (pafsCreate k parentIno name isDir).1.fs := by
  simp only [pafsCreate, Kernel.fs_touch, Kernel.fs_lock, Kernel.fs_touchDisk]
  by_cases hc : k.fs.sb.freeInodes = 0#32
  · simp [hc]
  rw [if_neg hc]
  by_cases ha : pafsFindEntry k.fs parentIno name = -1
  · rw [if_neg (not_not.mpr ha)]
    cases hf : findFreeInode k.fs with
    | none => simp
    | some new =>
      rcases @pafsAddEntry_newInode _ _ _ _ isDir h hp hc ha hf with hfail | ⟨fs₁, n, m, mid, hok, hcr⟩
      · left
        simp only [hfail]
        refine ⟨by simp, ?_⟩
        rw [if_neg (by decide)]
        simp only [Kernel.fs_unlock, Kernel.fs_touch, Kernel.fs_setFs]
        -- what was written to the inode and the counter is taken back
        exact undo_newInode h hf
      · right
        refine ⟨new, n, m, mid, ?_, ?_⟩
        · simp [hok]
        · simp only [hok, if_true, Kernel.fs_unlock, Kernel.fs_setFs, Kernel.fs_touchDisk]
          exact hcr
  · rw [if_pos ha]
    simp

namespace Created

variable {n m : ℕ} {mid fs' : State}

theorem new_lt (hcr : Created fs parentIno name isDir new n m mid fs') : new < 128 :=
  findFreeInode_lt hcr.free

theorem parent_lt (hcr : Created fs parentIno name isDir new n m mid fs') : parentIno < 128 :=
  hcr.inv.lt_of_dir hcr.dir

theorem new_pos (h : Inv fs) (hcr : Created fs parentIno name isDir new n m mid fs') : 0 < new :=
  Nat.pos_of_ne_zero (h.free_ne_zero (findFreeInode_free hcr.free))

theorem inv_result (h : Inv fs) (hcr : Created fs parentIno name isDir new n m mid fs') :
    Inv fs' := by
  rw [hcr.result]
  exact (hcr.inv.put hcr.dir hcr.layout hcr.room (hcr.new_pos h) hcr.new_lt).1.sameData
    (State.SameData.saveInode hcr.new_lt)

end Created

end Create

/-! ## Deletion -/

/-- A successful `pafs_delete`: inode `ino` is released and slot `t` of the parent's `n` entries
removed. -/
structure Deleted (fs : State) (parentIno : ℕ) (name : CString) (ino t n m : ℕ) (fs' : State) :
    Prop extends Found fs parentIno name ino t n m where
  empty : (fs.inode ino).type = pafsTypeDir → (fs.inode ino).size = 0#32
  result : fs' = pafsSaveInode (pafsSaveBitmap (pafsSaveSuperblock
    (dropEntry (releaseInode fs ino) parentIno t n))) ino

section Delete

variable {fs : State} {parentIno : ℕ} {name : CString}

/-- Releasing the inode of an entry leaves the directory as it was. -/
theorem Found.release {ino t n m : ℕ} (hf : Found fs parentIno name ino t n m)
    (hempty : (fs.inode ino).type = pafsTypeDir → (fs.inode ino).size = 0#32) :
    Found (releaseInode fs ino) parentIno name ino t n m := by
  have hparent := inode_releaseInode_ne fs hf.ino_lt (Ne.symm (hf.ino_ne_parent hempty))
  have hdisk := disk_releaseInode fs hf.ino_lt
  have hslot : findSlot (releaseInode fs ino) (fs.inode parentIno) name =
      findSlot fs (fs.inode parentIno) name := by
    simp only [findSlot, pafsDiskRead, hdisk]
  refine ⟨?_, ?_, hf.lt, ?_, ?_, ?_, ?_⟩ <;> rw [hparent]
  · exact hf.dir
  · rw [hdisk]
    exact hf.layout
  · exact hslot.trans hf.slot
  · rw [hdisk]
    exact hf.target
  · rw [hdisk]
    exact hf.named
  · rw [hdisk]
    exact hf.first

/-- **The outcomes of `pafs_delete`**: `-1` for a name that is not there, `-2` for a directory with
entries, both without a change, or the entry is removed. -/
theorem pafsDelete_cases {k : Kernel} (h : Inv k.fs) (parentIno : ℕ) (name : CString) :
    ((pafsDelete k parentIno name).2 = -1 ∧ (pafsDelete k parentIno name).1.fs = k.fs ∧
      pafsFindEntry k.fs parentIno name = -1) ∨
    ((pafsDelete k parentIno name).2 = -2 ∧ (pafsDelete k parentIno name).1.fs = k.fs ∧
      ∃ ino : ℕ, pafsFindEntry k.fs parentIno name = ino ∧
        (k.fs.inode ino).type = pafsTypeDir ∧ (k.fs.inode ino).size ≠ 0#32) ∨
    ∃ ino t n m, (pafsDelete k parentIno name).2 = 0 ∧
      pafsFindEntry k.fs parentIno name = (ino : ℕ) ∧
      Deleted k.fs parentIno name ino t n m (pafsDelete k parentIno name).1.fs := by
  simp only [pafsDelete, Kernel.fs_touch, Kernel.fs_lock, Kernel.fs_touchDisk,
    pafsIsDirEmpty_eq_false]
  rcases h.findEntry_cases parentIno name with hnone | ⟨ino, t, n, m, hfind, hf⟩
  · simp [hnone]
  · rw [hfind, if_neg (by omega), Int.toNat_natCast]
    by_cases hfull : (k.fs.inode ino).type = pafsTypeDir ∧ (k.fs.inode ino).size ≠ 0#32
    · rw [if_pos hfull]
      exact Or.inr (Or.inl ⟨rfl, by simp, ino, rfl, hfull⟩)
    · rw [if_neg hfull]
      have hempty : (k.fs.inode ino).type = pafsTypeDir → (k.fs.inode ino).size = 0#32 :=
        fun hdir => not_not.mp fun hsize => hfull ⟨hdir, hsize⟩
      have hf' := hf.release hempty
      rw [pafsRemoveEntry_eq hf'.layout hf'.lt hf'.slot]
      exact Or.inr (Or.inr ⟨ino, t, n, m, rfl, rfl, ⟨hf, hempty, by simp⟩⟩)

namespace Deleted

variable {ino t n m : ℕ} {fs' : State}

theorem release (hdel : Deleted fs parentIno name ino t n m fs') :
    Found (releaseInode fs ino) parentIno name ino t n m :=
  hdel.toFound.release hdel.empty

theorem parent_release (hdel : Deleted fs parentIno name ino t n m fs') :
    (releaseInode fs ino).inode parentIno = fs.inode parentIno :=
  inode_releaseInode_ne fs hdel.ino_lt (Ne.symm (hdel.ino_ne_parent hdel.empty))

theorem sameData (hdel : Deleted fs parentIno name ino t n m fs') :
    State.SameData (dropEntry (releaseInode fs ino) parentIno t n) fs' := by
  rw [hdel.result]
  exact (State.SameData.saveSuperblock.trans State.SameData.saveBitmap).trans
    (State.SameData.saveInode hdel.ino_lt)

theorem inv_drop (h : Inv fs) (hdel : Deleted fs parentIno name ino t n m fs') :
    Inv (dropEntry (releaseInode fs ino) parentIno t n) :=
  ((h.releaseInode hdel.ino_lt hdel.ino_ne_zero).drop hdel.release.dir hdel.release.layout hdel.lt).1

theorem inv_result (h : Inv fs) (hdel : Deleted fs parentIno name ino t n m fs') : Inv fs' :=
  (hdel.inv_drop h).sameData hdel.sameData

end Deleted

end Delete

/-! ## Writing -/

section Write

variable {k : Kernel} {ino : ℕ} {name : CString} {data : ℕ → Byte} {len : ℤ}

/-- The state after the writing part of `pafs_write`. -/
theorem fs_pafsWriteFile (ht : (k.fs.inode ino).type = pafsTypeFile) :
    (pafsWriteFile k ino data len).1.fs =
      pafsSaveInode ((writeLoop ino data len.toNat 14 k.fs 0 0).1.setSize ino
        (BitVec.ofNat 32 (writeLoop ino data len.toNat 14 k.fs 0 0).2)) ino := by
  simp [pafsWriteFile, ht]

theorem fs_pafsWriteFile_of_not_file (ht : (k.fs.inode ino).type ≠ pafsTypeFile) :
    (pafsWriteFile k ino data len).1.fs = k.fs := by
  simp [pafsWriteFile, ht]

/-- The writing part changes one file. -/
theorem Inv.writeFile (h : Inv k.fs) (ino : ℕ) (data : ℕ → Byte) (len : ℤ) :
    Inv (pafsWriteFile k ino data len).1.fs ∧
      OnlyFile ino k.fs (pafsWriteFile k ino data len).1.fs := by
  by_cases ht : (k.fs.inode ino).type = pafsTypeFile
  · rw [fs_pafsWriteFile ht]
    have hlt : ino < 128 := State.lt_of_type_ne (by rw [ht]; decide)
    obtain ⟨h₁, ho₁⟩ := @writeLoop _ _ 0 data len.toNat 14 0 h ht rfl
    obtain ⟨h₂, ho₂⟩ := h₁.setSize (ho₁.type.trans ht)
      (BitVec.ofNat 32 (Pafs.writeLoop ino data len.toNat 14 k.fs 0 0).2)
    obtain ⟨h₃, ho₃⟩ := h₂.saveInode hlt
    exact ⟨h₃, (ho₁.trans ho₂).trans ho₃⟩
  · rw [fs_pafsWriteFile_of_not_file ht]
    exact ⟨h, OnlyFile.refl ino k.fs⟩

/-- **The outcomes of `pafs_write`**: a failed creation changes nothing; otherwise one file is
written, in the given state or in the one after its creation. -/
theorem pafsWrite_cases (h : Inv k.fs) (name : CString) (data : ℕ → Byte) (len : ℤ) :
    (∃ ino : ℕ, pafsFindEntry k.fs 0 name = ino ∧
      pafsWrite k name data len = pafsWriteFile k.lock.touchDisk ino data len) ∨
    (pafsFindEntry k.fs 0 name = -1 ∧ (pafsCreate k.lock.touchDisk 0 name false).2 = -1 ∧
      (pafsWrite k name data len).1.fs = k.fs ∧ (pafsWrite k name data len).2 = -1) ∨
    (pafsFindEntry k.fs 0 name = -1 ∧ ∃ new n m mid,
      (pafsCreate k.lock.touchDisk 0 name false).2 = (new : ℕ) ∧
      Created k.fs 0 name false new n m mid (pafsCreate k.lock.touchDisk 0 name false).1.fs ∧
      pafsWrite k name data len =
        pafsWriteFile (pafsCreate k.lock.touchDisk 0 name false).1 new data len) := by
  have hfs : k.lock.touchDisk.fs = k.fs := by simp
  have hroot : k.fs.sb.rootInode.toNat = 0 := by rw [h.root]; rfl
  simp only [pafsWrite, hfs, hroot]
  by_cases ha : pafsFindEntry k.fs 0 name = -1
  · rw [if_pos ha]
    right
    rcases @pafsCreate_cases 0 k.lock.touchDisk (hfs ▸ h) (by decide) name false with
      ⟨hres, hsame⟩ | ⟨new, n, m, mid, hres, hcr⟩
    · left
      refine ⟨ha, hres, ?_, ?_⟩
      · rw [if_pos hres]
        exact hsame.trans hfs
      · rw [if_pos hres]
    · right
      rw [hfs] at hcr
      refine ⟨ha, new, n, m, mid, hres, hcr, ?_⟩
      rw [if_neg (by omega), hres, Int.toNat_natCast]
  · rw [if_neg ha]
    left
    rcases h.findEntry_cases 0 name with hnone | ⟨ino, t, n, m, hfind, -⟩
    · exact absurd hnone ha
    · exact ⟨ino, hfind, by rw [hfind, Int.toNat_natCast]⟩

/-- **The state after `pafs_vfs_write`**: a node that is not a file is left alone. -/
theorem fs_pafsVfsWrite {offset size : Word} (ht : (k.fs.inode ino).type = pafsTypeFile) :
    (pafsVfsWrite k ino offset size data).1.fs =
      let r := vfsWriteLoop ino data size.toNat (14 - offset.toNat / 512) k.fs
        (offset.toNat / 512) (offset.toNat % 512) 0
      pafsSaveInode (if (r.1.inode ino).size < offset + BitVec.ofNat 32 r.2 then
        r.1.setSize ino (offset + BitVec.ofNat 32 r.2) else r.1) ino := by
  have hfile : ¬(k.lock.touch.fs.inode ino).type ≠ pafsTypeFile := not_not.mpr ht
  rw [pafsVfsWrite, if_neg hfile, Kernel.fs_unlock, Kernel.fs_touchDisk]
  rfl

theorem fs_pafsVfsWrite_of_not_file {offset size : Word}
    (ht : (k.fs.inode ino).type ≠ pafsTypeFile) :
    (pafsVfsWrite k ino offset size data).1.fs = k.fs := by
  simp [pafsVfsWrite, ht]

/-- `pafs_vfs_write` changes one file. -/
theorem Inv.vfsWrite (h : Inv k.fs) (ino : ℕ) (offset size : Word) (data : ℕ → Byte) :
    Inv (pafsVfsWrite k ino offset size data).1.fs ∧
      OnlyFile ino k.fs (pafsVfsWrite k ino offset size data).1.fs := by
  by_cases ht : (k.fs.inode ino).type = pafsTypeFile
  · rw [fs_pafsVfsWrite ht]
    have hlt : ino < 128 := State.lt_of_type_ne (by rw [ht]; decide)
    obtain ⟨h₁, ho₁⟩ := @vfsWriteLoop _ _ (offset.toNat / 512) data size.toNat
      (14 - offset.toNat / 512) (offset.toNat % 512) 0 h ht (by omega)
    dsimp only
    split
    · obtain ⟨h₂, ho₂⟩ := h₁.setSize (ho₁.type.trans ht) _
      obtain ⟨h₃, ho₃⟩ := h₂.saveInode hlt
      exact ⟨h₃, (ho₁.trans ho₂).trans ho₃⟩
    · obtain ⟨h₃, ho₃⟩ := h₁.saveInode hlt
      exact ⟨h₃, ho₁.trans ho₃⟩
  · rw [fs_pafsVfsWrite_of_not_file ht]
    exact ⟨h, OnlyFile.refl ino k.fs⟩

end Write

/-! ## Runs -/

theorem fs_pafsFormat (k : Kernel) : (pafsFormat k).fs = formatState k.fs := by
  simp [pafsFormat]

/-! ### What a call keeps -/

section Keeps

variable {P : State → Prop} {k : Kernel}

/-- `pafs_create` keeps what a new entry keeps: a creation that fails changes nothing. -/
theorem pafsCreate_keeps {d : ℕ} (h : Inv k.fs) (hd : d < 128) (name : CString) (isDir : Bool)
    (hp : P k.fs) (hcreated : ∀ {new n m mid fs'}, Created k.fs d name isDir new n m mid fs' → P fs') :
    P (pafsCreate k d name isDir).1.fs := by
  rcases pafsCreate_cases h hd name isDir with ⟨-, hsame⟩ | ⟨new, n, m, mid, -, hcr⟩
  · rw [hsame]
    exact hp
  · exact hcreated hcr

/-- `pafs_delete` keeps what the removal of an entry keeps. -/
theorem pafsDelete_keeps (h : Inv k.fs) (d : ℕ) (name : CString) (hp : P k.fs)
    (hdeleted : ∀ {ino t n m fs'}, Deleted k.fs d name ino t n m fs' → P fs') :
    P (pafsDelete k d name).1.fs := by
  rcases pafsDelete_cases h d name with ⟨-, hsame, -⟩ | ⟨-, hsame, -⟩ | ⟨ino, t, n, m, -, -, hdel⟩
  · -- there is no such name
    rw [hsame]
    exact hp
  · -- the directory has entries
    rw [hsame]
    exact hp
  · exact hdeleted hdel

/-- `pafs_write` keeps what a new entry and the writing part keep. -/
theorem pafsWrite_keeps (h : Inv k.fs) (name : CString) (data : ℕ → Byte) (len : ℤ) (hp : P k.fs)
    (hcreated : ∀ {new n m mid fs'}, Created k.fs 0 name false new n m mid fs' → P fs')
    (hwrite : ∀ {k' : Kernel} (ino : ℕ), Inv k'.fs → P k'.fs → P (pafsWriteFile k' ino data len).1.fs) :
    P (pafsWrite k name data len).1.fs := by
  have hfs : k.lock.touchDisk.fs = k.fs := by simp
  rcases pafsWrite_cases h name data len with
    ⟨ino, -, heq⟩ | ⟨-, -, hsame, -⟩ | ⟨-, new, n, m, mid, -, hcr, heq⟩
  · -- the name is there
    rw [heq]
    exact hwrite ino (by rwa [hfs]) (by rwa [hfs])
  · rw [hsame]
    exact hp
  · -- the file is created first
    rw [heq]
    exact hwrite new (hcr.inv_result h) (hcreated hcr)

/-- The writing part of `pafs_write` keeps what writing to a file keeps. -/
theorem pafsWriteFile_keeps {ino : ℕ} {data : ℕ → Byte} {len : ℤ} (hp : P k.fs)
    (hfile : (k.fs.inode ino).type = pafsTypeFile → P (pafsWriteFile k ino data len).1.fs) :
    P (pafsWriteFile k ino data len).1.fs := by
  by_cases ht : (k.fs.inode ino).type = pafsTypeFile
  · exact hfile ht
  · rw [fs_pafsWriteFile_of_not_file ht]
    exact hp

/-- So does `pafs_vfs_write`. -/
theorem pafsVfsWrite_keeps {ino : ℕ} {offset size : Word} {data : ℕ → Byte} (hp : P k.fs)
    (hfile : (k.fs.inode ino).type = pafsTypeFile → P (pafsVfsWrite k ino offset size data).1.fs) :
    P (pafsVfsWrite k ino offset size data).1.fs := by
  by_cases ht : (k.fs.inode ino).type = pafsTypeFile
  · exact hfile ht
  · rw [fs_pafsVfsWrite_of_not_file ht]
    exact hp

end Keeps

theorem Inv.create {k : Kernel} {d : ℕ} (h : Inv k.fs) (hd : d < 128) (name : CString)
    (isDir : Bool) : Inv (pafsCreate k d name isDir).1.fs :=
  pafsCreate_keeps h hd name isDir h fun hcr => hcr.inv_result h

theorem Inv.delete {k : Kernel} (h : Inv k.fs) (d : ℕ) (name : CString) :
    Inv (pafsDelete k d name).1.fs :=
  pafsDelete_keeps h d name h fun hdel => hdel.inv_result h

theorem Inv.write {k : Kernel} (h : Inv k.fs) (name : CString) (data : ℕ → Byte) (len : ℤ) :
    Inv (pafsWrite k name data len).1.fs := by
  refine pafsWrite_keeps h name data len h (fun hcr => hcr.inv_result h) fun ino h' _ => ?_
  exact (h'.writeFile ino data len).1

/-- **One call keeps the invariant.** -/
theorem Inv.step {k : Kernel} (h : Inv k.fs) (op : Op) : Inv (step k op).fs := by
  cases op with
  | create parentIno name isDir => exact h.create parentIno.isLt name isDir
  | mkdir parentIno name => exact h.create parentIno.isLt name true
  | delete parentIno name => exact h.delete parentIno name
  | write name data len => exact h.write name data len
  | vfsWrite ino offset size buffer => exact (h.vfsWrite ino offset size buffer).1
  | format =>
    rw [Pafs.step, fs_pafsFormat]
    exact Inv.format k.fs

/-- **The invariant holds in every reachable state.** -/
theorem Reachable.inv {k : Kernel} (h : Reachable k) : Inv k.fs := by
  obtain ⟨k₀, ops, rfl⟩ := h
  refine invariant_run (I := fun k : Kernel => Inv k.fs) (fun h => h.step _) ?_
  rw [fs_pafsFormat]
  exact Inv.format k₀.fs

end PekerOS.Pafs
