import PekerOS.Fs.Pafs.Entries

/-!
# PAFS: the namespace

The directory entries own the inodes in use: every entry names one that is in use, and every inode in
use other than the root is named by exactly one entry. Creation fills a slot with a fresh inode.
Deletion empties a slot and moves the last entry into it, except when the two lie in one block: there
`pafs_remove_entry` writes back the copy of the block it read before the move, so the deleted name
stays, naming a free inode, and the last entry is lost.

## Main definitions

* `State.entry`, `State.live`: what the slots name, and the inodes in use
* `Namespace fs`: entries own the inodes in use, and the counter counts the free ones
* `LosesSwap fs d name`: `pafs_delete` removes an entry that shares its block with the last one

## Main results

* `namespace_iff`: `Namespace` as an instance of `Owns`
* `Namespace.created`, `Namespace.deleted`, `Deleted.not_namespace`: creation and deletion
* `namespace_step_iff`: one call
* `run_namespace_iff`: **a run keeps the namespace exactly when no deletion loses its swap**
-/

namespace PekerOS.Pafs

/-- The inode that slot `p.2` of directory `p.1` names. -/
def State.entry (fs : State) (p : ℕ × ℕ) : Option ℕ := (fs.dirent p).map Prod.fst

/-- The inodes in use, the root left out. -/
def State.live (fs : State) : Set ℕ := { i | (fs.inode i).type ≠ pafsTypeFree ∧ i ≠ 0 }

/-- The free inodes. -/
def freeInodes (fs : State) : Finset ℕ :=
  (Finset.range pafsMaxInodes).filter fun i => (fs.inode i).type = pafsTypeFree

structure Namespace (fs : State) : Prop where
  /-- No entry names a free inode. -/
  entry_live : ∀ d s, IsEntry fs d s → (fs.inode (entryTarget fs d s)).type ≠ pafsTypeFree
  /-- An inode in use is named once. -/
  named_once : ∀ i, (fs.inode i).type ≠ pafsTypeFree → i ≠ fs.sb.rootInode.toNat →
    ∃! p : ℕ × ℕ, IsEntry fs p.1 p.2 ∧ entryTarget fs p.1 p.2 = i
  counter : fs.sb.freeInodes.toNat = (freeInodes fs).card

section Entries

variable {fs fs' : State} {d s i : ℕ}

theorem State.entry_eq_some : fs.entry (d, s) = some i ↔ IsEntry fs d s ∧ entryTarget fs d s = i := by
  unfold State.entry State.dirent
  split <;> simp_all

theorem entryTarget_ne_zero (h : IsEntry fs d s) : entryTarget fs d s ≠ 0 :=
  fun h0 => h.2.2 (BitVec.eq_of_toNat_eq h0)

/-- The entries own the inodes in use. -/
theorem namespace_iff (h : Inv fs) : Namespace fs ↔
    Owns fs.entry fs.live ∧ fs.sb.freeInodes.toNat = (freeInodes fs).card := by
  have hroot : fs.sb.rootInode.toNat = 0 := by rw [h.root]; rfl
  constructor
  · intro hn
    refine ⟨⟨?_, ?_, ?_⟩, hn.counter⟩
    · rintro ⟨d, s⟩ i hi
      obtain ⟨he, rfl⟩ := State.entry_eq_some.mp hi
      exact ⟨hn.entry_live d s he, entryTarget_ne_zero he⟩
    · rintro i ⟨hlive, h0⟩
      obtain ⟨⟨d, s⟩, he, -⟩ := hn.named_once i hlive (hroot ▸ h0)
      exact ⟨(d, s), State.entry_eq_some.mpr he⟩
    · rintro ⟨d, s⟩ ⟨d', s'⟩ i hi hi'
      obtain ⟨he, rfl⟩ := State.entry_eq_some.mp hi
      obtain ⟨he', ht'⟩ := State.entry_eq_some.mp hi'
      exact (hn.named_once _ (hn.entry_live d s he) (hroot ▸ entryTarget_ne_zero he)).unique
        ⟨he, rfl⟩ ⟨he', ht'⟩
  · rintro ⟨ho, hc⟩
    refine ⟨fun d s he => (ho.used_of_slot (State.entry_eq_some.mpr ⟨he, rfl⟩)).1, ?_, hc⟩
    intro i hlive h0
    obtain ⟨⟨d, s⟩, he, huniq⟩ := ho.existsUnique (b := i) ⟨hlive, hroot ▸ h0⟩
    exact ⟨(d, s), State.entry_eq_some.mp he,
      fun ⟨d', s'⟩ he' => huniq (d', s') (State.entry_eq_some.mpr he')⟩

/-- The entries of a directory with a layout. -/
theorem Layout.entry_eq {n m : ℕ} (ht : (fs.inode d).type = pafsTypeDir)
    (hl : Layout fs.disk (fs.inode d) n m) (s : ℕ) :
    fs.entry (d, s) = if s < n then some (entryTarget fs d s) else none := by
  rw [State.entry, hl.dirent_eq ht, apply_ite (Option.map Prod.fst)]
  rfl

end Entries

/-! ## The inodes in use -/

section Inodes

variable {fs fs' : State} {i : ℕ}

theorem mem_freeInodes : i ∈ freeInodes fs ↔ i < 128 ∧ (fs.inode i).type = pafsTypeFree := by
  simp [freeInodes, pafsMaxInodes]

/-- The counter after an inode is taken. -/
theorem card_freeInodes_take (hi : i < 128) (hfree : (fs.inode i).type = pafsTypeFree)
    (hself : (fs'.inode i).type ≠ pafsTypeFree)
    (hne : ∀ j, j ≠ i → (fs'.inode j).type = (fs.inode j).type) :
    (freeInodes fs).card = (freeInodes fs').card + 1 := by
  have herase : freeInodes fs' = (freeInodes fs).erase i := by
    ext j
    rw [Finset.mem_erase, mem_freeInodes, mem_freeInodes]
    by_cases hj : j = i
    · subst hj
      simp [hself]
    · simp [hj, hne j hj]
  rw [herase, Finset.card_erase_add_one (mem_freeInodes.mpr ⟨hi, hfree⟩)]

theorem freeInodes_congr (h : ∀ j, (fs'.inode j).type = (fs.inode j).type) :
    freeInodes fs' = freeInodes fs := by
  simp only [freeInodes, h]

/-- States with the same entries, types and counter. -/
theorem Namespace.congr (h : Inv fs) (h' : Inv fs') (hn : Namespace fs)
    (hentry : ∀ p, fs'.dirent p = fs.dirent p)
    (htype : ∀ j, (fs'.inode j).type = (fs.inode j).type)
    (hcount : fs'.sb.freeInodes = fs.sb.freeInodes) : Namespace fs' := by
  obtain ⟨ho, hc⟩ := (namespace_iff h).mp hn
  refine (namespace_iff h').mpr ⟨ho.congr (fun p => congrArg _ (hentry p)) fun i => ?_, ?_⟩
  · simp only [State.live, Set.mem_ofPred_eq, htype]
  · rw [freeInodes_congr htype, hcount, hc]

end Inodes

/-! ## The operations -/

section Create

variable {fs fs' mid : State} {parentIno new n m : ℕ} {name : CString} {isDir : Bool}

theorem Created.entry (h : Inv fs) (hcr : Created fs parentIno name isDir new n m mid fs')
    (p : ℕ × ℕ) : fs'.entry p = if p = (parentIno, n) then some new else fs.entry p := by
  rw [State.entry, hcr.dirent h, apply_ite (Option.map Prod.fst)]
  rfl

theorem Namespace.created (h : Inv fs) (hn : Namespace fs)
    (hcr : Created fs parentIno name isDir new n m mid fs') : Namespace fs' := by
  obtain ⟨ho, hc⟩ := (namespace_iff h).mp hn
  have hfree := findFreeInode_free hcr.free
  have hself : (fs'.inode new).type ≠ pafsTypeFree := by
    rw [hcr.type_self]
    cases isDir <;> decide
  refine (namespace_iff (hcr.inv_result h)).mpr ⟨?_, ?_⟩
  · refine ho.assign (i := (parentIno, n)) (b := new) ?_ (fun hlive => hlive.1 hfree)
      ((hcr.entry h _).trans (if_pos rfl)) (fun p hp => (hcr.entry h p).trans (if_neg hp)) fun i => ?_
    · rw [State.entry, ← hcr.dirent_mid h, hcr.layout.dirent_eq hcr.dir, if_neg (lt_irrefl n)]
      rfl
    · simp only [State.live, Set.mem_ofPred_eq]
      by_cases hi : i = new
      · subst hi
        simp [hself, h.free_ne_zero hfree]
      · simp [hcr.type_ne hi, hi]
  · have hcard := card_freeInodes_take hcr.new_lt hfree hself fun j hj => hcr.type_ne hj
    have hpos : fs.sb.freeInodes.toNat ≠ 0 := fun h0 => hcr.counter (BitVec.eq_of_toNat_eq h0)
    have hlt := fs.sb.freeInodes.isLt
    rw [hcr.freeInodes_eq, BitVec.toNat_sub]
    simp only [BitVec.toNat_ofNat]
    omega

end Create

section Delete

variable {fs fs' : State} {parentIno ino t n m : ℕ} {name : CString}

theorem Deleted.entry (h : Inv fs) (hdel : Deleted fs parentIno name ino t n m fs') (p : ℕ × ℕ) :
    fs'.entry p =
      if p.1 = parentIno then
        (if p.2 < n - 1 then fs.entry (parentIno, dropSource t n p.2) else none)
      else fs.entry p := by
  simp only [State.entry, hdel.dirent h, apply_ite (Option.map Prod.fst), Option.map_none]

theorem Deleted.entry_last (h : Inv fs) (hdel : Deleted fs parentIno name ino t n m fs') :
    fs'.entry (parentIno, n - 1) = none := by
  rw [hdel.entry h, if_pos rfl, if_neg (lt_irrefl _)]

theorem Deleted.entry_target (h : Inv fs) (hdel : Deleted fs parentIno name ino t n m fs')
    (hlast : t ≠ n - 1) : fs'.entry (parentIno, t) = fs.entry (parentIno, dropSource t n t) := by
  have := hdel.lt
  rw [hdel.entry h, if_pos rfl, if_pos (show t < n - 1 by omega)]

/-- Only the deleted slot and the last one change. -/
theorem Deleted.entry_other (h : Inv fs) (hdel : Deleted fs parentIno name ino t n m fs')
    {p : ℕ × ℕ} (hp : p ≠ (parentIno, t)) (hp' : p ≠ (parentIno, n - 1)) :
    fs'.entry p = fs.entry p := by
  obtain ⟨d, s⟩ := p
  rw [hdel.entry h]
  by_cases hd : d = parentIno
  · subst hd
    have hst : s ≠ t := fun heq => hp (by rw [heq])
    have hsn : s ≠ n - 1 := fun heq => hp' (by rw [heq])
    have hsrc : dropSource t n s = s := by simp [dropSource, hst]
    rw [if_pos rfl, hsrc]
    by_cases hs : s < n - 1
    · rw [if_pos hs]
    · rw [if_neg hs, hdel.layout.entry_eq hdel.dir, if_neg (by omega)]
  · rw [if_neg hd]

theorem Found.entry (hf : Found fs parentIno name ino t n m) : fs.entry (parentIno, t) = some ino := by
  rw [hf.layout.entry_eq hf.dir, if_pos hf.lt, entryTarget, hf.target]

theorem Deleted.mem_live (hdel : Deleted fs parentIno name ino t n m fs') (i : ℕ) :
    i ∈ fs'.live ↔ i ≠ ino ∧ i ∈ fs.live := by
  simp only [State.live, Set.mem_ofPred_eq]
  by_cases hi : i = ino
  · subst hi
    simp [hdel.type_self]
  · simp [hdel.type_ne hi, hi]

/-- A deletion that loses no entry empties the slot and moves the last entry into it. -/
theorem Deleted.owns (h : Inv fs) (ho : Owns fs.entry fs.live)
    (hdel : Deleted fs parentIno name ino t n m fs')
    (hswap : t = n - 1 ∨ t / 16 ≠ (n - 1) / 16) : Owns fs'.entry fs'.live := by
  classical
  have hlt := hdel.lt
  by_cases hlast : t = n - 1
  · refine ho.release hdel.toFound.entry ?_ (fun p hp => ?_) hdel.mem_live
    · rw [hlast]
      exact hdel.entry_last h
    · exact hdel.entry_other h hp (hlast ▸ hp)
  · have hblock := hswap.resolve_left hlast
    have hmid : Owns (Function.update fs.entry (parentIno, t) none) fs'.live :=
      ho.release hdel.toFound.entry (Function.update_self _ _ _)
        (fun p hp => Function.update_of_ne hp _ _) hdel.mem_live
    have hne : (parentIno, n - 1) ≠ (parentIno, t) := fun heq => hlast (Prod.mk.inj heq).2.symm
    have hsome : fs.entry (parentIno, n - 1) =
        some (entryTarget fs parentIno (n - 1)) := by
      rw [hdel.layout.entry_eq hdel.dir, if_pos (by omega)]
    refine hmid.move (Function.update_self _ _ _) ((Function.update_of_ne hne _ _).trans hsome)
      ?_ (hdel.entry_last h) fun p hp hp' => ?_
    · rw [hdel.entry_target h hlast, dropSource, if_pos ⟨rfl, hblock⟩, hsome]
    · rw [Function.update_of_ne hp]
      exact hdel.entry_other h hp hp'

theorem Namespace.deleted (h : Inv fs) (hn : Namespace fs)
    (hdel : Deleted fs parentIno name ino t n m fs')
    (hswap : t = n - 1 ∨ t / 16 ≠ (n - 1) / 16) : Namespace fs' := by
  obtain ⟨ho, hc⟩ := (namespace_iff h).mp hn
  refine (namespace_iff (hdel.inv_result h)).mpr ⟨hdel.owns h ho hswap, ?_⟩
  have hcard := card_freeInodes_take hdel.ino_lt hdel.type_self
    (ho.used_of_slot hdel.toFound.entry).1 fun j hj => (hdel.type_ne hj).symm
  have hle : (freeInodes fs').card ≤ 128 :=
    (Finset.card_filter_le _ _).trans (Finset.card_range _).le
  rw [hdel.freeInodes_eq, BitVec.toNat_add]
  simp only [BitVec.toNat_ofNat]
  omega

/-- Within the block of the last entry the deleted entry stays, and its inode is free. -/
theorem Deleted.not_namespace (h : Inv fs) (hdel : Deleted fs parentIno name ino t n m fs')
    (hlost : t ≠ n - 1) (hblock : t / 16 = (n - 1) / 16) : ¬Namespace fs' := by
  intro hn
  have hkept : fs'.entry (parentIno, t) = some ino := by
    rw [hdel.entry_target h hlost, dropSource, if_neg fun hs => hs.2 hblock, hdel.toFound.entry]
  obtain ⟨he, htarget⟩ := State.entry_eq_some.mp hkept
  exact hn.entry_live _ _ he (htarget ▸ hdel.type_self)

end Delete

/-! ## Runs -/

/-- `pafs_delete` goes on to remove an entry that lies in the block of the last one without being the
last one. -/
def LosesSwap (fs : State) (d : ℕ) (name : CString) : Prop :=
  pafsFindEntry fs d name ≠ -1 ∧
  ¬((fs.inode (pafsFindEntry fs d name).toNat).type = pafsTypeDir ∧
    pafsIsDirEmpty fs (pafsFindEntry fs d name).toNat = false) ∧
  ∃ i j, findSlot fs (fs.inode d) name = some (i, j) ∧
    (i : ℤ) = (lastEntryTotalIdx (fs.inode d)).tdiv 16 ∧
    (j : ℤ) ≠ (lastEntryTotalIdx (fs.inode d)).tmod 16

/-- The call is not a deletion that loses its swap. -/
def KeepsSwap (k : Kernel) : Op → Prop
  | .delete parentIno name => ¬LosesSwap k.fs parentIno name
  | _ => True

section Run

variable {k : Kernel}

theorem Found.losesSwap_iff {fs : State} {d ino t n m : ℕ} {name : CString}
    (hf : Found fs d name ino t n m) (hfind : pafsFindEntry fs d name = (ino : ℕ))
    (hempty : (fs.inode ino).type = pafsTypeDir → (fs.inode ino).size = 0#32) :
    LosesSwap fs d name ↔ t ≠ n - 1 ∧ t / 16 = (n - 1) / 16 := by
  have hlt := hf.lt
  have hrm : ¬((fs.inode ino).type = pafsTypeDir ∧ pafsIsDirEmpty fs ino = false) := by
    rw [pafsIsDirEmpty_eq_false]
    exact fun hfull => hfull.2 (hempty hfull.1)
  have hdiv : ((n - 1 : ℕ) : ℤ).tdiv 16 = (((n - 1) / 16 : ℕ) : ℤ) := rfl
  have hmod : ((n - 1 : ℕ) : ℤ).tmod 16 = (((n - 1) % 16 : ℕ) : ℤ) := rfl
  rw [LosesSwap, hfind, Int.toNat_natCast, hf.layout.lastEntryTotalIdx_eq (by omega), hdiv, hmod]
  constructor
  · rintro ⟨-, -, i, j, hslot, hi, hj⟩
    obtain ⟨rfl, rfl⟩ := Prod.mk.inj (Option.some.inj (hf.slot.symm.trans hslot))
    omega
  · rintro ⟨hne, hblock⟩
    exact ⟨by omega, hrm, t / 16, t % 16, hf.slot, by omega, by omega⟩

/-- The writing operations leave the namespace alone. -/
theorem Namespace.onlyFile {fs fs' : State} {ino : ℕ} (h : Inv fs) (h' : Inv fs')
    (hn : Namespace fs) (ho : OnlyFile ino fs fs') (ht : (fs.inode ino).type = pafsTypeFile) :
    Namespace fs' := by
  refine hn.congr h h' (ho.dirent (by rw [ht]; decide)) (fun j => ?_) ho.freeInodes
  by_cases hj : j = ino
  · subst hj
    exact ho.type
  · rw [ho.inode j hj]

theorem Namespace.writeFile (h : Inv k.fs) (hn : Namespace k.fs) (ino : ℕ) (data : ℕ → Byte)
    (len : ℤ) : Namespace (pafsWriteFile k ino data len).1.fs := by
  obtain ⟨h', ho⟩ := h.writeFile ino data len
  exact pafsWriteFile_keeps hn fun ht => hn.onlyFile h h' ho ht

theorem Namespace.create {d : ℕ} (h : Inv k.fs) (hn : Namespace k.fs) (hd : d < 128)
    (name : CString) (isDir : Bool) : Namespace (pafsCreate k d name isDir).1.fs :=
  pafsCreate_keeps h hd name isDir hn fun hcr => hn.created h hcr

/-- A formatted disk has no entries, and only the root is in use. -/
theorem Namespace.format (fs : State) : Namespace (formatState fs) := by
  have h := Inv.format fs
  have hfree : ∀ i, i ≠ 0 → ((formatState fs).inode i).type = pafsTypeFree := fun i hi => by
    rw [inode_format_ne fs hi]
    rfl
  refine (namespace_iff h).mpr ⟨(Owns.empty ?_).congr (fun _ => rfl) fun i => ?_, ?_⟩
  · rintro ⟨d, s⟩
    by_cases hd : d = 0
    · subst hd
      rw [(layout_format fs).entry_eq h.rootDir, if_neg (by omega)]
    · rw [State.entry, dirent_of_not_dir (by rw [hfree d hd]; decide)]
      rfl
  · simp only [State.live, Set.mem_ofPred_eq, Set.mem_empty_iff_false, iff_false, not_and, not_not]
    exact fun hlive => not_not.mp fun hi => hlive (hfree i hi)
  · have herase : freeInodes (formatState fs) = (Finset.range 128).erase 0 := by
      ext i
      rw [mem_freeInodes, Finset.mem_erase, Finset.mem_range]
      by_cases hi : i = 0
      · subst hi
        simp [h.rootDir, pafsTypeDir, pafsTypeFree]
      · simp [hi, hfree i hi]
    rw [herase, freeInodes_format]
    rfl

/-- **One call** keeps the namespace exactly when it is not a deletion that loses its swap. -/
theorem namespace_step_iff (h : Inv k.fs) (hn : Namespace k.fs) (op : Op) :
    Namespace (step k op).fs ↔ KeepsSwap k op := by
  cases op with
  | create parentIno name isDir => simp [KeepsSwap, step, hn.create h parentIno.isLt name isDir]
  | mkdir parentIno name => simp [KeepsSwap, step, pafsMkdir, hn.create h parentIno.isLt name true]
  | delete parentIno name =>
    rw [KeepsSwap, step]
    rcases pafsDelete_cases h parentIno name with
      ⟨-, hsame, hnone⟩ | ⟨-, hsame, ino, hfind, hfull⟩ | ⟨ino, t, n, m, -, hfind, hdel⟩
    · rw [hsame]
      simp [hn, LosesSwap, hnone]
    · -- a directory that is not empty stays
      rw [hsame]
      rw [← pafsIsDirEmpty_eq_false] at hfull
      simp [hn, LosesSwap, hfind, hfull]
    · -- the last entry takes the slot of the one deleted
      rw [hdel.toFound.losesSwap_iff hfind hdel.empty]
      constructor
      · exact fun hn' hlost => hdel.not_namespace h hlost.1 hlost.2 hn'
      · exact fun hkeep => hn.deleted h hdel (by tauto)
  | write name data len =>
    simp only [KeepsSwap, step, iff_true]
    refine pafsWrite_keeps h name data len hn (fun hcr => hn.created h hcr) fun ino h' hn' => ?_
    exact hn'.writeFile h' ino data len
  | vfsWrite ino offset size buffer =>
    simp only [KeepsSwap, step, iff_true]
    obtain ⟨h', ho⟩ := h.vfsWrite ino offset size buffer
    exact pafsVfsWrite_keeps hn fun ht => hn.onlyFile h h' ho ht
  | format =>
    simp only [KeepsSwap, step, iff_true, fs_pafsFormat]
    exact Namespace.format k.fs

end Run

/-- **A run keeps the namespace** in all its states exactly when no deletion of it removes an entry
that shares its block with the last entry of the directory without being that last entry. -/
theorem run_namespace_iff (k₀ : Kernel) (ops : List Op) :
    (∀ i, Namespace (run (pafsFormat k₀) (ops.take i)).fs) ↔
      Steps step KeepsSwap (pafsFormat k₀) ops := by
  have h : Inv (pafsFormat k₀).fs := by
    rw [fs_pafsFormat]
    exact Inv.format k₀.fs
  have hn : Namespace (pafsFormat k₀).fs := by
    rw [fs_pafsFormat]
    exact Namespace.format k₀.fs
  rw [← along_iff_steps (P := fun k : Kernel => Namespace k.fs) (I := fun k : Kernel => Inv k.fs)
    (fun h => h.step _) (fun h hn => namespace_step_iff h hn _) h hn, along_iff_take]
  rfl

/-- Two files in a fresh root, the first one deleted: its name now names a free inode. -/
theorem namespace_lost_after_delete : ¬Namespace (run (pafsFormat ramdiskKernel)
    [.create 0 ⟨[97#8], by decide⟩ false, .create 0 ⟨[98#8], by decide⟩ false,
      .delete 0 ⟨[97#8], by decide⟩]).fs := by
  intro hn
  exact hn.entry_live 0 0 (by decide +kernel) (by decide +kernel)

end PekerOS.Pafs
