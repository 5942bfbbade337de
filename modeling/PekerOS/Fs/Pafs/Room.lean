import PekerOS.Fs.Pafs.Namespace

/-!
# PAFS: room for entries

An inode is taken with every entry that is made, and at most one is given back with every entry that is
removed. So there are never more entries than inodes in use, whatever the entries name, and a directory,
which holds 224 entries, is not full while an inode is free. The counter of free inodes counts what the
entries leave of the 127: a deletion that leaves its name in place has it count an inode twice.

## Main definitions

* `slots fs`: the occupied slots of all directories
* `Counted fs`: entries, free inodes and the counter

## Main results

* `Counted.step`, `run_counted`: one call, and all calls, keep the count
* `Counted.creates`: a creation succeeds while an inode and a block are free
-/

namespace PekerOS.Pafs

/-- The occupied slots. -/
@[irreducible] def slots (fs : State) : Finset (ℕ × ℕ) :=
  (Finset.range 128 ×ˢ Finset.range 224).filter fun p => fs.dirent p ≠ none

structure Counted (fs : State) : Prop where
  counter : fs.sb.freeInodes.toNat + (slots fs).card = 127
  free : (freeInodes fs).card ≤ fs.sb.freeInodes.toNat

section Slots

variable {fs fs' : State} {d n m : ℕ} {p : ℕ × ℕ}

theorem mem_slots : p ∈ slots fs ↔ fs.dirent p ≠ none := by
  have hrange : fs.dirent p ≠ none → p.1 < 128 ∧ p.2 < 224 := by
    intro h
    obtain ⟨htype, hblock, -⟩ := not_not.mp fun hentry => h (State.dirent_eq_none.mpr hentry)
    refine ⟨State.lt_of_type_ne (by rw [htype]; decide), ?_⟩
    by_contra hs
    exact hblock (fs.block_of_le (by omega))
  unfold slots
  simp only [Finset.mem_filter, Finset.mem_product, Finset.mem_range]
  exact and_iff_right_of_imp hrange

theorem slots_congr (h : ∀ p, fs'.dirent p = fs.dirent p) : slots fs' = slots fs := by
  ext p
  rw [mem_slots, mem_slots, h]

/-- The entries of one directory are among all. -/
theorem Layout.le_card_slots (ht : (fs.inode d).type = pafsTypeDir)
    (hl : Layout fs.disk (fs.inode d) n m) : n ≤ (slots fs).card := by
  have hsub : (Finset.range n).map ⟨fun s => (d, s), fun _ _ heq => (Prod.mk.inj heq).2⟩ ⊆ slots fs := by
    intro p hp
    obtain ⟨s, hs, rfl⟩ := Finset.mem_map.mp hp
    rw [mem_slots]
    change fs.dirent (d, s) ≠ none
    rw [hl.dirent_eq ht, if_pos (Finset.mem_range.mp hs)]
    exact Option.some_ne_none _
  have hle := Finset.card_le_card hsub
  rwa [Finset.card_map, Finset.card_range] at hle

/-- A creation fills one slot that was empty. -/
theorem Created.card_slots {parentIno new : ℕ} {name : CString} {isDir : Bool} {mid : State}
    (h : Inv fs) (hcr : Created fs parentIno name isDir new n m mid fs') :
    (slots fs').card = (slots fs).card + 1 := by
  have hempty : fs.dirent (parentIno, n) = none := by
    rw [← hcr.dirent_mid h, hcr.layout.dirent_eq hcr.dir, if_neg (lt_irrefl n)]
  have hinsert : slots fs' = insert (parentIno, n) (slots fs) := by
    ext p
    rw [Finset.mem_insert, mem_slots, mem_slots, hcr.dirent h]
    by_cases hp : p = (parentIno, n)
    · simp [hp]
    · simp [hp]
  rw [hinsert, Finset.card_insert_of_notMem fun hmem => mem_slots.mp hmem hempty]

/-- A deletion empties the last slot of the parent. -/
theorem Deleted.card_slots {parentIno ino t : ℕ} {name : CString} (h : Inv fs)
    (hdel : Deleted fs parentIno name ino t n m fs') : (slots fs').card + 1 = (slots fs).card := by
  have hlt := hdel.lt
  have hslot : ∀ s, fs.dirent (parentIno, s) ≠ none ↔ s < n := fun s => by
    rw [hdel.layout.dirent_eq hdel.dir]
    by_cases hs : s < n <;> simp [hs]
  have herase : slots fs' = (slots fs).erase (parentIno, n - 1) := by
    ext ⟨d, s⟩
    rw [Finset.mem_erase, mem_slots, mem_slots, hdel.dirent h]
    by_cases hd : d = parentIno
    · subst hd
      rw [if_pos rfl, hslot]
      by_cases hs : s < n - 1
      · rw [if_pos hs, hslot]
        have := dropSource_lt (t := t) hs
        simp only [ne_eq, Prod.mk.injEq, true_and]
        omega
      · rw [if_neg hs]
        simp only [ne_eq, not_true_eq_false, Prod.mk.injEq, true_and, false_iff]
        omega
    · simp [hd]
  rw [herase, Finset.card_erase_add_one (mem_slots.mpr ((hslot _).mpr (by omega)))]

end Slots

namespace Counted

variable {fs fs' : State} {k : Kernel}

theorem congr (hc : Counted fs) (hentry : ∀ p, fs'.dirent p = fs.dirent p)
    (htype : ∀ j, (fs'.inode j).type = (fs.inode j).type)
    (hcount : fs'.sb.freeInodes = fs.sb.freeInodes) : Counted fs' where
  counter := by rw [hcount, slots_congr hentry, hc.counter]
  free := by rw [hcount, freeInodes_congr htype]; exact hc.free

theorem onlyFile {ino : ℕ} (hc : Counted fs) (ho : OnlyFile ino fs fs')
    (ht : (fs.inode ino).type = pafsTypeFile) : Counted fs' := by
  refine hc.congr (ho.dirent (by rw [ht]; decide)) (fun j => ?_) ho.freeInodes
  by_cases hj : j = ino
  · subst hj
    exact ho.type
  · rw [ho.inode j hj]

theorem created {parentIno new n m : ℕ} {name : CString} {isDir : Bool} {mid : State} (h : Inv fs)
    (hc : Counted fs) (hcr : Created fs parentIno name isDir new n m mid fs') : Counted fs' := by
  have hself : (fs'.inode new).type ≠ pafsTypeFree := by
    rw [hcr.type_self]
    cases isDir <;> decide
  have hslots := hcr.card_slots h
  have htake := card_freeInodes_take hcr.new_lt (findFreeInode_free hcr.free) hself fun j hj =>
    hcr.type_ne hj
  have hpos : fs.sb.freeInodes.toNat ≠ 0 := fun h0 => hcr.counter (BitVec.eq_of_toNat_eq h0)
  have hnat : fs'.sb.freeInodes.toNat = fs.sb.freeInodes.toNat - 1 := by
    have hlt := fs.sb.freeInodes.isLt
    rw [hcr.freeInodes_eq, BitVec.toNat_sub]
    simp only [BitVec.toNat_ofNat]
    omega
  have hcounter := hc.counter
  have hfree := hc.free
  exact ⟨by omega, by omega⟩

/-- The inode of the deleted entry may have been free before, if the entry was left by another
deletion. -/
theorem deleted {parentIno ino t n m : ℕ} {name : CString} (h : Inv fs) (hc : Counted fs)
    (hdel : Deleted fs parentIno name ino t n m fs') : Counted fs' := by
  have hslots := hdel.card_slots h
  have hsub : freeInodes fs' ⊆ insert ino (freeInodes fs) := fun j hj => by
    by_cases hji : j = ino
    · exact Finset.mem_insert.mpr (Or.inl hji)
    · rw [mem_freeInodes, hdel.type_ne hji] at hj
      exact Finset.mem_insert_of_mem (mem_freeInodes.mpr hj)
  have hcard := (Finset.card_le_card hsub).trans (Finset.card_insert_le ino (freeInodes fs))
  have hcounter := hc.counter
  have hfree := hc.free
  have hnat : fs'.sb.freeInodes.toNat = fs.sb.freeInodes.toNat + 1 := by
    rw [hdel.freeInodes_eq, BitVec.toNat_add]
    simp only [BitVec.toNat_ofNat]
    omega
  exact ⟨by omega, by omega⟩

theorem create {d : ℕ} (h : Inv k.fs) (hc : Counted k.fs) (hd : d < 128) (name : CString)
    (isDir : Bool) : Counted (pafsCreate k d name isDir).1.fs :=
  pafsCreate_keeps h hd name isDir hc fun hcr => hc.created h hcr

theorem writeFile (h : Inv k.fs) (hc : Counted k.fs) (ino : ℕ) (data : ℕ → Byte) (len : ℤ) :
    Counted (pafsWriteFile k ino data len).1.fs :=
  pafsWriteFile_keeps hc fun ht => hc.onlyFile (h.writeFile ino data len).2 ht

theorem format (fs : State) : Counted (formatState fs) where
  counter := by
    have h := Inv.format fs
    have hnone : slots (formatState fs) = ∅ := Finset.eq_empty_of_forall_notMem fun ⟨d, s⟩ hp => by
      refine mem_slots.mp hp ?_
      by_cases hd : d = 0
      · subst hd
        rw [(layout_format fs).dirent_eq h.rootDir, if_neg (by omega)]
      · refine dirent_of_not_dir ?_
        rw [inode_format_ne fs hd]
        decide
    rw [hnone, freeInodes_format]
    rfl
  free := (Namespace.format fs).counter.ge

/-- **One call** keeps the count. -/
theorem step (h : Inv k.fs) (hc : Counted k.fs) (op : Op) : Counted (step k op).fs := by
  cases op with
  | create parentIno name isDir => exact hc.create h parentIno.isLt name isDir
  | mkdir parentIno name => exact hc.create h parentIno.isLt name true
  | delete parentIno name => exact pafsDelete_keeps h parentIno name hc fun hdel => hc.deleted h hdel
  | write name data len =>
    refine pafsWrite_keeps h name data len hc (fun hcr => hc.created h hcr) fun ino h' hc' => ?_
    exact hc'.writeFile h' ino data len
  | vfsWrite ino offset size buffer =>
    exact pafsVfsWrite_keeps hc fun ht => hc.onlyFile (h.vfsWrite ino offset size buffer).2 ht
  | format =>
    rw [Pafs.step, fs_pafsFormat]
    exact format k.fs

/-- **A creation succeeds** in any directory that does not hold the name, while an inode and a block are
free. -/
theorem creates {d : ℕ} {name : CString} {isDir : Bool} (h : Inv fs) (hc : Counted fs)
    (hd : (fs.inode d).type = pafsTypeDir) (habsent : pafsFindEntry fs d name = -1)
    (hino : findFreeInode fs ≠ none) (hblock : findFreeBlock fs ≠ none) :
    ¬CreateFails fs d name isDir := by
  obtain ⟨new, hnew⟩ := Option.ne_none_iff_exists'.mp hino
  obtain ⟨b, hb⟩ := Option.ne_none_iff_exists'.mp hblock
  obtain ⟨n, m, hl⟩ := h.dirs d hd
  have hlt := h.lt_of_dir hd
  have hmem := Finset.card_pos.mpr
    ⟨new, mem_freeInodes.mpr ⟨findFreeInode_lt hnew, findFreeInode_free hnew⟩⟩
  have hcounter := hc.counter
  have hfree := hc.free
  have hentries := hl.le_card_slots hd
  have hle := hl.le
  -- the three ways to fail: the counter, the name, and no slot
  rintro (h0 | hfound | hadd)
  · rw [h0] at hfree
    exact absurd (hmem.trans_le hfree) (lt_irrefl 0)
  · exact hfound habsent
  · refine hadd new hnew ?_
    have hne : d ≠ new := by
      rintro rfl
      rw [findFreeInode_free hnew] at hd
      exact absurd hd (by decide)
    have hsame := inode_newInode_ne fs hne isDir
    have hl' : Layout (newInode fs new isDir).disk ((newInode fs new isDir).inode d) n m :=
      hsame.symm ▸ hl
    rw [pafsAddEntry_eq hlt (by rw [hsame]; exact hd) hl', addEntryResult]
    split
    · rfl
    · -- the blocks are full, but there are fewer entries than slots
      have hb' : findFreeBlock (newInode fs new isDir) = some b := hb
      rw [if_pos (by omega), hb']

end Counted

/-- **The count holds in every reachable state.** -/
theorem run_counted (k₀ : Kernel) (ops : List Op) : Counted (run (pafsFormat k₀) ops).fs := by
  refine (invariant_run (I := fun k : Kernel => Inv k.fs ∧ Counted k.fs)
    (fun h => ⟨h.1.step _, h.2.step h.1 _⟩) ?_).2
  rw [fs_pafsFormat]
  exact ⟨Inv.format k₀.fs, Counted.format k₀.fs⟩

end PekerOS.Pafs
