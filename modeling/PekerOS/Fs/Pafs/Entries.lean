import PekerOS.Fs.Pafs.Steps

/-!
# PAFS: the entries of all directories

The directory entries of a state as one function of inode and slot, and what each operation does to
it: creation fills one slot, deletion empties the last slot of a directory and fills the deleted one
from where `dropSource` says, and writing a file changes no entry.

## Main definitions

* `IsEntry fs d s`, `entryTarget fs d s`: the occupied slots of a directory and what they name
* `State.dirent`: inode number and name in every slot

## Main results

* `dirent_newInode`, `dirent_growDir`, `dirent_putEntry`, `dirent_dropEntry`, `dirent_releaseInode`:
  the entries after each piece of an operation
* `Created.dirent`, `Deleted.dirent`, `OnlyFile.dirent`: the entries after each operation
* `Created.type_ne`, `Deleted.type_ne`: only the inode of the call changes its type
-/

namespace PekerOS.Pafs

/-- Slot `s` of inode `d` lies in an allocated block of a directory and is occupied. -/
def IsEntry (fs : State) (d s : ℕ) : Prop :=
  (fs.inode d).type = pafsTypeDir ∧ fs.block d (s / 16) ≠ 0#32 ∧
    slotInode fs.disk (fs.inode d) s ≠ 0#32

instance (fs : State) (d s : ℕ) : Decidable (IsEntry fs d s) := by
  unfold IsEntry
  infer_instance

/-- The inode that slot `s` of directory `d` names. -/
def entryTarget (fs : State) (d s : ℕ) : ℕ := (slotInode fs.disk (fs.inode d) s).toNat

/-- The name in slot `s` of directory `d`. -/
def entryNameAt (fs : State) (d s : ℕ) : List Byte := slotName fs.disk (fs.inode d) s

/-- The entry in slot `p.2` of directory `p.1`: inode number and name. -/
def State.dirent (fs : State) (p : ℕ × ℕ) : Option (ℕ × List Byte) :=
  if IsEntry fs p.1 p.2 then some (entryTarget fs p.1 p.2, entryNameAt fs p.1 p.2) else none

section Entries

variable {fs fs' : State} {d s n m : ℕ}

theorem State.dirent_eq_some {e : ℕ × List Byte} : fs.dirent (d, s) = some e ↔
    IsEntry fs d s ∧ entryTarget fs d s = e.1 ∧ entryNameAt fs d s = e.2 := by
  obtain ⟨i, name⟩ := e
  unfold State.dirent
  split <;> simp_all

theorem State.dirent_eq_none : fs.dirent (d, s) = none ↔ ¬IsEntry fs d s := by
  unfold State.dirent
  split <;> simp_all

/-- The entries of a directory are the slots below `n`. -/
theorem Layout.isEntry_iff (ht : (fs.inode d).type = pafsTypeDir)
    (hl : Layout fs.disk (fs.inode d) n m) (s : ℕ) : IsEntry fs d s ↔ s < n := by
  have hle := hl.le
  constructor
  · rintro ⟨-, hblock, hne⟩
    have hm : s / 16 < m := by
      by_contra hm
      exact hblock (hl.block_eq_zero (by omega))
    exact (hl.occupied s (by omega)).mp hne
  · intro hs
    exact ⟨ht, hl.block_ne_zero (by omega), (hl.occupied s (by omega)).mpr hs⟩

/-- The entries of a directory with a layout. -/
theorem Layout.dirent_eq (ht : (fs.inode d).type = pafsTypeDir)
    (hl : Layout fs.disk (fs.inode d) n m) (s : ℕ) :
    fs.dirent (d, s) = if s < n then some (entryTarget fs d s, entryNameAt fs d s) else none := by
  simp only [State.dirent, hl.isEntry_iff ht]

/-- The entries of an inode depend on its record and its blocks. -/
theorem dirent_congr (hinode : fs'.inode d = fs.inode d)
    (hdata : ∀ u, fs.block d u ≠ 0#32 →
      fs'.disk (fs.block d u).toNat = fs.disk (fs.block d u).toNat) :
    fs'.dirent (d, s) = fs.dirent (d, s) := by
  have hblock : fs'.block d (s / 16) = fs.block d (s / 16) := by
    rw [State.block, hinode, State.block]
  by_cases h0 : fs.block d (s / 16) = 0#32
  · rw [State.dirent_eq_none.mpr fun h => h.2.1 (hblock.trans h0),
      State.dirent_eq_none.mpr fun h => h.2.1 h0]
  · have hslot : slotBlock fs'.disk (fs.inode d) s = slotBlock fs.disk (fs.inode d) s :=
      hdata (s / 16) h0
    have hentry : IsEntry fs' d s ↔ IsEntry fs d s := by
      simp only [IsEntry, slotInode, hblock, hinode, hslot]
    simp only [State.dirent, hentry]
    simp only [entryTarget, entryNameAt, slotInode, slotName, hinode, hslot]

/-- An entry copied from another slot. -/
theorem SlotFrom.entry {d' s' : ℕ} (h : SlotFrom fs.disk (fs.inode d) s fs'.disk (fs'.inode d') s')
    (hlen : (slotName fs.disk (fs.inode d) s).length ≤ 27) :
    (entryTarget fs' d' s', entryNameAt fs' d' s') = (entryTarget fs d s, entryNameAt fs d s) := by
  simp only [entryTarget, entryNameAt, h.inode, h.name hlen]

/-- An inode that is not a directory has no entries. -/
theorem dirent_of_not_dir (ht : (fs.inode d).type ≠ pafsTypeDir) : fs.dirent (d, s) = none :=
  State.dirent_eq_none.mpr fun h => ht h.1

end Entries

/-! ## Entries after each piece of an operation -/

section Pieces

variable {fs fs' : State} {d n m ino : ℕ} {name : CString}

theorem dirent_sameData (h : Inv fs) (hs : State.SameData fs fs') (p : ℕ × ℕ) :
    fs'.dirent p = fs.dirent p :=
  dirent_congr (hs.inode p.1) fun _ hb => hs.data _ (h.data hb)

/-- Writing a file leaves the entries alone. -/
theorem OnlyFile.dirent (ho : OnlyFile ino fs fs') (ht : (fs.inode ino).type ≠ pafsTypeDir)
    (p : ℕ × ℕ) : fs'.dirent p = fs.dirent p := by
  by_cases hp : p.1 = ino
  · obtain ⟨d, s⟩ := p
    obtain rfl : d = ino := hp
    rw [dirent_of_not_dir ht, dirent_of_not_dir (by rw [ho.type]; exact ht)]
  · exact dirent_congr (ho.inode p.1 hp) fun u hb => ho.data p.1 hp u hb

/-- A new inode has no blocks, so no entries. -/
theorem dirent_newInode (h : Inv fs) (hlt : ino < 128) (hfree : (fs.inode ino).type = pafsTypeFree)
    (isDir : Bool) (p : ℕ × ℕ) : (newInode fs ino isDir).dirent p = fs.dirent p := by
  obtain ⟨d, s⟩ := p
  by_cases hd : d = ino
  · subst hd
    have hblock := h.block_newInode hlt hfree isDir d (s / 16)
    have hzero : fs.block d (s / 16) = 0#32 := by
      rw [State.block, h.free d hfree]
      exact Table.get_default _
    rw [State.dirent_eq_none.mpr fun he => he.2.1 (hblock.trans hzero),
      State.dirent_eq_none.mpr fun he => he.2.1 hzero]
  · exact dirent_congr (inode_newInode_ne fs hd isDir) fun _ _ => rfl

/-- A new block is empty. -/
theorem dirent_growDir {b : ℕ} (h : Inv fs) (ht : (fs.inode d).type = pafsTypeDir)
    (hl : Layout fs.disk (fs.inode d) n m) (hm : m < 14) (hb : findFreeBlock fs = some b)
    (p : ℕ × ℕ) : (growDir fs d m b).dirent p = fs.dirent p := by
  obtain ⟨d', s⟩ := p
  have hd := h.lt_of_dir ht
  obtain ⟨-, hclear⟩ := mem_clearBits_of_findFreeBlock hb
  by_cases hdd : d' = d
  · subst hdd
    have ht' : ((growDir fs d' m b).inode d').type = pafsTypeDir := by
      rw [inode_growDir_self hd]
      exact ht
    rw [(h.grow ht hl hm hb).2.dirent_eq ht', hl.dirent_eq ht]
    by_cases hs : s < n
    · have hle := hl.le
      have hfrom := slotFrom_growDir hd hl (h.separate d')
        (fun i hi => h.fresh (i := d') hclear hi) (show s < 16 * m by omega)
      rw [if_pos hs, if_pos hs, hfrom.entry (hl.name s hs)]
    · rw [if_neg hs, if_neg hs]
  · exact dirent_congr (inode_growDir_ne hdd) fun u hu =>
      disk_growDir_ne (h.data hu) (h.fresh hclear hu)

/-- Slot `n` is filled. -/
theorem dirent_putEntry (h : Inv fs) (ht : (fs.inode d).type = pafsTypeDir)
    (hl : Layout fs.disk (fs.inode d) n m) (hn : n < 16 * m) (hpos : 0 < ino) (hino : ino < 128)
    (p : ℕ × ℕ) :
    (putEntry fs d n name ino).dirent p =
      if p = (d, n) then some (ino, name.chars.take 27) else fs.dirent p := by
  obtain ⟨d', s⟩ := p
  have hd := h.lt_of_dir ht
  by_cases hdd : d' = d
  · subst hdd
    have ht' : ((putEntry fs d' n name ino).inode d').type = pafsTypeDir := by
      rw [inode_putEntry_self name ino hd]
      exact ht
    rw [(h.put ht hl hn hpos hino).2.dirent_eq ht', hl.dirent_eq ht]
    by_cases hs : s = n
    · subst hs
      rw [if_pos (by omega), if_pos rfl, entryTarget, entryNameAt,
        slotInode_putEntry_self name ino hd hl hn (h.separate d'),
        slotName_putEntry_self name ino hd hl hn (h.separate d'), toNat_ofNat_of_lt (by omega)]
    · rw [if_neg fun heq => hs (Prod.mk.inj heq).2]
      by_cases hsn : s < n
      · have hfrom := slotFrom_putEntry name ino hd hl hn (h.separate d')
          (show s < 16 * m by omega) hs
        rw [if_pos (by omega), if_pos hsn, hfrom.entry (hl.name s hsn)]
      · rw [if_neg (by omega), if_neg hsn]
  · rw [if_neg fun heq => hdd (Prod.mk.inj heq).1]
    exact dirent_congr (inode_putEntry_ne name ino hdd) fun u hu =>
      disk_putEntry_ne name ino hd (h.data hu) fun heq => hdd (h.inj hu heq).1

/-- Slot `n - 1` is emptied, and the others come from where `dropSource` says. -/
theorem dirent_dropEntry {t : ℕ} (h : Inv fs) (ht : (fs.inode d).type = pafsTypeDir)
    (hl : Layout fs.disk (fs.inode d) n m) (htn : t < n) (p : ℕ × ℕ) :
    (dropEntry fs d t n).dirent p =
      if p.1 = d then (if p.2 < n - 1 then fs.dirent (d, dropSource t n p.2) else none)
      else fs.dirent p := by
  obtain ⟨d', s⟩ := p
  have hd := h.lt_of_dir ht
  have hle := hl.le
  by_cases hdd : d' = d
  · subst hdd
    have ht' : ((dropEntry fs d' t n).inode d').type = pafsTypeDir := by
      rw [inode_dropEntry_self hd]
      exact ht
    rw [(h.drop ht hl htn).2.dirent_eq ht', if_pos rfl]
    by_cases hs : s < n - 1
    · have hfrom := slotFrom_dropEntry hd hl (h.separate d') htn (show s < 16 * m by omega)
        (by omega)
      rw [if_pos hs, if_pos hs, hl.dirent_eq ht, if_pos (dropSource_lt hs),
        hfrom.entry (hl.name _ (dropSource_lt hs))]
    · rw [if_neg hs, if_neg hs]
  · rw [if_neg hdd]
    exact dirent_congr (inode_dropEntry_ne hdd) fun u hu =>
      disk_dropEntry_ne hd (h.data hu) (fun heq => hdd (h.inj hu heq).1)
        fun heq => hdd (h.inj hu heq).1

/-- An empty directory or a file has no entries to lose. -/
theorem dirent_releaseInode (h : Inv fs) (hlt : ino < 128)
    (hempty : (fs.inode ino).type = pafsTypeDir → (fs.inode ino).size = 0#32) (p : ℕ × ℕ) :
    (releaseInode fs ino).dirent p = fs.dirent p := by
  obtain ⟨d, s⟩ := p
  by_cases hd : d = ino
  · subst hd
    have hafter : (releaseInode fs d).dirent (d, s) = none := by
      refine dirent_of_not_dir ?_
      rw [inode_releaseInode_self fs hlt]
      decide
    rw [hafter]
    by_cases ht : (fs.inode d).type = pafsTypeDir
    · obtain ⟨n, m, hl⟩ := h.dirs d ht
      rw [hl.dirent_eq ht, if_neg (by rw [hl.size_eq_zero.mp (hempty ht)]; omega)]
    · exact (dirent_of_not_dir ht).symm
  · refine dirent_congr (inode_releaseInode_ne fs hlt hd) fun _ _ => ?_
    rw [disk_releaseInode fs hlt]

theorem type_growDir {b : ℕ} (hd : d < 128) (j : ℕ) :
    ((growDir fs d m b).inode j).type = (fs.inode j).type :=
  State.type_setBlock _ hd _

theorem type_putEntry (hd : d < 128) (j : ℕ) :
    ((putEntry fs d n name ino).inode j).type = (fs.inode j).type :=
  State.type_setSize _ hd _

theorem type_dropEntry {t : ℕ} (hd : d < 128) (j : ℕ) :
    ((dropEntry fs d t n).inode j).type = (fs.inode j).type := by
  by_cases hj : j = d
  · subst hj
    rw [inode_dropEntry_self hd]
  · rw [inode_dropEntry_ne hj]

theorem freeInodes_dropEntry {t : ℕ} : (dropEntry fs d t n).sb.freeInodes = fs.sb.freeInodes := by
  unfold dropEntry
  dsimp only
  split <;> rfl

end Pieces

/-! ## Entries after each operation -/

section Create

variable {fs fs' mid : State} {parentIno new n m : ℕ} {name : CString} {isDir : Bool}

theorem Created.type_newInode (hcr : Created fs parentIno name isDir new n m mid fs') (j : ℕ) :
    (fs'.inode j).type = ((newInode fs new isDir).inode j).type := by
  rw [hcr.result, (State.SameData.saveInode hcr.new_lt).inode, type_putEntry hcr.parent_lt]
  rcases hcr.mid_eq with heq | ⟨m', b, -, -, -, -, -, heq⟩
  · rw [heq]
  · rw [heq, type_growDir hcr.parent_lt]

theorem Created.type_ne (hcr : Created fs parentIno name isDir new n m mid fs') {j : ℕ}
    (hj : j ≠ new) : (fs'.inode j).type = (fs.inode j).type := by
  rw [hcr.type_newInode, inode_newInode_ne fs hj]

theorem Created.type_self (hcr : Created fs parentIno name isDir new n m mid fs') :
    (fs'.inode new).type = if isDir then pafsTypeDir else pafsTypeFile := by
  rw [hcr.type_newInode, inode_newInode_self fs hcr.new_lt]

/-- The parent of a creation is a directory, so what is a file afterwards is not the parent. -/
theorem Created.ne_parent (hcr : Created fs parentIno name isDir new n m mid fs') {j : ℕ}
    (ht : (fs'.inode j).type = pafsTypeFile) : j ≠ parentIno := by
  rintro rfl
  rw [hcr.result, (State.SameData.saveInode hcr.new_lt).inode, type_putEntry hcr.parent_lt,
    hcr.dir] at ht
  exact absurd ht (by decide)

/-- A creation changes no inode but the new one and the parent. -/
theorem Created.inode_ne (hcr : Created fs parentIno name isDir new n m mid fs') {j : ℕ}
    (hnew : j ≠ new) (hparent : j ≠ parentIno) : fs'.inode j = fs.inode j := by
  rw [hcr.result, (State.SameData.saveInode hcr.new_lt).inode, inode_putEntry_ne name new hparent]
  rcases hcr.mid_eq with heq | ⟨m', b, -, -, -, -, -, heq⟩
  · rw [heq, inode_newInode_ne fs hnew]
  · rw [heq, inode_growDir_ne hparent, inode_newInode_ne fs hnew]

/-- The new inode, when it is not its own parent. -/
theorem Created.inode_new (hcr : Created fs parentIno name isDir new n m mid fs')
    (hne : new ≠ parentIno) :
    fs'.inode new = ⟨if isDir then pafsTypeDir else pafsTypeFile, 0#32, default⟩ := by
  rw [hcr.result, (State.SameData.saveInode hcr.new_lt).inode, inode_putEntry_ne name new hne]
  rcases hcr.mid_eq with heq | ⟨m', b, -, -, -, -, -, heq⟩
  · rw [heq, inode_newInode_self fs hcr.new_lt]
  · rw [heq, inode_growDir_ne hne, inode_newInode_self fs hcr.new_lt]

theorem Created.freeInodes_eq (hcr : Created fs parentIno name isDir new n m mid fs') :
    fs'.sb.freeInodes = fs.sb.freeInodes - 1#32 := by
  rw [hcr.result]
  rcases hcr.mid_eq with rfl | ⟨m', b, -, -, -, -, -, rfl⟩ <;> rfl

theorem Created.dirent_mid (h : Inv fs) (hcr : Created fs parentIno name isDir new n m mid fs')
    (p : ℕ × ℕ) : mid.dirent p = fs.dirent p := by
  have hfree := findFreeInode_free hcr.free
  have hnew := dirent_newInode h hcr.new_lt hfree isDir p
  rcases hcr.mid_eq with heq | ⟨m', b, -, -, hm, hb, hl, heq⟩
  · rw [heq, hnew]
  · have ht : ((newInode fs new isDir).inode parentIno).type = pafsTypeDir := by
      have := hcr.dir
      rwa [heq, type_growDir hcr.parent_lt] at this
    rw [heq, dirent_growDir (h.newInode hcr.new_lt hfree isDir) ht hl hm hb, hnew]

/-- A creation fills one slot. -/
theorem Created.dirent (h : Inv fs) (hcr : Created fs parentIno name isDir new n m mid fs')
    (p : ℕ × ℕ) :
    fs'.dirent p = if p = (parentIno, n) then some (new, name.chars.take 27) else fs.dirent p := by
  have hpos := hcr.new_pos h
  have hput := (@Inv.put _ _ _ _ name _ hcr.inv hcr.dir hcr.layout hcr.room hpos hcr.new_lt).1
  rw [hcr.result, dirent_sameData hput (State.SameData.saveInode hcr.new_lt),
    dirent_putEntry hcr.inv hcr.dir hcr.layout hcr.room hpos hcr.new_lt, hcr.dirent_mid h]

end Create

section Delete

variable {fs fs' : State} {parentIno ino t n m : ℕ} {name : CString}

theorem Deleted.type_ne (hdel : Deleted fs parentIno name ino t n m fs') {j : ℕ} (hj : j ≠ ino) :
    (fs'.inode j).type = (fs.inode j).type := by
  rw [hdel.sameData.inode, type_dropEntry hdel.release.parent_lt, inode_releaseInode_ne fs hdel.ino_lt hj]

theorem Deleted.type_self (hdel : Deleted fs parentIno name ino t n m fs') :
    (fs'.inode ino).type = pafsTypeFree := by
  rw [hdel.sameData.inode, type_dropEntry hdel.release.parent_lt, inode_releaseInode_self fs hdel.ino_lt]
  rfl

/-- The deleted inode is free and its parent a directory, so what is a file afterwards is neither. -/
theorem Deleted.ne_of_file (hdel : Deleted fs parentIno name ino t n m fs') {j : ℕ}
    (ht : (fs'.inode j).type = pafsTypeFile) : j ≠ parentIno ∧ j ≠ ino := by
  have hino : j ≠ ino := by
    rintro rfl
    rw [hdel.type_self] at ht
    exact absurd ht (by decide)
  refine ⟨?_, hino⟩
  rintro rfl
  rw [hdel.type_ne hino, hdel.dir] at ht
  exact absurd ht (by decide)

/-- A deletion changes no inode but the deleted one and the parent. -/
theorem Deleted.inode_other (hdel : Deleted fs parentIno name ino t n m fs') {j : ℕ}
    (hd : j ≠ parentIno) (hino : j ≠ ino) : fs'.inode j = fs.inode j := by
  rw [hdel.sameData.inode, inode_dropEntry_ne hd, inode_releaseInode_ne fs hdel.ino_lt hino]

theorem Deleted.freeInodes_eq (hdel : Deleted fs parentIno name ino t n m fs') :
    fs'.sb.freeInodes = fs.sb.freeInodes + 1#32 := by
  have hsave : fs'.sb.freeInodes = (dropEntry (releaseInode fs ino) parentIno t n).sb.freeInodes := by
    rw [hdel.result]
    rfl
  rw [hsave, freeInodes_dropEntry, freeInodes_releaseInode fs hdel.ino_lt]

/-- The entries after a deletion. -/
theorem Deleted.dirent (h : Inv fs) (hdel : Deleted fs parentIno name ino t n m fs') (p : ℕ × ℕ) :
    fs'.dirent p =
      if p.1 = parentIno then
        (if p.2 < n - 1 then fs.dirent (parentIno, dropSource t n p.2) else none)
      else fs.dirent p := by
  have hrel := h.releaseInode hdel.ino_lt hdel.ino_ne_zero
  rw [dirent_sameData (hdel.inv_drop h) hdel.sameData, dirent_dropEntry hrel hdel.release.dir
    hdel.release.layout hdel.lt]
  simp only [dirent_releaseInode h hdel.ino_lt hdel.empty]

end Delete

end PekerOS.Pafs
