import PekerOS.Fs.Pafs.Names
import PekerOS.Fs.Pafs.Room

/-!
# PAFS: a file that is new in the root

`pafs_write` with no bytes makes an empty file of a name that the root does not hold. Its entry is the last
one of the root and holds the first 27 characters of the name. Lookup takes the first entry of a name, so
what was found is still found, and the new file is found under those characters unless another entry holds
them.

## Main definitions

* `Entered fs fs' new n w`: the free inode `new` is an empty file, entered as `w` in slot `n` of the root

## Main results

* `pafsFindEntry_eq_first_iff`: lookup finds the first entry
* `Entered.findEntry_found`, `Entered.findEntry_new`, `Entered.findEntry_missing`: lookup afterwards
* `entered_of_created`: what `pafs_write` does with no bytes, once it has created a file
-/

namespace PekerOS.Pafs

section Lookup

variable {fs fs' : State} {d : ℕ} {name : CString}

/-- Lookup finds the first entry of the name. -/
theorem pafsFindEntry_eq_first_iff (h : Inv fs) (i : ℕ) : pafsFindEntry fs d name = i ↔
    ∃ t, fs.dirent (d, t) = some (i, name.chars) ∧
      ∀ s < t, ∀ e, fs.dirent (d, s) = some e → e.2 ≠ name.chars := by
  have hfound : ∀ {ino t n m}, Found fs d name ino t n m →
      ∀ s < t, ∀ e, fs.dirent (d, s) = some e → e.2 ≠ name.chars := by
    intro ino t n m hf s hs e he
    obtain ⟨-, -, hname⟩ := State.dirent_eq_some.mp he
    rw [← hname]
    exact hf.first s hs
  constructor
  · intro hfind
    rcases h.findEntry_cases d name with hnone | ⟨ino, t, n, m, hino, hf⟩
    · omega
    · obtain rfl : ino = i := by omega
      exact ⟨t, hf.dirent, hfound hf⟩
  · rintro ⟨t, he, hfirst⟩
    rcases h.findEntry_cases d name with hnone | ⟨ino, t', n, m, hino, hf⟩
    · exact absurd rfl ((pafsFindEntry_eq_neg_one_iff h d name).mp hnone t _ he)
    · -- neither of two first entries is before the other
      obtain hlt | rfl | hlt := lt_trichotomy t t'
      · exact absurd rfl (hfound hf t hlt _ he)
      · rw [hino, (Prod.mk.inj (Option.some.inj (hf.dirent.symm.trans he))).1]
      · exact absurd rfl (hfirst t' hlt _ hf.dirent)

end Lookup

/-- The free inode `new` has become an empty file, and slot `n` of the root, the first one that was empty,
names it `w`. -/
structure Entered (fs fs' : State) (new n : ℕ) (w : List Byte) : Prop where
  wasFree : (fs.inode new).type = pafsTypeFree
  type : (fs'.inode new).type = pafsTypeFile
  size : (fs'.inode new).size = 0#32
  inode : ∀ j, j ≠ 0 → j ≠ new → fs'.inode j = fs.inode j
  rootInode : fs'.sb.rootInode = fs.sb.rootInode
  vacant : ∀ s, n ≤ s → fs.dirent (0, s) = none
  dirent : ∀ p, fs'.dirent p = if p = (0, n) then some (new, w) else fs.dirent p

namespace Entered

variable {fs fs' : State} {d new n : ℕ} {w : List Byte} {name : CString}

/-- What was found is found at the inode it had. -/
theorem findEntry_found (he : Entered fs fs' new n w) (h : Inv fs) (h' : Inv fs')
    (hfound : pafsFindEntry fs d name ≠ -1) : pafsFindEntry fs' d name = pafsFindEntry fs d name := by
  obtain ⟨ino, t, -, -, hino, -⟩ := (h.findEntry_cases d name).resolve_left hfound
  obtain ⟨t, ht, hfirst⟩ := (pafsFindEntry_eq_first_iff h ino).mp hino
  -- the new entry of the root is behind the others
  have hne : ∀ s ≤ t, (d, s) ≠ (0, n) := by
    intro s hs heq
    obtain ⟨rfl, rfl⟩ := Prod.mk.inj heq
    rw [he.vacant t hs] at ht
    cases ht
  rw [hino, pafsFindEntry_eq_first_iff h']
  refine ⟨t, by rw [he.dirent, if_neg (hne t le_rfl), ht], fun s hs e hentry => ?_⟩
  rw [he.dirent, if_neg (hne s hs.le)] at hentry
  exact hfirst s hs e hentry

/-- The new file is found if its name was not. -/
theorem findEntry_new (he : Entered fs fs' new n w) (h : Inv fs) (h' : Inv fs') (hw : name.chars = w)
    (habsent : pafsFindEntry fs 0 name = -1) : pafsFindEntry fs' 0 name = new := by
  rw [pafsFindEntry_eq_first_iff h']
  refine ⟨n, by rw [he.dirent, if_pos rfl, hw], fun s hs e hentry => ?_⟩
  rw [he.dirent, if_neg fun heq => hs.ne (Prod.mk.inj heq).2] at hentry
  exact (pafsFindEntry_eq_neg_one_iff h 0 name).mp habsent s e hentry

/-- No other name is found that was not. -/
theorem findEntry_missing (he : Entered fs fs' new n w) (h : Inv fs) (h' : Inv fs')
    (hother : ¬(d = 0 ∧ name.chars = w)) (habsent : pafsFindEntry fs d name = -1) :
    pafsFindEntry fs' d name = -1 := by
  rw [pafsFindEntry_eq_neg_one_iff h']
  intro s e hentry hname
  rw [he.dirent] at hentry
  split at hentry
  · next heq =>
    obtain ⟨rfl, -⟩ := Prod.mk.inj heq
    obtain rfl := Option.some.inj hentry
    exact hother ⟨rfl, hname.symm⟩
  · exact (pafsFindEntry_eq_neg_one_iff h d name).mp habsent s e hentry hname

end Entered

section Write

variable {k : Kernel} {mid : State} {fs : State} {new n m : ℕ} {name : CString}

/-- Writing no bytes to a file empties it. -/
theorem fs_pafsWriteFile_zero {data : ℕ → Byte} {ino : ℕ} (ht : (k.fs.inode ino).type = pafsTypeFile) :
    (pafsWriteFile k ino data 0).1.fs = pafsSaveInode (k.fs.setSize ino 0#32) ino :=
  fs_pafsWriteFile ht

/-- **A file created and given no bytes.** -/
theorem entered_of_created {data : ℕ → Byte} (h : Inv fs)
    (hcr : Created fs 0 name false new n m mid k.fs) :
    Entered fs (pafsWriteFile k new data 0).1.fs new n (name.chars.take 27) := by
  have hpos := hcr.new_pos h
  have ht : (k.fs.inode new).type = pafsTypeFile := hcr.type_self
  have ho := ((hcr.inv_result h).writeFile new data 0).2
  have hroom := hcr.room
  refine ⟨findFreeInode_free hcr.free, ho.type.trans ht, ?_, fun j hj hnew => ?_, ?_, fun s hs => ?_,
    fun p => ?_⟩
  · rw [fs_pafsWriteFile_zero ht, (State.SameData.saveInode hcr.new_lt).inode,
      State.inode_setSize_self _ hcr.new_lt]
  · rw [ho.inode j hnew, hcr.inode_ne hnew hj]
  · rw [ho.rootInode, (hcr.inv_result h).root, h.root]
  · rw [← hcr.dirent_mid h, hcr.layout.dirent_eq hcr.dir, if_neg (Nat.not_lt.mpr hs)]
  · rw [ho.dirent (by rw [ht]; decide), hcr.dirent h]

end Write

end PekerOS.Pafs
