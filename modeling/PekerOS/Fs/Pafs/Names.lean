import PekerOS.Fs.Pafs.Entries

/-!
# PAFS: names

`pafs_create` looks the whole name up and stores its first 27 characters. For a name that fits the
two agree: the new entry is found again, and no directory ever holds a name twice. A longer name is
never found, so it can be created again and again.

## Main definitions

* `UniqueNames fs`: no directory holds two entries of one name
* `ShortName op`: the name that the call may store fits into an entry

## Main results

* `pafsFindEntry_eq_neg_one_iff`: lookup fails exactly when no entry has the name
* `Created.findEntry`, `pafsFindEntry_long`: lookup of a short and of a long name
* `create_lookup_agree_iff`: **creation and lookup agree exactly on the names that fit**
-/

namespace PekerOS.Pafs

def UniqueNames (fs : State) : Prop :=
  ∀ d s s', IsEntry fs d s → IsEntry fs d s' → entryNameAt fs d s = entryNameAt fs d s' → s = s'

/-- The name of a call that may create an entry has at most 27 characters. -/
def ShortName : Op → Prop
  | .create _ name _ => name.chars.length ≤ 27
  | .mkdir _ name => name.chars.length ≤ 27
  | .write name _ _ => name.chars.length ≤ 27
  | _ => True

/-! ## Lookup -/

section Lookup

variable {fs fs' mid : State} {d ino new t n m : ℕ} {name : CString} {isDir : Bool}

theorem Found.dirent (hf : Found fs d name ino t n m) :
    fs.dirent (d, t) = some (ino, name.chars) := by
  rw [hf.layout.dirent_eq hf.dir, if_pos hf.lt, entryTarget, hf.target, entryNameAt, hf.named]

theorem pafsFindEntry_eq_neg_one_iff (h : Inv fs) (d : ℕ) (name : CString) :
    pafsFindEntry fs d name = -1 ↔ ∀ s e, fs.dirent (d, s) = some e → e.2 ≠ name.chars := by
  constructor
  · intro hnone s e he
    obtain ⟨hentry, -, hname⟩ := State.dirent_eq_some.mp he
    obtain ⟨n, m, hl⟩ := h.dirs d hentry.1
    rcases @pafsFindEntry_cases _ name _ _ _ hentry.1 hl with ⟨-, hall⟩ | ⟨t, -, -, hfind, -⟩
    · rw [← hname]
      exact hall s ((hl.isEntry_iff hentry.1 s).mp hentry)
    · omega
  · intro hall
    rcases h.findEntry_cases d name with hnone | ⟨ino, t, n, m, -, hf⟩
    · exact hnone
    · exact absurd rfl (hall t _ hf.dirent)

/-- The stored names are short, so a long one is not among them. -/
theorem pafsFindEntry_long (h : Inv fs) (d : ℕ) (hlen : 27 < name.chars.length) :
    pafsFindEntry fs d name = -1 := by
  rcases h.findEntry_cases d name with hnone | ⟨ino, t, n, m, -, hf⟩
  · exact hnone
  · have := hf.layout.name t hf.lt
    rw [hf.named] at this
    omega

/-- A new entry whose name fits is found. -/
theorem Created.findEntry (h : Inv fs) (hcr : Created fs d name isDir new n m mid fs')
    (hlen : name.chars.length ≤ 27) : pafsFindEntry fs' d name = (new : ℕ) := by
  have htake : name.chars.take 27 = name.chars := List.take_of_length_le hlen
  have habsent := (pafsFindEntry_eq_neg_one_iff h d name).mp hcr.absent
  have hnew := hcr.dirent h (d, n)
  rw [if_pos rfl, htake] at hnew
  rcases (hcr.inv_result h).findEntry_cases d name with hnone | ⟨ino, t, n', m', hfind, hf⟩
  · exact absurd rfl ((pafsFindEntry_eq_neg_one_iff (hcr.inv_result h) d name).mp hnone n _ hnew)
  · have hdirent := hf.dirent
    rw [hcr.dirent h] at hdirent
    split at hdirent
    · obtain ⟨rfl, -⟩ := Prod.mk.inj (Option.some.inj hdirent)
      exact hfind
    · exact absurd rfl (habsent t _ hdirent)

/-- A name that is found is not created again. -/
theorem pafsCreate_of_found {k : Kernel} (hfound : pafsFindEntry k.fs d name ≠ -1) :
    (pafsCreate k d name isDir).2 = -1 := by
  by_cases hc : k.fs.sb.freeInodes = 0#32
  · simp [pafsCreate, hc]
  · simp [pafsCreate, hc, hfound]

end Lookup

/-! ## Uniqueness -/

section Unique

variable {fs fs' mid : State} {d ino new t n m : ℕ} {name : CString} {isDir : Bool}

theorem uniqueNames_iff : UniqueNames fs ↔ ∀ d s s' e e', fs.dirent (d, s) = some e →
    fs.dirent (d, s') = some e' → e.2 = e'.2 → s = s' := by
  constructor
  · intro hu d s s' e e' he he' hname
    obtain ⟨hs, -, hn⟩ := State.dirent_eq_some.mp he
    obtain ⟨hs', -, hn'⟩ := State.dirent_eq_some.mp he'
    exact hu d s s' hs hs' (hn.trans (hname.trans hn'.symm))
  · intro hu d s s' hs hs' hname
    exact hu d s s' (entryTarget fs d s, entryNameAt fs d s) (entryTarget fs d s', entryNameAt fs d s')
      (State.dirent_eq_some.mpr ⟨hs, rfl, rfl⟩) (State.dirent_eq_some.mpr ⟨hs', rfl, rfl⟩) hname

theorem UniqueNames.congr (hu : UniqueNames fs) (h : ∀ p, fs'.dirent p = fs.dirent p) :
    UniqueNames fs' := by
  rw [uniqueNames_iff] at hu ⊢
  simpa only [h] using hu

theorem UniqueNames.created (h : Inv fs) (hu : UniqueNames fs)
    (hcr : Created fs d name isDir new n m mid fs') (hlen : name.chars.length ≤ 27) :
    UniqueNames fs' := by
  have htake : name.chars.take 27 = name.chars := List.take_of_length_le hlen
  have habsent := (pafsFindEntry_eq_neg_one_iff h d name).mp hcr.absent
  rw [uniqueNames_iff] at hu ⊢
  intro d' s s' e e' he he' hname
  rw [hcr.dirent h, htake] at he he'
  split at he <;> split at he'
  · next hp hp' => exact (Prod.mk.inj (hp.trans hp'.symm)).2
  · next hp hp' =>
    obtain ⟨rfl, rfl⟩ := Prod.mk.inj hp
    obtain rfl := Option.some.inj he
    exact absurd hname.symm (habsent s' e' he')
  · next hp hp' =>
    obtain ⟨rfl, rfl⟩ := Prod.mk.inj hp'
    obtain rfl := Option.some.inj he'
    exact absurd hname (habsent s e he)
  · exact hu d' s s' e e' he he' hname

/-- A removal copies no entry to two slots. -/
theorem dropSource_inj {s s' : ℕ} (hs : s < n - 1) (hs' : s' < n - 1)
    (heq : dropSource t n s = dropSource t n s') : s = s' := by
  unfold dropSource at heq
  split at heq <;> split at heq <;> omega

theorem UniqueNames.deleted (h : Inv fs) (hu : UniqueNames fs)
    (hdel : Deleted fs d name ino t n m fs') : UniqueNames fs' := by
  rw [uniqueNames_iff] at hu ⊢
  intro d' s s' e e' he he' hname
  rw [hdel.dirent h] at he he'
  dsimp only at he he'
  by_cases hd : d' = d
  · rw [if_pos hd] at he he'
    by_cases hs : s < n - 1
    · by_cases hs' : s' < n - 1
      · rw [if_pos hs] at he
        rw [if_pos hs'] at he'
        exact dropSource_inj hs hs' (hu d _ _ e e' he he' hname)
      · simp [hs'] at he'
    · simp [hs] at he
  · rw [if_neg hd] at he he'
    exact hu d' s s' e e' he he' hname

theorem UniqueNames.writeFile {k : Kernel} (h : Inv k.fs) (hu : UniqueNames k.fs) (ino : ℕ)
    (data : ℕ → Byte) (len : ℤ) : UniqueNames (pafsWriteFile k ino data len).1.fs := by
  refine pafsWriteFile_keeps hu fun ht => ?_
  exact hu.congr ((h.writeFile ino data len).2.dirent (by rw [ht]; decide))

theorem UniqueNames.create {k : Kernel} (h : Inv k.fs) (hu : UniqueNames k.fs) (hd : d < 128)
    (isDir : Bool) (hlen : name.chars.length ≤ 27) : UniqueNames (pafsCreate k d name isDir).1.fs :=
  pafsCreate_keeps h hd name isDir hu fun hcr => hu.created h hcr hlen

/-- No entries, no names. -/
theorem UniqueNames.format (fs : State) : UniqueNames (formatState fs) := by
  intro d s s' hs
  have h := Inv.format fs
  exfalso
  by_cases hd : d = 0
  · subst hd
    exact absurd (((layout_format fs).isEntry_iff h.rootDir s).mp hs) (by omega)
  · have := hs.1
    rw [inode_format_ne fs hd] at this
    exact absurd this (by decide)

/-- **One call** with a name that fits keeps the names unique. -/
theorem UniqueNames.step {k : Kernel} (h : Inv k.fs) (hu : UniqueNames k.fs) (op : Op)
    (hop : ShortName op) : UniqueNames (step k op).fs := by
  cases op with
  | create parentIno name isDir => exact hu.create h parentIno.isLt isDir hop
  | mkdir parentIno name => exact hu.create h parentIno.isLt true hop
  | delete parentIno name => exact pafsDelete_keeps h parentIno name hu fun hdel => hu.deleted h hdel
  | write name data len =>
    refine pafsWrite_keeps h name data len hu (fun hcr => hu.created h hcr hop) fun ino h' hu' => ?_
    exact hu'.writeFile h' ino data len
  | vfsWrite ino offset size buffer =>
    refine pafsVfsWrite_keeps hu fun ht => ?_
    exact hu.congr ((h.vfsWrite ino offset size buffer).2.dirent (by rw [ht]; decide))
  | format =>
    rw [Pafs.step, fs_pafsFormat]
    exact UniqueNames.format k.fs

/-- **A run** with names that fit keeps the names unique in all its states. -/
theorem along_uniqueNames (k₀ : Kernel) {ops : List Op} (hops : ∀ op ∈ ops, ShortName op) :
    Along Pafs.step (fun k : Kernel => UniqueNames k.fs) (pafsFormat k₀) ops := by
  have h : Inv (pafsFormat k₀).fs := by
    rw [fs_pafsFormat]
    exact Inv.format k₀.fs
  have hu : UniqueNames (pafsFormat k₀).fs := by
    rw [fs_pafsFormat]
    exact UniqueNames.format k₀.fs
  exact along_of_steps (P := fun k : Kernel => UniqueNames k.fs) (I := fun k : Kernel => Inv k.fs)
    (fun h => h.step _) (fun h hu hop => hu.step h _ hop) h hu (steps_of_forall hops)

theorem run_uniqueNames (k₀ : Kernel) {ops : List Op} (hops : ∀ op ∈ ops, ShortName op) :
    UniqueNames (run (pafsFormat k₀) ops).fs :=
  (along_uniqueNames k₀ hops).final

end Unique

/-! ## Creation and lookup -/

/-- **Creation and lookup agree exactly on the names that fit.** In every reachable state a created
name is found again, and refused a second time, if and only if it has at most 27 characters; and when
all names stored have at most 27 characters, no directory of any state on the way holds one twice. -/
theorem create_lookup_agree_iff (k₀ : Kernel) (ops : List Op) :
    let k := run (pafsFormat k₀) ops
    (∀ (d : Fin 128) name isDir, 0 ≤ (pafsCreate k d name isDir).2 →
      ((pafsFindEntry (pafsCreate k d name isDir).1.fs d name = (pafsCreate k d name isDir).2 ∧
          ∀ isDir', (pafsCreate (pafsCreate k d name isDir).1 d name isDir').2 = -1) ↔
        name.chars.length ≤ 27)) ∧
    ((∀ op ∈ ops, ShortName op) → ∀ i, UniqueNames (run (pafsFormat k₀) (ops.take i)).fs) := by
  intro k
  refine ⟨fun d name isDir hres => ?_, fun hops => ?_⟩
  · have h : Inv k.fs := Reachable.inv ⟨k₀, ops, rfl⟩
    rcases pafsCreate_cases h d.isLt name isDir with ⟨hfail, -⟩ | ⟨new, n, m, mid, hnew, hcr⟩
    · omega
    constructor
    · rintro ⟨hfind, -⟩
      by_contra hlen
      have := pafsFindEntry_long (hcr.inv_result h) d (show 27 < name.chars.length by omega)
      omega
    · intro hlen
      have hfind := hcr.findEntry h hlen
      refine ⟨hfind.trans hnew.symm, fun isDir' => pafsCreate_of_found ?_⟩
      omega
  · exact along_iff_take.mp (along_uniqueNames k₀ hops)

/-- The name `a` in a fresh root. -/
theorem create_lookup_agree_short :
    let name : CString := ⟨[97#8], by decide⟩
    let k := run (pafsFormat ramdiskKernel) []
    let d : Fin 128 := 0
    name.chars.length ≤ 27 ∧ (pafsCreate k d name false).2 = 1 ∧
      pafsFindEntry (pafsCreate k d name false).1.fs d name = (pafsCreate k d name false).2 := by
  intro name k d
  have hres : (pafsCreate k d name false).2 = 1 := by decide +kernel
  have hagree := (create_lookup_agree_iff ramdiskKernel []).1 d name false (by rw [hres]; decide)
  exact ⟨by decide, hres, (hagree.mpr (by decide)).1⟩

/-- A name of 28 characters is created twice in a fresh root, and not found. -/
theorem create_lookup_disagree_long :
    let name : CString := ⟨List.replicate 28 97#8, by decide⟩
    let k := run (pafsFormat ramdiskKernel) []
    let k' := (pafsCreate k 0 name false).1
    (pafsCreate k 0 name false).2 = 1 ∧ pafsFindEntry k'.fs 0 name = -1 ∧
      (pafsCreate k' 0 name false).2 = 2 ∧ ¬UniqueNames (pafsCreate k' 0 name false).1.fs := by
  refine ⟨by decide +kernel, by decide +kernel, by decide +kernel, fun hu => ?_⟩
  exact absurd (hu 0 0 1 (by decide +kernel) (by decide +kernel) (by decide +kernel)) (by decide)

end PekerOS.Pafs
