import PekerOS.Fs.Pafs.Steps

/-!
# PAFS: lock discipline

`pafs_lock` keeps the caller's interrupt flag inside the lock, so a section is only in order while
nothing in it takes the lock again. Eight of the nine operations are one section on every return
path. `pafs_write` is not: for a name the root does not hold it calls `pafs_create` inside its own
section, which overwrites the saved flag and releases the lock.

## Main definitions

* `Call`, `Call.exec`: the nine operations
* `LockDiscipline k c`: what a call of `c` in `k` must respect
* `Section k k'`: `k'` follows `k` inside a section
* `NestedCreate k c`: the call nests a creation, with an effect the caller can see

## Main results

* `Section.discipline`: a section that ends in `spin_unlock` respects the discipline
* `pafsCreate_section` and its siblings: each operation is a section
* `addEntryLoop_eq_zero_iff`: when insertion succeeds, in any state
* `lockDiscipline_iff`: **the discipline is respected exactly when no creation is nested**
-/

namespace PekerOS.Pafs

/-- A call of one of the locking operations. -/
inductive Call
  | create (parentIno : ℕ) (name : CString) (isDir : Bool)
  | mkdir (parentIno : ℕ) (name : CString)
  | delete (parentIno : ℕ) (name : CString)
  | write (name : CString) (data : ℕ → Byte) (len : ℤ)
  | read (name : CString) (maxLen : ℤ)
  | vfsRead (ino : ℕ) (offset size : Word)
  | vfsWrite (ino : ℕ) (offset size : Word) (buffer : ℕ → Byte)
  | vfsReaddir (ino : ℕ) (impl index : Word)
  | vfsFinddir (ino : ℕ) (name : CString)

def Call.exec (k : Kernel) : Call → Kernel
  | .create parentIno name isDir => (pafsCreate k parentIno name isDir).1
  | .mkdir parentIno name => (pafsMkdir k parentIno name).1
  | .delete parentIno name => (pafsDelete k parentIno name).1
  | .write name data len => (pafsWrite k name data len).1
  | .read name maxLen => (pafsRead k name maxLen).1
  | .vfsRead ino offset size => (pafsVfsRead k ino offset size).1
  | .vfsWrite ino offset size buffer => (pafsVfsWrite k ino offset size buffer).1
  | .vfsReaddir ino impl index => (pafsVfsReaddir k ino impl index).1
  | .vfsFinddir ino name => (pafsVfsFinddir k ino name).1

/-- Interrupts are off and the lock is taken. -/
def Moment.Held (m : Moment) : Prop := m.interrupts = false ∧ m.locked = true

/-- From the first access to the last, every moment is held. -/
def HeldBetweenAccesses (ms : List Moment) : Prop :=
  ∀ (i j l : ℕ) (first m last : Moment), i ≤ j → j ≤ l → ms[i]? = some first → ms[j]? = some m →
    ms[l]? = some last → first.access = true → last.access = true → m.Held

/-- The call returns the interrupt flag it found and a free lock, and holds the lock with interrupts
off from its first access to the metadata to its last. -/
structure LockDiscipline (k : Kernel) (c : Call) : Prop where
  interrupts : (c.exec { k with trace := [] }).cpu.interrupts = k.cpu.interrupts
  released : (c.exec { k with trace := [] }).pafsLock.locked = false
  held : HeldBetweenAccesses (c.exec { k with trace := [] }).trace

/-! ## Sections -/

/-- `k'` follows `k` inside a section: the flag and the lock are the same, and the moments in between
are held. -/
structure Section (k k' : Kernel) : Prop where
  cpu : k'.cpu = k.cpu
  lock : k'.pafsLock = k.pafsLock
  trace : ∃ ms, k'.trace = k.trace ++ ms ∧ ∀ m ∈ ms, m.Held

/-- The processor is inside a section. -/
def Kernel.InSection (k : Kernel) : Prop := k.cpu.interrupts = false ∧ k.pafsLock.locked = true

theorem Kernel.inSection_lock (k : Kernel) : k.lock.InSection := ⟨rfl, rfl⟩

namespace Section

variable {k k₁ k₂ : Kernel}

theorem refl (k : Kernel) : Section k k := ⟨rfl, rfl, [], by simp⟩

theorem inSection (h : Section k k₁) (hk : k.InSection) : k₁.InSection := by
  rw [Kernel.InSection, h.cpu, h.lock]
  exact hk

theorem trans (h : Section k k₁) (h' : Section k₁ k₂) : Section k k₂ := by
  obtain ⟨ms, htrace, hms⟩ := h.trace
  obtain ⟨ms', htrace', hms'⟩ := h'.trace
  refine ⟨h'.cpu.trans h.cpu, h'.lock.trans h.lock, ms ++ ms', ?_, fun m hm => ?_⟩
  · rw [htrace', htrace, List.append_assoc]
  · rcases List.mem_append.mp hm with hm | hm
    · exact hms m hm
    · exact hms' m hm

theorem touch (hk : k.InSection) (h : Section k k₁) : Section k k₁.touch := by
  obtain ⟨hcpu, hlock⟩ := h.inSection hk
  refine h.trans ⟨rfl, rfl, [⟨true, k₁.cpu.interrupts, k₁.pafsLock.locked⟩], rfl, ?_⟩
  simp [Moment.Held, hcpu, hlock]

theorem setFs (h : Section k k₁) (fs : State) : Section k (k₁.setFs fs) :=
  h.trans ⟨rfl, rfl, [], (List.append_nil _).symm, by simp⟩

theorem touchDisk (hk : k.InSection) (h : Section k k₁) : Section k k₁.touchDisk := by
  obtain ⟨hcpu, hlock⟩ := h.inSection hk
  unfold Kernel.touchDisk
  split
  · exact h.touch hk
  · refine h.trans ⟨?_, rfl, [⟨true, k₁.cpu.interrupts, k₁.pafsLock.locked⟩,
      ⟨true, false, k₁.pafsLock.locked⟩, ⟨true, k₁.cpu.interrupts, k₁.pafsLock.locked⟩], ?_, ?_⟩
    · rfl
    · simp [Kernel.touch, Kernel.log, spinLock, spinUnlock, irqSave, irqRestore]
    · simp [Moment.Held, hcpu, hlock]

theorem kmallocSection (hk : k.InSection) (h : Section k k₁) : Section k k₁.kmallocSection := by
  obtain ⟨hcpu, hlock⟩ := h.inSection hk
  refine h.trans ⟨rfl, rfl, [⟨false, false, k₁.pafsLock.locked⟩,
    ⟨false, k₁.cpu.interrupts, k₁.pafsLock.locked⟩], ?_, ?_⟩
  · simp [Kernel.kmallocSection, Kernel.log, irqSave, irqRestore]
  · simp [Moment.Held, hcpu, hlock]

end Section

/-- Moments without accesses around held ones. -/
theorem heldBetweenAccesses_of_append {pre mid post : List Moment}
    (hpre : ∀ m ∈ pre, m.access = false) (hmid : ∀ m ∈ mid, m.Held)
    (hpost : ∀ m ∈ post, m.access = false) : HeldBetweenAccesses (pre ++ mid ++ post) := by
  intro i j l first m last hij hjl hi hj hl hfirst hlast
  have hpi : pre.length ≤ i := by
    by_contra hlt
    rw [List.append_assoc, List.getElem?_append_left (by omega)] at hi
    have := hpre first (List.mem_of_getElem? hi)
    simp [hfirst] at this
  have hlm : l < (pre ++ mid).length := by
    by_contra hge
    rw [List.getElem?_append_right (by omega)] at hl
    have := hpost last (List.mem_of_getElem? hl)
    simp [hlast] at this
  rw [List.getElem?_append_left (by omega), List.getElem?_append_right (by omega)] at hj
  exact hmid m (List.mem_of_getElem? hj)

/-- A section that ends in `spin_unlock` gives the flag back, leaves the lock free, and was held
throughout. -/
theorem Section.unlock {k k₁ : Kernel} (hpre : ∀ m ∈ k.trace, m.access = false)
    (h : Section k.lock k₁) :
    k₁.unlock.cpu.interrupts = k.cpu.interrupts ∧ k₁.unlock.pafsLock.locked = false ∧
      HeldBetweenAccesses k₁.unlock.trace := by
  have hflags : k₁.unlock.cpu.interrupts = k.cpu.interrupts := by
    have := congrArg Spinlock.flags h.lock
    exact this
  obtain ⟨ms, htrace, hms⟩ := h.trace
  refine ⟨hflags, rfl, ?_⟩
  have hall : k₁.unlock.trace =
      k.trace ++ (⟨false, false, true⟩ :: ms) ++ [⟨false, k₁.unlock.cpu.interrupts, false⟩] := by
    change k₁.trace ++ [_] = _
    rw [htrace]
    change (k.trace ++ [_]) ++ ms ++ [_] = _
    simp [Kernel.unlock, Kernel.log, spinUnlock]
  rw [hall]
  refine heldBetweenAccesses_of_append hpre (fun m hm => ?_) (by simp)
  rcases List.mem_cons.mp hm with rfl | hm
  · exact ⟨rfl, rfl⟩
  · exact hms m hm

/-! ## The operations as sections -/

section Operations

variable (k : Kernel)

theorem pafsCreate_section (parentIno : ℕ) (name : CString) (isDir : Bool) :
    ∃ k₁, Section k.lock k₁ ∧ (pafsCreate k parentIno name isDir).1 = k₁.unlock := by
  have hk := k.inSection_lock
  have h₁ := (Section.refl k.lock).touch hk
  have h₂ := h₁.touchDisk hk
  have h₃ := h₂.touch hk
  unfold pafsCreate
  dsimp only
  split
  · exact ⟨_, h₁, rfl⟩
  · split
    · exact ⟨_, h₂, rfl⟩
    · split
      · exact ⟨_, h₃, rfl⟩
      · split
        · exact ⟨_, (((h₃.setFs _).touchDisk hk).setFs _).touchDisk hk, rfl⟩
        · exact ⟨_, (((h₃.setFs _).touchDisk hk).setFs _).touch hk, rfl⟩

theorem pafsDelete_section (parentIno : ℕ) (name : CString) :
    ∃ k₁, Section k.lock k₁ ∧ (pafsDelete k parentIno name).1 = k₁.unlock := by
  have hk := k.inSection_lock
  have h₁ := (Section.refl k.lock).touchDisk hk
  have h₂ := h₁.touch hk
  unfold pafsDelete
  dsimp only
  split
  · exact ⟨_, h₁, rfl⟩
  · split
    · exact ⟨_, h₂, rfl⟩
    · exact ⟨_, (h₂.setFs _).touchDisk hk, rfl⟩

theorem pafsWriteFile_section {k₀ k : Kernel} (hk : k₀.InSection) (h : Section k₀ k) (ino : ℕ)
    (data : ℕ → Byte) (len : ℤ) :
    ∃ k₁, Section k₀ k₁ ∧ (pafsWriteFile k ino data len).1 = k₁.unlock := by
  have h₁ := h.touch hk
  unfold pafsWriteFile
  dsimp only
  split
  · exact ⟨_, h₁, rfl⟩
  · exact ⟨_, (h₁.setFs _).touchDisk hk, rfl⟩

theorem pafsRead_section (name : CString) (maxLen : ℤ) :
    ∃ k₁, Section k.lock k₁ ∧ (pafsRead k name maxLen).1 = k₁.unlock := by
  have hk := k.inSection_lock
  have h₁ := (Section.refl k.lock).touchDisk hk
  have h₂ := h₁.touchDisk hk
  unfold pafsRead
  dsimp only
  split
  · exact ⟨_, h₁, rfl⟩
  · split
    · exact ⟨_, h₂, rfl⟩
    · exact ⟨_, h₂, rfl⟩

theorem pafsVfsRead_section (ino : ℕ) (offset size : Word) :
    ∃ k₁, Section k.lock k₁ ∧ (pafsVfsRead k ino offset size).1 = k₁.unlock := by
  have h₁ := (Section.refl k.lock).touchDisk k.inSection_lock
  unfold pafsVfsRead
  dsimp only
  split
  · exact ⟨_, h₁, rfl⟩
  · split
    · exact ⟨_, h₁, rfl⟩
    · exact ⟨_, h₁, rfl⟩

theorem pafsVfsWrite_section (ino : ℕ) (offset size : Word) (buffer : ℕ → Byte) :
    ∃ k₁, Section k.lock k₁ ∧ (pafsVfsWrite k ino offset size buffer).1 = k₁.unlock := by
  have hk := k.inSection_lock
  have h₁ := (Section.refl k.lock).touch hk
  unfold pafsVfsWrite
  dsimp only
  split
  · exact ⟨_, h₁, rfl⟩
  · exact ⟨_, (h₁.setFs _).touchDisk hk, rfl⟩

/-- `pafs_vfs_readdir` may call `kmalloc` before it takes the lock. -/
theorem pafsVfsReaddir_section (ino : ℕ) (impl index : Word) :
    ∃ k₁, Section (if impl = 0#32 then k.kmallocSection else k).lock k₁ ∧
      (pafsVfsReaddir k ino impl index).1 = k₁.unlock := by
  unfold pafsVfsReaddir
  generalize (if impl = 0#32 then k.kmallocSection else k) = k'
  have hk := k'.inSection_lock
  have h₁ := (Section.refl k'.lock).touch hk
  have h₂ := h₁.touchDisk hk
  dsimp only
  split
  · exact ⟨_, h₁, rfl⟩
  · split
    · exact ⟨_, h₁, rfl⟩
    · split
      · exact ⟨_, h₁, rfl⟩
      · split
        · exact ⟨_, h₂, rfl⟩
        · exact ⟨_, h₂, rfl⟩

theorem pafsVfsFinddir_section (ino : ℕ) (name : CString) :
    ∃ k₁, Section k.lock k₁ ∧ (pafsVfsFinddir k ino name).1 = k₁.unlock := by
  have hk := k.inSection_lock
  have h₁ := (Section.refl k.lock).touchDisk hk
  unfold pafsVfsFinddir
  dsimp only
  split
  · exact ⟨_, (h₁.kmallocSection hk).touch hk, rfl⟩
  · exact ⟨_, h₁, rfl⟩

end Operations

/-! ## Room for an entry -/

/-- All sixteen entries of block `i` of the directory are taken. -/
def BlockFull (fs : State) (d i : ℕ) : Prop :=
  fs.block d i ≠ 0#32 ∧ ∀ j < 16, entryInode (fs.disk (fs.block d i).toNat) j ≠ 0#32

/-- Block `i` of the directory has an empty entry, or there is none and one is free on the disk. -/
def BlockOpen (fs : State) (d i : ℕ) : Prop :=
  if fs.block d i = 0#32 then findFreeBlock fs ≠ none
  else ∃ j < 16, entryInode (fs.disk (fs.block d i).toNat) j = 0#32

/-- `pafs_add_entry` finds a place: an open block after full ones. -/
def HasRoom (fs : State) (d : ℕ) : Prop :=
  ∃ i < 14, (∀ j < i, BlockFull fs d j) ∧ BlockOpen fs d i

section Room

variable {fs : State} {d ino : ℕ} {name : CString}

/-- **Insertion succeeds**, in any state, exactly when there is an open block after full ones. -/
theorem addEntryLoop_eq_zero_iff (hd : d < 128) {r i : ℕ} (hr : i + r = 14) :
    (addEntryLoop d name ino r fs i).2 = 0 ↔
      ∃ l, i ≤ l ∧ l < 14 ∧ (∀ j, i ≤ j → j < l → BlockFull fs d j) ∧ BlockOpen fs d l := by
  induction r generalizing i with
  | zero =>
    have hfail : (addEntryLoop d name ino 0 fs i).2 = -1 := rfl
    constructor
    · omega
    · rintro ⟨l, hil, hl, -⟩
      omega
  | succ r ih =>
    by_cases hopen : BlockOpen fs d i
    · refine ⟨fun _ => ⟨i, le_rfl, by omega, fun j hij hji => by omega, hopen⟩, fun _ => ?_⟩
      by_cases hzero : fs.block d i = 0#32
      · rw [BlockOpen, if_pos hzero] at hopen
        obtain ⟨b, hb⟩ := Option.ne_none_iff_exists'.mp hopen
        rw [addEntryLoop_alloc hd (by omega) hzero hb]
      · rw [BlockOpen, if_neg hzero] at hopen
        -- the first of the empty entries
        classical
        obtain ⟨hj, hempty⟩ := Nat.find_spec hopen
        rw [addEntryLoop_slot hzero hj hempty fun l hl => ?_]
        exact fun hl0 => Nat.find_min hopen hl ⟨by omega, hl0⟩
    · have hnext : (∃ l, i ≤ l ∧ l < 14 ∧ (∀ j, i ≤ j → j < l → BlockFull fs d j) ∧
          BlockOpen fs d l) ↔ BlockFull fs d i ∧
          ∃ l, i + 1 ≤ l ∧ l < 14 ∧ (∀ j, i + 1 ≤ j → j < l → BlockFull fs d j) ∧
            BlockOpen fs d l := by
        constructor
        · rintro ⟨l, hil, hl, hfull, hl'⟩
          have hne : i ≠ l := fun heq => hopen (heq ▸ hl')
          exact ⟨hfull i le_rfl (by omega), l, by omega, hl,
            fun j hij hjl => hfull j (by omega) hjl, hl'⟩
        · rintro ⟨hfull, l, hil, hl, hrest, hl'⟩
          refine ⟨l, by omega, hl, fun j hij hjl => ?_, hl'⟩
          by_cases hji : j = i
          · exact hji ▸ hfull
          · exact hrest j (by omega) hjl
      rw [hnext]
      by_cases hzero : fs.block d i = 0#32
      · rw [BlockOpen, if_pos hzero, not_not] at hopen
        rw [addEntryLoop_alloc_none hzero hopen]
        exact ⟨fun h => absurd h (by simp), fun h => absurd hzero h.1.1⟩
      · have hfull : BlockFull fs d i := by
          rw [BlockOpen, if_neg hzero] at hopen
          exact ⟨hzero, fun j hj hj0 => hopen ⟨j, hj, hj0⟩⟩
        rw [addEntryLoop_full hzero hfull.2, ih (by omega)]
        exact ⟨fun h => ⟨hfull, h⟩, fun h => h.2⟩

/-- The entry of a new file goes into a directory with room. -/
theorem pafsAddEntry_newFile_eq_zero_iff {new : ℕ} (hf : findFreeInode fs = some new) :
    (pafsAddEntry (newInode fs new false) d name new).2 = 0 ↔
      (fs.inode d).type = pafsTypeDir ∧ HasRoom fs d := by
  have hlt := findFreeInode_lt hf
  have hfree := findFreeInode_free hf
  by_cases hd : d = new
  · -- the new inode is a file, and was no directory before
    subst hd
    rw [pafsAddEntry_of_not_dir (by rw [inode_newInode_self fs hlt]; decide), hfree]
    simp [pafsTypeFree, pafsTypeDir]
  · have hinode := inode_newInode_ne fs hd false
    have hblock : ∀ i, (newInode fs new false).block d i = fs.block d i := fun i => by
      rw [State.block, hinode, State.block]
    by_cases ht : (fs.inode d).type = pafsTypeDir
    · have hdlt : d < 128 := State.lt_of_type_ne (by rw [ht]; decide)
      have hroom : HasRoom (newInode fs new false) d ↔ HasRoom fs d := by
        simp only [HasRoom, BlockFull, BlockOpen, hblock]
        rfl
      rw [pafsAddEntry, if_neg (by rw [hinode, ht]; simp), addEntryLoop_eq_zero_iff hdlt rfl,
        ← hroom]
      simp only [ht, true_and, HasRoom, Nat.zero_le, forall_const]
    · rw [pafsAddEntry_of_not_dir (by rw [hinode]; exact ht)]
      simp [ht]

end Room

/-! ## The discipline -/

/-- `pafs_write` is called for a name the root does not hold, and either interrupts are on or the
nested `pafs_create` succeeds: there is a free inode, and the root is a directory with room. -/
def NestedCreate (k : Kernel) : Call → Prop
  | .write name _ _ =>
    pafsFindEntry k.fs k.fs.sb.rootInode.toNat name = -1 ∧
      (k.cpu.interrupts = true ∨
        k.fs.sb.freeInodes ≠ 0#32 ∧ findFreeInode k.fs ≠ none ∧
        (k.fs.inode k.fs.sb.rootInode.toNat).type = pafsTypeDir ∧
        HasRoom k.fs k.fs.sb.rootInode.toNat)
  | _ => False

section Discipline

variable {k : Kernel} {name : CString} {data : ℕ → Byte} {len : ℤ}

theorem not_createFails_iff {fs : State} {d : ℕ} (ha : pafsFindEntry fs d name = -1) :
    ¬CreateFails fs d name false ↔ fs.sb.freeInodes ≠ 0#32 ∧ findFreeInode fs ≠ none ∧
      (fs.inode d).type = pafsTypeDir ∧ HasRoom fs d := by
  simp only [CreateFails, ha, ne_eq, not_true_eq_false, false_or, not_or, not_forall, not_not]
  refine and_congr_right fun _ => ?_
  constructor
  · rintro ⟨new, hf, hadd⟩
    exact ⟨by simp [hf], (pafsAddEntry_newFile_eq_zero_iff hf).mp hadd⟩
  · rintro ⟨hf, hroom⟩
    obtain ⟨new, hf⟩ := Option.ne_none_iff_exists'.mp hf
    exact ⟨new, hf, (pafsAddEntry_newFile_eq_zero_iff hf).mpr hroom⟩

/-- A name the root holds is written in one section. -/
theorem pafsWrite_section (hfind : pafsFindEntry k.fs k.fs.sb.rootInode.toNat name ≠ -1) :
    ∃ k₁, Section k.lock k₁ ∧ (pafsWrite k name data len).1 = k₁.unlock := by
  have hk := k.inSection_lock
  have h₁ := (Section.refl k.lock).touchDisk hk
  simp only [pafsWrite, Kernel.fs_touchDisk, Kernel.fs_lock, if_neg hfind]
  exact pafsWriteFile_section hk h₁ _ data len

/-- A nested creation that fails releases the lock twice, the second time with interrupts off. -/
theorem pafsWrite_nested_fails (htrace : k.trace = [])
    (hfind : pafsFindEntry k.fs k.fs.sb.rootInode.toNat name = -1)
    (hfail : CreateFails k.fs k.fs.sb.rootInode.toNat name false) :
    (pafsWrite k name data len).1.cpu.interrupts = false ∧
      (pafsWrite k name data len).1.pafsLock.locked = false ∧
      HeldBetweenAccesses (pafsWrite k name data len).1.trace := by
  have h := (Section.refl k.lock).touchDisk k.inSection_lock
  have hfs : k.lock.touchDisk.fs = k.fs := by simp
  set k' := k.lock.touchDisk with hk'
  obtain ⟨hcpu, hlock⟩ := h.inSection k.inSection_lock
  obtain ⟨k₁, h₁, heq⟩ := pafsCreate_section k' k.fs.sb.rootInode.toNat name false
  have hres : (pafsCreate k' k.fs.sb.rootInode.toNat name false).2 = -1 := by
    rw [pafsCreate_eq_neg_one_iff, hfs]
    exact hfail
  have hwrite : (pafsWrite k name data len).1 = k₁.unlock.unlock := by
    simp only [pafsWrite, ← hk', hfs, if_pos hfind, if_pos hres, heq]
  -- the inner lock has saved that interrupts were off, and both unlocks restore that
  have hflags : k₁.pafsLock.flags = false := by
    rw [h₁.lock]
    exact hcpu
  obtain ⟨ms, hms, hheld⟩ := h.trace
  obtain ⟨ms₁, hms₁, hheld₁⟩ := h₁.trace
  rw [hwrite]
  refine ⟨hflags, rfl, ?_⟩
  -- two locks come before the accesses, and both unlocks after them
  have hall : k₁.unlock.unlock.trace =
      [] ++ (⟨false, false, true⟩ :: ms ++ (⟨false, false, true⟩ :: ms₁)) ++
        [⟨false, false, false⟩, ⟨false, false, false⟩] := by
    have hk₁ : k₁.unlock.unlock.trace = k₁.trace ++
        [⟨false, k₁.pafsLock.flags, false⟩, ⟨false, k₁.pafsLock.flags, false⟩] := by
      change k₁.trace ++ [_] ++ [_] = _
      rw [List.append_assoc]
      rfl
    have hlock' : k'.lock.trace = k'.trace ++ [⟨false, false, true⟩] := rfl
    have hlock₀ : k.lock.trace = [⟨false, false, true⟩] := by
      change k.trace ++ [_] = _
      rw [htrace]
      rfl
    rw [hk₁, hflags, hms₁, hlock', hms, hlock₀]
    simp
  rw [hall]
  refine heldBetweenAccesses_of_append (by simp) (fun m hm => ?_) (by simp)
  -- an access is before the inner lock or behind it
  rcases List.mem_append.mp hm with hm | hm
  · rcases List.mem_cons.mp hm with rfl | hm
    · exact ⟨rfl, rfl⟩
    · exact hheld m hm
  · rcases List.mem_cons.mp hm with rfl | hm
    · exact ⟨rfl, rfl⟩
    · exact hheld₁ m hm

/-- The first access of the writing part stays in the trace. -/
theorem trace_pafsWriteFile (k : Kernel) (ino : ℕ) (data : ℕ → Byte) (len : ℤ) :
    ∃ rest, (pafsWriteFile k ino data len).1.trace =
      k.trace ++ ⟨true, k.cpu.interrupts, k.pafsLock.locked⟩ :: rest := by
  have hdisk : ∀ k : Kernel, ∃ ms, k.touchDisk.trace = k.trace ++ ms := by
    intro k
    unfold Kernel.touchDisk
    split
    · exact ⟨_, rfl⟩
    · exact ⟨[⟨true, k.cpu.interrupts, k.pafsLock.locked⟩, ⟨true, false, k.pafsLock.locked⟩,
        ⟨true, k.cpu.interrupts, k.pafsLock.locked⟩],
        by simp [Kernel.touch, Kernel.log, spinLock, spinUnlock, irqSave, irqRestore]⟩
  have hunlock : ∀ k : Kernel, ∃ ms, k.unlock.trace = k.trace ++ ms := fun k => ⟨_, rfl⟩
  have htouch : k.touch.trace = k.trace ++ [⟨true, k.cpu.interrupts, k.pafsLock.locked⟩] := rfl
  unfold pafsWriteFile
  dsimp only
  split
  · obtain ⟨ms, hms⟩ := hunlock k.touch
    exact ⟨ms, by rw [hms, htouch, List.append_assoc]; rfl⟩
  · obtain ⟨ms, hms⟩ := hunlock (k.touch.setFs (pafsSaveInode ((writeLoop ino data len.toNat 14
      k.touch.fs 0 0).1.setSize ino (BitVec.ofNat 32 (writeLoop ino data len.toNat 14
      k.touch.fs 0 0).2)) ino)).touchDisk
    obtain ⟨ms', hms'⟩ := hdisk (k.touch.setFs (pafsSaveInode ((writeLoop ino data len.toNat 14
      k.touch.fs 0 0).1.setSize ino (BitVec.ofNat 32 (writeLoop ino data len.toNat 14
      k.touch.fs 0 0).2)) ino))
    refine ⟨ms' ++ ms, ?_⟩
    rw [hms, hms']
    change k.touch.trace ++ ms' ++ ms = _
    rw [htouch]
    simp

/-- After a nested creation the file is written without the lock. -/
theorem pafsWrite_nested_succeeds (hfind : pafsFindEntry k.fs k.fs.sb.rootInode.toNat name = -1)
    (hok : ¬CreateFails k.fs k.fs.sb.rootInode.toNat name false) :
    ¬HeldBetweenAccesses (pafsWrite k name data len).1.trace := by
  have hfs : k.lock.touchDisk.fs = k.fs := by simp
  obtain ⟨k₁, -, heq⟩ := pafsCreate_section k.lock.touchDisk k.fs.sb.rootInode.toNat name false
  have hres : (pafsCreate k.lock.touchDisk k.fs.sb.rootInode.toNat name false).2 ≠ -1 := by
    rw [ne_eq, pafsCreate_eq_neg_one_iff, hfs]
    exact hok
  have hwrite : (pafsWrite k name data len).1 = (pafsWriteFile k₁.unlock (pafsCreate
      k.lock.touchDisk k.fs.sb.rootInode.toNat name false).2.toNat data len).1 := by
    simp only [pafsWrite, hfs, if_pos hfind, if_neg hres, heq]
  obtain ⟨rest, hrest⟩ := trace_pafsWriteFile k₁.unlock (pafsCreate
      k.lock.touchDisk k.fs.sb.rootInode.toNat name false).2.toNat data len
  rw [hwrite, hrest]
  intro hheld
  have hget : (k₁.unlock.trace ++ ⟨true, k₁.unlock.cpu.interrupts, k₁.unlock.pafsLock.locked⟩ ::
      rest)[k₁.unlock.trace.length]? =
      some ⟨true, k₁.unlock.cpu.interrupts, k₁.unlock.pafsLock.locked⟩ := by simp
  have := (hheld _ _ _ _ _ _ le_rfl le_rfl hget hget hget rfl rfl).2
  exact absurd this (by simp [Kernel.unlock, Kernel.log, spinUnlock])

end Discipline

/-- **The lock discipline** is respected by every call in every state, except by a `pafs_write` of a
name the root does not hold, called with interrupts on or able to create the name. -/
theorem lockDiscipline_iff (k : Kernel) (c : Call) : LockDiscipline k c ↔ ¬NestedCreate k c := by
  set k₀ : Kernel := { k with trace := [] } with hk₀
  have hpre : ∀ m ∈ k₀.trace, m.access = false := by simp [hk₀]
  have hsection : ∀ k₁, Section k₀.lock k₁ → c.exec k₀ = k₁.unlock → LockDiscipline k c := by
    intro k₁ h heq
    obtain ⟨hint, hfree, hheld⟩ := h.unlock hpre
    exact ⟨by rw [← hk₀, heq, hint], by rw [← hk₀, heq, hfree], by rw [← hk₀, heq]; exact hheld⟩
  cases c with
  | create parentIno name isDir =>
    obtain ⟨k₁, h, heq⟩ := pafsCreate_section k₀ parentIno name isDir
    simp [NestedCreate, hsection k₁ h heq]
  | mkdir parentIno name =>
    obtain ⟨k₁, h, heq⟩ := pafsCreate_section k₀ parentIno name true
    simp [NestedCreate, hsection k₁ h heq]
  | delete parentIno name =>
    obtain ⟨k₁, h, heq⟩ := pafsDelete_section k₀ parentIno name
    simp [NestedCreate, hsection k₁ h heq]
  | read name maxLen =>
    obtain ⟨k₁, h, heq⟩ := pafsRead_section k₀ name maxLen
    simp [NestedCreate, hsection k₁ h heq]
  | vfsRead ino offset size =>
    obtain ⟨k₁, h, heq⟩ := pafsVfsRead_section k₀ ino offset size
    simp [NestedCreate, hsection k₁ h heq]
  | vfsWrite ino offset size buffer =>
    obtain ⟨k₁, h, heq⟩ := pafsVfsWrite_section k₀ ino offset size buffer
    simp [NestedCreate, hsection k₁ h heq]
  | vfsFinddir ino name =>
    obtain ⟨k₁, h, heq⟩ := pafsVfsFinddir_section k₀ ino name
    simp [NestedCreate, hsection k₁ h heq]
  | vfsReaddir ino impl index =>
    obtain ⟨k₁, h, heq⟩ := pafsVfsReaddir_section k₀ ino impl index
    -- the call of `kmalloc` comes before the first access
    have hpre' : ∀ m ∈ (if impl = 0#32 then k₀.kmallocSection else k₀).trace, m.access = false := by
      split
      · simp [Kernel.kmallocSection, Kernel.log, hk₀]
      · exact hpre
    have hcpu : (if impl = 0#32 then k₀.kmallocSection else k₀).cpu.interrupts =
        k.cpu.interrupts := by split <;> rfl
    obtain ⟨hint, hfree, hheld⟩ := h.unlock hpre'
    have heq : (Call.vfsReaddir ino impl index).exec k₀ = k₁.unlock := heq
    have hd : LockDiscipline k (.vfsReaddir ino impl index) :=
      ⟨by rw [← hk₀, heq, hint, hcpu], by rw [← hk₀, heq, hfree], by rw [← hk₀, heq]; exact hheld⟩
    simp [NestedCreate, hd]
  | write name data len =>
    by_cases hfind : pafsFindEntry k.fs k.fs.sb.rootInode.toNat name = -1
    · by_cases hfail : CreateFails k.fs k.fs.sb.rootInode.toNat name false
      · have hcreate := (not_createFails_iff hfind).not.mp (not_not.mpr hfail)
        obtain ⟨hint, hfree, hheld⟩ :=
          @pafsWrite_nested_fails k₀ name data len rfl hfind hfail
        simp only [NestedCreate, hfind, true_and, hcreate, or_false, Bool.not_eq_true]
        exact ⟨fun h => h.interrupts.symm.trans hint, fun h => ⟨hint.trans h.symm, hfree, hheld⟩⟩
      · have hcreate := (not_createFails_iff hfind).mp hfail
        have hnot := @pafsWrite_nested_succeeds k₀ name data len hfind hfail
        exact ⟨fun h => absurd h.held hnot, fun h => absurd ⟨hfind, Or.inr hcreate⟩ h⟩
    · obtain ⟨k₁, h, heq⟩ := @pafsWrite_section k₀ name data len hfind
      simp [NestedCreate, hfind, hsection k₁ h heq]

/-- Writing a new file of a fresh RAM disk, with interrupts on: they are off on return. -/
theorem pafsWrite_leaves_interrupts_off :
    ¬LockDiscipline (pafsFormat ramdiskKernel) (.write ⟨[97#8], by decide⟩ (fun _ => 0#8) 1) := by
  intro h
  have hoff : ((Call.write ⟨[97#8], by decide⟩ (fun _ => 0#8) 1).exec
      { pafsFormat ramdiskKernel with trace := [] }).cpu.interrupts = false := by decide +kernel
  have hon : (pafsFormat ramdiskKernel).cpu.interrupts = true := by decide +kernel
  rw [h.interrupts, hon] at hoff
  exact absurd hoff (by decide)

end PekerOS.Pafs
