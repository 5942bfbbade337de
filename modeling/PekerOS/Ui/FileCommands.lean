import PekerOS.Fs.Pafs.Creation
import PekerOS.Fs.Pafs.Deletion
import PekerOS.Fs.Pafs.Locking
import PekerOS.Ui.WorkingDir

/-!
# The commands that change a directory

`mkdir`, `touch`, `rm` and `rmdir` hand the inode number of `shell_cwd_node` to PAFS, whatever file system
the node belongs to. For a node of ext2 that number is one of another disk, and the node of a mount point
has the number of the PAFS directory that the mounted one hides. The tree in which `cd` looks paths up is
PAFS as the commands have left it, with any ext2 disks mounted.

## Main definitions

* `FileRef`, `Volumes`, `tree`: an inode of either file system, what the commands cannot change, and the
  tree
* `Session`, `FileCommand`, `changed`, `fileStep`: the shell over PAFS
* `directory node`: the node whose directory a lookup in `node` searches
* `ActsWithin fs fs' dir name`: only the directory `dir` is changed
* `CreateRefused`, `DeleteRefused`: why PAFS refuses a call
* `Allowed s c`: the command is given in a PAFS directory that is no mount point, or it is refused

## Main results

* `createFails_iff`, `Deleted.untouched`: when a creation fails, and what a deletion leaves alone
* `actsWithin_changed`, `changed_refused_iff`: one call of PAFS
* `Sound.fileStep`: the node of the working directory along runs
* `shell_acts_iff`: **commands act in the working directory exactly if they are allowed**
-/

namespace PekerOS.Pafs

/-- `pafs_create` fails: no inode is free, the name is there already, or the parent is no directory with
room for an entry. The free inode that is to become a directory counts as one. -/
def CreateRefused (fs : State) (parentIno : ℕ) (name : CString) (isDir : Bool) : Prop :=
  fs.sb.freeInodes = 0#32 ∨ findFreeInode fs = none ∨ pafsFindEntry fs parentIno name ≠ -1 ∨
    ¬(((fs.inode parentIno).type = pafsTypeDir ∨ isDir = true ∧ findFreeInode fs = some parentIno) ∧
      HasRoom fs parentIno)

/-- `pafs_delete` fails: the name is not there, or names a directory with entries. -/
def DeleteRefused (fs : State) (parentIno : ℕ) (name : CString) : Prop :=
  pafsFindEntry fs parentIno name = -1 ∨
    (fs.inode (pafsFindEntry fs parentIno name).toNat).type = pafsTypeDir ∧
      pafsIsDirEmpty fs (pafsFindEntry fs parentIno name).toNat = false

section Create

variable {fs : State} {d new : ℕ} {name : CString} {isDir : Bool}

/-- The entry of a new inode goes into a directory with room. -/
theorem pafsAddEntry_new_eq_zero_iff (h : Inv fs) (hf : findFreeInode fs = some new) :
    (pafsAddEntry (newInode fs new isDir) d name new).2 = 0 ↔
      ((fs.inode d).type = pafsTypeDir ∨ isDir = true ∧ new = d) ∧ HasRoom fs d := by
  have hlt := findFreeInode_lt hf
  have hfree := findFreeInode_free hf
  have htype : ((newInode fs new isDir).inode d).type = pafsTypeDir ↔
      (fs.inode d).type = pafsTypeDir ∨ isDir = true ∧ new = d := by
    by_cases hd : d = new
    · subst hd
      rw [inode_newInode_self fs hlt, hfree]
      cases isDir <;> simp [pafsTypeFile, pafsTypeFree, pafsTypeDir]
    · rw [inode_newInode_ne fs hd]
      simp [Ne.symm hd]
  have hroom : HasRoom (newInode fs new isDir) d ↔ HasRoom fs d := by
    simp only [HasRoom, BlockFull, BlockOpen, h.block_newInode hlt hfree isDir]
    rfl
  rw [← htype, ← hroom]
  by_cases ht : ((newInode fs new isDir).inode d).type = pafsTypeDir
  · have hd : d < 128 := State.lt_of_type_ne (by rw [ht]; decide)
    rw [pafsAddEntry, if_neg (by simp [ht]), addEntryLoop_eq_zero_iff hd rfl]
    simp only [ht, true_and, HasRoom, Nat.zero_le, forall_const]
  · rw [pafsAddEntry_of_not_dir ht]
    simp [ht]

/-- **When creation fails**, seen before the call. -/
theorem createFails_iff (h : Inv fs) : CreateFails fs d name isDir ↔ CreateRefused fs d name isDir := by
  rw [CreateFails, CreateRefused]
  cases hf : findFreeInode fs with
  | none => simp
  | some new =>
    have hadd := @pafsAddEntry_new_eq_zero_iff fs d new name isDir h hf
    simp [← hadd]

end Create

section Delete

variable {fs fs' : State} {d ino t n m : ℕ} {name : CString}

/-- A deletion leaves every inode but the deleted one and the parent alone. -/
theorem Deleted.untouched (h : Inv fs) (hdel : Deleted fs d name ino t n m fs') {j : ℕ} (hd : j ≠ d)
    (hino : j ≠ ino) : Untouched j fs fs' := by
  refine ⟨hdel.inode_other hd hino, fun s hs => ?_⟩
  have hblock : ∀ u, (releaseInode fs ino).block d u = fs.block d u := fun u => by
    rw [State.block, hdel.parent_release, State.block]
  -- the blocks written are those of the parent
  have hne : ∀ u, (fs.block j s).toNat ≠ ((releaseInode fs ino).block d u).toNat := fun u heq => by
    rw [hblock] at heq
    exact hd (h.inj hs heq).1
  have hdata := h.data hs
  rw [hdel.sameData.data _ hdata, disk_dropEntry_ne hdel.release.parent_lt hdata (hne _) (hne _),
    disk_releaseInode fs hdel.ino_lt]

/-- The entries of the other directories stay. -/
theorem Deleted.dirEntries_ne (h : Inv fs) (hdel : Deleted fs d name ino t n m fs') {d' : ℕ}
    (hd : d' ≠ d) : dirEntries fs' d' = dirEntries fs d' := by
  refine dirEntries_congr fun s => ?_
  rw [hdel.dirent h, if_neg hd]

end Delete

end PekerOS.Pafs

namespace PekerOS.Ui

open PekerOS.Vfs PekerOS.Pafs

/-! ## The tree -/

/-- The number of an inode and its file system. -/
structure FileRef where
  kind : FsKind
  inode : ℕ
deriving DecidableEq

/-- What the commands cannot change: the ext2 disks, the mount table, and what `vfs_root` was given when it
was made. Only nodes of ext2 are mounted. -/
structure Volumes where
  ext2 : Disks ℕ
  ext2_kind : ∀ i, ext2.kind i = .ext2
  mounts : List (Mount FileRef)
  mounts_ext2 : ∀ m ∈ mounts, m.root.inode.kind = .ext2 ∧ m.root.ptr.isNone
  rootAddr : ℕ
  rootLength : Word
  behind : FileRef → List Byte

/-- `pafs_vfs_readdir` copies at most 27 characters. -/
theorem length_pafsVfsReaddir {k : Kernel} {ino : ℕ} {impl index : Word} {e : Word × List Byte}
    (h : (pafsVfsReaddir k ino impl index).2 = some e) : e.2.length ≤ 27 := by
  simp only [pafsVfsReaddir, apply_ite Prod.snd] at h
  generalize (if impl = 0#32 then k.kmallocSection else k) = k' at h
  split_ifs at h
  obtain rfl := Option.some.inj h
  exact List.length_take_le 27 _

theorem length_readdirFrom {k : Kernel} {ino : ℕ} {buffer impl : Word} {fuel index : ℕ} :
    ∀ e ∈ readdirFrom k ino buffer fuel impl index, e.2.length ≤ 27 := by
  induction fuel generalizing k impl index with
  | zero => exact fun e he => absurd he List.not_mem_nil
  | succ fuel ih =>
    rw [readdirFrom]
    rcases hres : pafsVfsReaddir k ino impl (BitVec.ofNat 32 index) with ⟨k', _ | entry⟩
    · exact fun e he => absurd he List.not_mem_nil
    · exact List.forall_mem_cons.mpr ⟨length_pafsVfsReaddir (congrArg Prod.snd hres), ih⟩

/-- The answers of the file systems, PAFS in its present state. -/
def disks (v : Volumes) (k : Kernel) : Disks FileRef where
  kind i := i.kind
  flags i :=
    match i.kind with
    | .pafs => if (k.fs.inode i.inode).type = pafsTypeDir then vfsDirectory else vfsFile
    | .ext2 => v.ext2.flags i.inode
  length i :=
    match i.kind with
    | .pafs => (k.fs.inode i.inode).size
    | .ext2 => v.ext2.length i.inode
  find i name :=
    match i.kind with
    | .pafs => (pafsVfsFinddir k i.inode (CString.ofBytes name)).2.map fun node => ⟨.pafs, node.inode.toNat⟩
    | .ext2 => (v.ext2.find i.inode name).map fun j => ⟨.ext2, j⟩
  entries i :=
    match i.kind with
    | .pafs => (readdirFrom k i.inode 1#32 225 0#32 0).map Prod.snd
    | .ext2 => v.ext2.entries i.inode
  content i :=
    match i.kind with
    | .pafs => fileBytes k.fs i.inode
    | .ext2 => v.ext2.content i.inode
  flags_pafs {i} hkind := by
    simp only [hkind]
    split
    · exact Or.inr rfl
    · exact Or.inl rfl
  flags_ext2 {i} hkind := by
    simp only [hkind]
    exact v.ext2.flags_ext2 (v.ext2_kind i.inode)
  find_kind {i name j} hfind := by
    rcases hkind : i.kind
    · simp only [hkind] at hfind
      obtain ⟨node, -, rfl⟩ := Option.map_eq_some_iff.mp hfind
      rfl
    · simp only [hkind] at hfind
      obtain ⟨n, -, rfl⟩ := Option.map_eq_some_iff.mp hfind
      rfl
  entries_pafs {i name} hkind hname := by
    simp only [hkind] at hname
    obtain ⟨e, he, rfl⟩ := List.mem_map.mp hname
    exact length_readdirFrom e he

/-- The tree that `vfs_root` spans. -/
def tree (v : Volumes) (k : Kernel) : DirTree FileRef where
  toDisks := disks v k
  root := ⟨[slash], vfsDirectory, ⟨.pafs, k.fs.sb.rootInode.toNat⟩, v.rootLength, none, none⟩
  rootAddr := v.rootAddr
  mounts := v.mounts
  behind := v.behind
  root_kind := rfl
  root_flags := rfl
  root_ptr := rfl

/-! ## Commands -/

/-- The shell over PAFS. -/
structure Session where
  kernel : Kernel
  shell : Shell FileRef

/-- `*shell_cwd_node` -/
def Session.cwd (s : Session) : Node FileRef := s.shell.cwdNode.node

/-- `shell_cwd_node->inode` -/
def Session.cwdInode (s : Session) : ℕ := s.cwd.inode.inode

/-- A command with its argument. -/
inductive FileCommand
  | cd (path : CString)
  | mkdir (name : CString)
  | touch (name : CString)
  | rm (name : CString)
  | rmdir (name : CString)
deriving DecidableEq

/-- The name that the command hands to PAFS, if it calls PAFS. -/
def FileCommand.argument : FileCommand → Option CString
  | .cd _ => none
  | .touch name => if name.chars.length = 0 then none else some name
  | .mkdir name | .rm name | .rmdir name => some name

/-- PAFS after the call that the command makes for the inode number of the working directory. A number
beyond the inode table is used as an index all the same; here nothing is found there. -/
def changed (k : Kernel) (ino : ℕ) : FileCommand → Kernel
  | .cd _ => k
  | .mkdir name => (pafsMkdir k ino name).1
  | .touch name => if name.chars.length = 0 then k else (pafsCreate k ino name false).1
  | .rm name | .rmdir name => (pafsDelete k ino name).1

/-- The shell after the command, with calls of `vfs_get_node_by_path` nested at most `d` deep. -/
def moved (d : ℕ) (t : DirTree FileRef) (s : Shell FileRef) : FileCommand → Shell FileRef
  | .cd path => stepCd d t s path
  | .mkdir _ | .touch _ | .rm _ | .rmdir _ => s

/-- `execute_command` -/
def fileStep (d : ℕ) (v : Volumes) (s : Session) (c : FileCommand) : Session :=
  if s.shell.hung then s
  else ⟨changed s.kernel s.cwdInode c, moved d (tree v s.kernel) s.shell c⟩

/-! ## The working directory -/

/-- The node whose directory a lookup in the given one searches: at a mount point that of the root mounted
there. -/
def directory {ι : Type} : Node ι → Node ι
  | ⟨nm, flags, inode, len, impl, ptr⟩ =>
    match ptr with
    | some root =>
      if flags &&& vfsMountpoint ≠ 0#32 then directory root else ⟨nm, flags, inode, len, impl, ptr⟩
    | none => ⟨nm, flags, inode, len, impl, ptr⟩

/-- PAFS changes in the directory `dir` only: the other directories keep their entries, and the inodes in
use stay with their blocks unless `dir` gives the name to one of them. On ext2 nothing changes. -/
structure ActsWithin (fs fs' : State) (dir : FileRef) (name : CString) : Prop where
  directories : ∀ d, dir ≠ ⟨.pafs, d⟩ → dirEntries fs' d = dirEntries fs d
  inodes : ∀ j, dir ≠ ⟨.pafs, j⟩ → (fs.inode j).type ≠ pafsTypeFree →
    (dir.kind = .pafs → pafsFindEntry fs dir.inode name ≠ j) → Untouched j fs fs'
  ext2 : dir.kind = .ext2 → State.SameData fs fs'

/-- The command acts in the directory that the working directory stands for, and the number that it hands to
PAFS is one of the inode table. -/
def Acts (d : ℕ) (v : Volumes) (s : Session) (c : FileCommand) : Prop :=
  s.shell.hung = false → ∀ name, c.argument = some name → s.cwdInode < 128 ∧
    ActsWithin s.kernel.fs (fileStep d v s c).kernel.fs (directory s.cwd).inode name

/-- A PAFS node that is no mount point. -/
def OwnDirectory (node : Node FileRef) : Prop :=
  node.inode.kind = .pafs ∧ ∀ root, ¬node.MountedOn root

/-- Why PAFS refuses the command. -/
def Refused (fs : State) (ino : ℕ) : FileCommand → Prop
  | .cd _ => True
  | .mkdir name => CreateRefused fs ino name true
  | .touch name => CreateRefused fs ino name false
  | .rm name | .rmdir name => DeleteRefused fs ino name

/-- A command that calls PAFS is given in a directory of PAFS, or refused for the inode of that number. -/
def Allowed (s : Session) (c : FileCommand) : Prop :=
  s.shell.hung = false → c.argument ≠ none →
    OwnDirectory s.cwd ∨ s.cwdInode < 128 ∧ Refused s.kernel.fs s.cwdInode c

/-! ## Calls of PAFS -/

section Calls

variable {k : Kernel} {ino : ℕ} {name : CString} {c : FileCommand} {dir : FileRef}

theorem ActsWithin.refl (fs : State) (dir : FileRef) (name : CString) : ActsWithin fs fs dir name where
  directories _ _ := rfl
  inodes _ _ _ _ := ⟨rfl, fun _ _ => rfl⟩
  ext2 _ := State.SameData.refl fs

theorem actsWithin_create (h : Inv k.fs) (hino : ino < 128) (isDir : Bool) :
    ActsWithin k.fs (pafsCreate k ino name isDir).1.fs ⟨.pafs, ino⟩ name := by
  rcases pafsCreate_cases h hino name isDir with ⟨-, hsame⟩ | ⟨new, n, m, mid, -, hcr⟩
  · rw [hsame]
    exact ActsWithin.refl _ _ _
  · refine ⟨fun d hd => hcr.dirEntries_ne h fun heq => hd (heq ▸ rfl), fun j hj hused _ => ?_, nofun⟩
    refine hcr.untouched h ?_ fun heq => hj (heq ▸ rfl)
    rintro rfl
    exact hused (findFreeInode_free hcr.free)

theorem actsWithin_delete (h : Inv k.fs) :
    ActsWithin k.fs (pafsDelete k ino name).1.fs ⟨.pafs, ino⟩ name := by
  rcases pafsDelete_cases h ino name with ⟨-, hsame, -⟩ | ⟨-, hsame, -⟩ | ⟨i, t, n, m, -, hfind, hdel⟩
  · rw [hsame]
    exact ActsWithin.refl _ _ _
  · rw [hsame]
    exact ActsWithin.refl _ _ _
  · refine ⟨fun d hd => hdel.dirEntries_ne h fun heq => hd (heq ▸ rfl), fun j hj _ hne => ?_, nofun⟩
    refine hdel.untouched h (fun heq => hj (heq ▸ rfl)) ?_
    rintro rfl
    exact hne rfl hfind

/-- **One call** changes the directory of its number only. -/
theorem actsWithin_changed (h : Inv k.fs) (hino : ino < 128) (hname : c.argument = some name) :
    ActsWithin k.fs (changed k ino c).fs ⟨.pafs, ino⟩ name := by
  cases c with
  | cd path => exact absurd hname (by simp [FileCommand.argument])
  | mkdir n =>
    obtain rfl := Option.some.inj hname
    exact actsWithin_create h hino true
  | touch n =>
    rw [FileCommand.argument] at hname
    split at hname
    · exact absurd hname (by simp)
    · next hne =>
      obtain rfl := Option.some.inj hname
      rw [changed, if_neg hne]
      exact actsWithin_create h hino false
  | rm n =>
    obtain rfl := Option.some.inj hname
    exact actsWithin_delete h
  | rmdir n =>
    obtain rfl := Option.some.inj hname
    exact actsWithin_delete h

theorem create_refused_iff (h : Inv k.fs) (hino : ino < 128) (isDir : Bool) :
    State.SameData k.fs (pafsCreate k ino name isDir).1.fs ↔ CreateRefused k.fs ino name isDir := by
  rw [← createFails_iff h, ← pafsCreate_eq_neg_one_iff]
  rcases pafsCreate_cases h hino name isDir with ⟨hfail, hsame⟩ | ⟨new, n, m, mid, hnew, hcr⟩
  · rw [hsame]
    exact iff_of_true (State.SameData.refl _) hfail
  · -- the new inode was free
    refine iff_of_false (fun hsame => ?_) (by omega)
    have htype := hcr.type_self
    rw [hsame.inode, findFreeInode_free hcr.free] at htype
    cases isDir <;> exact absurd htype (by decide)

theorem delete_refused_iff (h : Inv k.fs) :
    State.SameData k.fs (pafsDelete k ino name).1.fs ↔ DeleteRefused k.fs ino name := by
  rcases pafsDelete_cases h ino name with
    ⟨-, hsame, hnone⟩ | ⟨-, hsame, i, hfind, hfull⟩ | ⟨i, t, n, m, -, hfind, hdel⟩
  · rw [hsame]
    exact iff_of_true (State.SameData.refl _) (Or.inl hnone)
  · rw [hsame]
    refine iff_of_true (State.SameData.refl _) (Or.inr ?_)
    rw [hfind, Int.toNat_natCast, pafsIsDirEmpty_eq_false]
    exact hfull
  · refine iff_of_false (fun hsame => ?_) ?_
    · -- the last slot was occupied
      have hlt := hdel.lt
      have hlast := hdel.dirent h (ino, n - 1)
      rw [dirent_sameData h hsame, hdel.layout.dirent_eq hdel.dir, if_pos (by omega), if_pos rfl,
        if_neg (lt_irrefl _)] at hlast
      exact absurd hlast (by simp)
    · rintro (hnone | hfull)
      · omega
      · rw [hfind, Int.toNat_natCast, pafsIsDirEmpty_eq_false] at hfull
        exact hfull.2 (hdel.empty hfull.1)

/-- **A call changes PAFS unless it is refused.** -/
theorem changed_refused_iff (h : Inv k.fs) (hino : ino < 128) (hname : c.argument ≠ none) :
    State.SameData k.fs (changed k ino c).fs ↔ Refused k.fs ino c := by
  cases c with
  | cd path => exact absurd rfl hname
  | mkdir n => exact create_refused_iff h hino true
  | touch n =>
    rw [FileCommand.argument] at hname
    split at hname
    · exact absurd rfl hname
    · next hne =>
      rw [changed, if_neg hne]
      exact create_refused_iff h hino false
  | rm n => exact delete_refused_iff h
  | rmdir n => exact delete_refused_iff h

theorem changed_of_argument (h : c.argument = none) : changed k ino c = k := by
  cases c with
  | cd path => rfl
  | touch n =>
    rw [FileCommand.argument] at h
    split at h
    · next hnil => rw [changed, if_pos hnil]
    · exact absurd h (by simp)
  | mkdir n => exact absurd h (by simp [FileCommand.argument])
  | rm n => exact absurd h (by simp [FileCommand.argument])
  | rmdir n => exact absurd h (by simp [FileCommand.argument])

theorem inv_changed (h : Inv k.fs) (hino : ino < 128) (c : FileCommand) : Inv (changed k ino c).fs := by
  cases c with
  | cd path => exact h
  | mkdir n => exact h.create hino n true
  | touch n =>
    rw [changed]
    split
    · exact h
    · exact h.create hino n false
  | rm n => exact h.delete ino n
  | rmdir n => exact h.delete ino n

end Calls

/-! ## The node of the working directory -/

/-- A PAFS node has an inode number of the table, and a mount point stands for a node of ext2. -/
structure Placed (node : Node FileRef) : Prop where
  inTable : node.inode.kind = .pafs → node.inode.inode < 128
  mounted : ∀ root, node.MountedOn root → root.inode.kind = .ext2 ∧ root.ptr = none

/-- What holds of a session after every command. -/
structure Sound (s : Session) : Prop where
  inv : Inv s.kernel.fs
  placed : Placed s.cwd

section Directory

variable {ι : Type} {v : Volumes} {k : Kernel} {node r root : Node FileRef} {name : List Byte}

/-- A lookup searches the directory behind the mount points. -/
theorem findNode_directory (t : DirTree ι) (node : Node ι) (name : List Byte) :
    t.findNode node name = t.findHere (directory node) name := by
  fun_induction directory node with
  | case1 nm flags inode len impl root hmount ih => rw [DirTree.findNode, if_pos hmount, ih]
  | case2 nm flags inode len impl root hplain => rw [DirTree.findNode, if_neg hplain]
  | case3 => rfl

theorem directory_of_mounted (h : r.MountedOn root) : directory r = directory root := by
  obtain ⟨nm, flags, inode, len, impl, ptr⟩ := r
  obtain ⟨hflags, rfl⟩ := h
  rw [directory, if_pos hflags]

theorem directory_of_not_mounted (h : ∀ root, ¬r.MountedOn root) : directory r = r := by
  obtain ⟨nm, flags, inode, len, impl, ptr⟩ := r
  cases ptr with
  | none => rfl
  | some root => rw [directory, if_neg fun hflags => h root ⟨hflags, rfl⟩]

/-- The directory is that of a PAFS node or it is one of ext2. -/
theorem Placed.directory_cases (h : Placed node) :
    OwnDirectory node ∧ (directory node).inode = ⟨.pafs, node.inode.inode⟩ ∧ node.inode.inode < 128 ∨
      ¬OwnDirectory node ∧ (directory node).inode.kind = .ext2 := by
  by_cases hmount : ∃ root, node.MountedOn root
  · obtain ⟨root, hroot⟩ := hmount
    obtain ⟨hkind, hptr⟩ := h.mounted root hroot
    have hplain : ∀ r, ¬root.MountedOn r := fun r hr => by simpa [hptr] using hr.2
    refine Or.inr ⟨fun hown => hown.2 root hroot, ?_⟩
    rw [directory_of_mounted hroot, directory_of_not_mounted hplain]
    exact hkind
  · have hplain := not_exists.mp hmount
    rw [directory_of_not_mounted hplain]
    cases hkind : node.inode.kind with
    | pafs => exact Or.inl ⟨⟨hkind, hplain⟩, hkind ▸ rfl, h.inTable hkind⟩
    | ext2 => exact Or.inr ⟨fun hown => absurd (hkind.symm.trans hown.1) (by decide), rfl⟩

theorem mountAt_mem {ms : List (Mount ι)} {root : Node ι} (h : mountAt ms = some root) :
    ∃ m ∈ ms, m.root = root := by
  induction ms with
  | nil => exact absurd h (by simp [mountAt])
  | cons m ms ih =>
    rw [mountAt] at h
    split at h
    · exact ⟨m, List.mem_cons_self, Option.some.inj h⟩
    · obtain ⟨m', hm', hroot⟩ := ih h
      exact ⟨m', List.mem_cons_of_mem m hm', hroot⟩

theorem placed_root (h : Inv k.fs) : Placed (tree v k).root where
  inTable _ := by
    change k.fs.sb.rootInode.toNat < 128
    rw [h.root]
    decide
  mounted _ hroot := absurd hroot.2 (by simp [(tree v k).root_ptr])

/-- What `pafs_vfs_finddir` finds is in the inode table. -/
theorem inode_lt_of_finddir (h : Inv k.fs) {d : ℕ} {n : CString} {res : VfsNode}
    (hres : (pafsVfsFinddir k d n).2 = some res) : res.inode.toNat < 128 := by
  simp only [pafsVfsFinddir, apply_ite Prod.snd, Kernel.fs_touchDisk, Kernel.fs_lock] at hres
  rcases h.findEntry_cases d n with hnone | ⟨i, t, m, m', hfind, hf⟩
  · exact absurd hres (by simp [hnone])
  · rw [hfind, if_pos (by omega)] at hres
    obtain rfl := Option.some.inj hres
    have hlt := hf.ino_lt
    have hnat : (BitVec.ofInt 32 (i : ℤ)).toNat = i := by
      rw [BitVec.ofInt_natCast]
      exact toNat_ofNat_of_lt (by omega)
    dsimp only
    rw [hnat]
    exact hlt

/-- Every node that a lookup makes is placed. -/
theorem placed_of_findNode (h : Inv k.fs) (hfind : (tree v k).findNode node name = some r) :
    Placed r := by
  obtain ⟨d, i, hi, rfl⟩ := DirTree.exists_of_findNode hfind
  refine ⟨fun hkind => ?_, fun root hroot => ?_⟩
  · rw [DirTree.nodeFor_inode] at hkind ⊢
    obtain ⟨kind, ino⟩ := d
    obtain rfl : kind = .pafs := ((tree v k).find_kind hi).symm.trans hkind
    obtain ⟨res, hres, rfl⟩ := Option.map_eq_some_iff.mp hi
    exact inode_lt_of_finddir h hres
  · obtain ⟨-, hmount⟩ := DirTree.nodeFor_mountedOn.mp hroot
    obtain ⟨m, hm, rfl⟩ := mountAt_mem hmount
    obtain ⟨hkind, hptr⟩ := v.mounts_ext2 m hm
    exact ⟨hkind, Option.isNone_iff_eq_none.mp hptr⟩

theorem callInvariant_tree (h : Inv k.fs) :
    (tree v k).CallInvariant (fun _ => True) Placed fun handle => Placed handle.node where
  put _ := trivial
  node _ hn := ⟨trivial, hn⟩
  close _ _ := trivial
  found hfind := placed_of_findNode h hfind
  root := placed_root h

/-- `cd` leads to the node that a call returned, or nowhere. -/
theorem placed_stepCd (h : Inv k.fs) {d : ℕ} {s : Shell FileRef} (hs : Placed s.cwdNode.node)
    (path : CString) : Placed (stepCd d (tree v k) s path).cwdNode.node := by
  -- every lookup from a placed node gives a placed node
  have hcall : ∀ st base p st' node, Placed base →
      (tree v k).vfsGetNodeByPath d st (some base) p = (st', some (some node)) → Placed node.node := by
    intro st base p st' node hbase hres
    have hends : ((tree v k).vfsGetNodeByPath d st (some base) p).Ends (fun _ => True)
        fun handle => Placed handle.node :=
      (callInvariant_tree h).vfsGetNodeByPath d trivial fun b hb => Option.some.inj hb ▸ hbase
    exact hends.handle node (by rw [hres])
  unfold stepCd
  split
  · split
    · dsimp only
      rcases hres : (tree v k).vfsGetNodeByPath d (s.vfs.put (parent s.cwdPath).chars)
        (some (tree v k).root) (parent s.cwdPath) with ⟨st', _ | _ | node⟩
      · exact hs
      · exact hs
      · exact hcall _ _ _ _ _ (placed_root h) hres
    · exact hs
  · rcases hres : (tree v k).vfsGetNodeByPath d s.vfs (some s.cwdNode.node) path with ⟨st', _ | _ | node⟩
    · exact hs
    · exact hs
    · dsimp only
      split
      · exact hcall _ _ _ _ _ hs hres
      · exact hs

theorem placed_moved (h : Inv k.fs) {d : ℕ} {s : Shell FileRef} (hs : Placed s.cwdNode.node)
    (c : FileCommand) : Placed (moved d (tree v k) s c).cwdNode.node := by
  cases c with
  | cd path => exact placed_stepCd h hs path
  | mkdir n => exact hs
  | touch n => exact hs
  | rm n => exact hs
  | rmdir n => exact hs

end Directory

/-! ## Runs -/

section Run

variable {d : ℕ} {v : Volumes} {s : Session} {c : FileCommand}

theorem fileStep_hung (h : s.shell.hung = true) : fileStep d v s c = s := by
  rw [fileStep, if_pos h]

theorem fileStep_running (h : s.shell.hung = false) :
    fileStep d v s c = ⟨changed s.kernel s.cwdInode c, moved d (tree v s.kernel) s.shell c⟩ := by
  rw [fileStep, if_neg (by simp [h])]

/-- **One command** is allowed if and only if it acts in the working directory. -/
theorem Sound.acts_iff (hs : Sound s) : Acts d v s c ↔ Allowed s c := by
  refine imp_congr_right fun hhung => ?_
  cases hname : c.argument with
  | none => simp
  | some name =>
    have hne : c.argument ≠ none := by simp [hname]
    rw [fileStep_running hhung]
    simp only [Option.some.injEq, forall_eq', ne_eq, reduceCtorEq, not_false_eq_true, true_implies]
    rcases hs.placed.directory_cases with ⟨hown, hdir, hlt⟩ | ⟨hown, hdir⟩
    · rw [hdir]
      exact iff_of_true ⟨hlt, actsWithin_changed hs.inv hlt hname⟩ (Or.inl hown)
    · -- nothing may change, since the directory is one of ext2
      simp only [hown, false_or]
      refine and_congr_right fun hlt => ?_
      rw [← changed_refused_iff hs.inv hlt hne]
      refine ⟨fun hacts => hacts.ext2 hdir, fun hsame => ?_⟩
      refine ⟨fun d _ => dirEntries_congr fun u => dirent_sameData hs.inv hsame _,
        fun j _ _ _ => Untouched.of_sameData hs.inv hsame j, fun _ => hsame⟩

theorem Sound.fileStep (hs : Sound s) (hc : Allowed s c) : Sound (fileStep d v s c) := by
  cases hhung : s.shell.hung with
  | true => rwa [fileStep_hung hhung]
  | false =>
    rw [fileStep_running hhung]
    refine ⟨?_, placed_moved hs.inv hs.placed c⟩
    cases hname : c.argument with
    | none =>
      dsimp only
      rw [changed_of_argument hname]
      exact hs.inv
    | some name =>
      refine inv_changed hs.inv ?_ c
      rcases hc hhung (by simp [hname]) with hown | ⟨hlt, -⟩
      · exact hs.placed.inTable hown.1
      · exact hlt

end Run

/-- **Commands act in the working directory exactly if they are allowed**: in every run of the commands over
every PAFS that calls after a `pafs_format` have left, with any ext2 disks mounted, each `mkdir`, `touch`,
`rm` and `rmdir` changes at most the directory that the working directory stands for, and nothing of PAFS
when that is a directory of ext2, if and only if each is given in a PAFS directory that is no mount point
or refused by PAFS for the inode of the same number. -/
theorem shell_acts_iff (d : ℕ) (v : Volumes) (k₀ : Kernel) (ops : List Op) {shell : Shell FileRef}
    (hs : AtRoot (tree v (run (pafsFormat k₀) ops)) shell) (cs : List FileCommand) :
    let s : Session := ⟨run (pafsFormat k₀) ops, shell⟩
    Steps (fileStep d v) (Acts d v) s cs ↔ Steps (fileStep d v) Allowed s cs := by
  intro s
  have hinv : Inv s.kernel.fs := Reachable.inv ⟨k₀, ops, rfl⟩
  have hsound : Sound s := ⟨hinv, by
    change Placed shell.cwdNode.node
    rw [hs.cwdNode]
    exact placed_root hinv⟩
  constructor
  · exact Steps.imp (fun hs hacts => hs.fileStep (hs.acts_iff.mp hacts))
      (fun hs hacts => hs.acts_iff.mp hacts) hsound
  · exact Steps.imp (fun hs hc => hs.fileStep hc) (fun hs hc => hs.acts_iff.mpr hc) hsound

/-! ## An empty disk at `/mnt` -/

/-- One ext2 disk without files, whose root is inode 2. -/
def emptyVolumes : Volumes where
  ext2 :=
    { kind := fun _ => .ext2
      flags := fun _ => vfsDirectory
      length := fun _ => 0#32
      find := fun _ _ => none
      entries := fun _ => []
      content := fun _ => []
      flags_pafs := nofun
      flags_ext2 := fun _ => Or.inr (Or.inl rfl)
      find_kind := nofun
      entries_pafs := nofun }
  ext2_kind _ := rfl
  mounts := vfsMount [] ⟨mntPath, mntPath_noNul⟩ ⟨[slash], vfsDirectory, ⟨.ext2, 2⟩, 0#32, none, none⟩
  mounts_ext2 m hm := by
    obtain rfl := List.mem_singleton.mp hm
    exact ⟨rfl, rfl⟩
  rootAddr := 0
  rootLength := 0#32
  behind _ := []

/-- The shell after `init_shell`, over a fresh RAM disk. -/
def freshSession : Session :=
  let k := run (pafsFormat ramdiskKernel) []
  ⟨k, ⟨rootPath, ⟨0, (tree emptyVolumes k).root⟩, rootOnly, false⟩⟩

/-- `mkdir a` and `touch b` in the root. -/
theorem shell_acts_root :
    AtRoot (tree emptyVolumes (run (pafsFormat ramdiskKernel) [])) freshSession.shell ∧
      Steps (fileStep 8 emptyVolumes) (Acts 8 emptyVolumes) freshSession
        [.mkdir ⟨[97#8], by decide⟩, .touch ⟨[98#8], by decide⟩] := by
  have hroot : AtRoot (tree emptyVolumes (run (pafsFormat ramdiskKernel) [])) freshSession.shell :=
    ⟨rfl, rfl⟩
  have hown : OwnDirectory freshSession.cwd := ⟨rfl, fun root hmount => nomatch hmount.2⟩
  refine ⟨hroot, (shell_acts_iff 8 emptyVolumes ramdiskKernel [] hroot _).mpr ?_⟩
  exact ⟨fun _ _ => Or.inl hown, fun _ _ => Or.inl hown, trivial⟩

/-- `mkdir mnt`, `cd /mnt` and `mkdir a`: the working directory is that of the disk, and inode 2 of PAFS
becomes a directory. -/
theorem shell_acts_behind_mount :
    let cs : List FileCommand := [.mkdir ⟨mntName, by decide⟩, .cd ⟨mntPath, by decide⟩]
    let s := cs.foldl (fileStep 8 emptyVolumes) freshSession
    let c : FileCommand := .mkdir ⟨[97#8], by decide⟩
    (directory s.cwd).inode = ⟨.ext2, 2⟩ ∧ (s.kernel.fs.inode 2).type = pafsTypeFree ∧
      ((fileStep 8 emptyVolumes s c).kernel.fs.inode 2).type = pafsTypeDir ∧
      ¬Steps (fileStep 8 emptyVolumes) (Acts 8 emptyVolumes) freshSession (cs ++ [c]) := by
  intro cs s c
  have hdir : (directory s.cwd).inode = ⟨.ext2, 2⟩ := by decide +kernel
  have hfree : (s.kernel.fs.inode 2).type = pafsTypeFree := by decide +kernel
  have htaken : ((fileStep 8 emptyVolumes s c).kernel.fs.inode 2).type = pafsTypeDir := by
    decide +kernel
  refine ⟨hdir, hfree, htaken, fun hsteps => ?_⟩
  obtain ⟨-, hacts, -⟩ := steps_append.mp hsteps
  obtain ⟨-, hwithin⟩ := hacts (by decide +kernel) _ rfl
  have hsame := (hwithin.ext2 (by rw [hdir])).inode 2
  rw [hsame, hfree] at htaken
  exact absurd htaken (by decide)

end PekerOS.Ui
