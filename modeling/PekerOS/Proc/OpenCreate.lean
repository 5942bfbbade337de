import PekerOS.Fs.Pafs.NewFile
import PekerOS.Fs.Vfs.Components
import PekerOS.Proc.Descriptors
import PekerOS.Ui.FileCommands

/-!
# Opening a file that is to be created

`sys_open` looks its path up from the root. When that fails and the flag for it is set, it hands the path
as it is to `pafs_write`, which takes it for a name in the root of PAFS, makes an entry of its first 27
characters, and looks the path up again. The two agree when the path is one name. Of a path with a slash the
file is made all the same, under a name that no path reaches, and the call returns `-1`.

A name that now resolves can make others resolve: links that have led to it, and, as the name is `mnt`, all
that is on the disk mounted there.

## Main definitions

* `sysOpenPafs`: `sys_open` over PAFS
* `Resolvable`: a path resolves
* `CreatesFile`: the descriptor is on a new empty file, only its path newly resolves, and a call that fails
  leaves PAFS alone
* `Lacks`, `Direct`: the root is searched for the name in vain, and the paths for which that is all

## Main results

* `adds_of_entered`: a file in the root is one more edge of the tree
* `open_creates_iff`: **opening creates the file of a path exactly if the path is direct**
-/

namespace PekerOS.Fd

open Vfs Pafs
open Ui (FileRef Volumes disks tree directory findNode_directory directory_of_mounted
  directory_of_not_mounted emptyVolumes)

/-- `sys_open` over PAFS, with what is mounted besides. -/
def sysOpenPafs (d : ℕ) (v : Volumes) (k : Kernel) (s : Files FileRef) (pid : ℕ) (path : CString)
    (flags : Word) : Kernel × Files FileRef × Option Word :=
  let created := (pafsWrite k path (fun _ => 0#8) 0).1
  let kernel := match ((tree v k).vfsGetNodeByPath d s.vfs (some (tree v k).root) path).2 with
    | some none => if flags &&& 1#32 ≠ 0#32 then created else k
    | _ => k
  (kernel, sysOpen d (tree v k) s pid (tree v k) (tree v created) path flags)

/-- The path resolves from the root, for some number of nested calls. -/
def Resolvable (v : Volumes) (k : Kernel) (path : CString) : Prop :=
  ∃ r, (tree v k).Resolves (some (tree v k).root) path (some r)

/-- What opening a path that does not resolve is to do when it creates the file. -/
structure CreatesFile (v : Volumes) (k k' : Kernel) (s s' : Files FileRef) (pid : ℕ) (path : CString)
    (ret : Option Word) : Prop where
  /-- A free descriptor holds the node of the path: that of an inode that was free and is an empty
  file. -/
  opened : ∃ (i : ℕ) (h : Handle FileRef) (new : ℕ), i < 16 ∧ ret = some (BitVec.ofNat 32 i) ∧
    s.entry pid i = none ∧ s'.entry pid i = some (.file h) ∧
    (tree v k').Resolves (some (tree v k').root) path (some h.node) ∧ h.node.inode = ⟨.pafs, new⟩ ∧
    (k.fs.inode new).type = pafsTypeFree ∧ (k'.fs.inode new).type = pafsTypeFile ∧
    (k'.fs.inode new).size = 0#32
  /-- The path newly resolves, however it is spelled, and no other does. -/
  resolved : ∀ q, Resolvable v k' q ∧ ¬Resolvable v k q ↔ names q = names path
  failed : ret = some (-1#32) → State.SameData k.fs k'.fs

/-- A lookup of the name in the node searches the root of PAFS, and finds nothing. -/
def Lacks (v : Volumes) (k : Kernel) (w : List Byte) (node : Node FileRef) (name : List Byte) : Prop :=
  name = w ∧ (directory node).inode = (tree v k).root.inode ∧
    (directory node).flags &&& vfsDirectory ≠ 0#32 ∧ (tree v k).findNode node name = none

/-- The path is a name as `pafs_write` stores it, no other path leads to where the name is missing, through
links, and if a disk is mounted under the name, no path leads anywhere on it. -/
structure Direct (v : Volumes) (k : Kernel) (path : CString) : Prop where
  whole : names path = [path.chars.take 27]
  unlinked : ∀ q, (tree v k).graph.Stops (Lacks v k (path.chars.take 27)) (tree v k).root (names q) →
    names q = names path
  unmounted : path.chars.take 27 = mntName → ∀ disk, mountAt v.mounts = some disk →
    ∀ q, names q ≠ [] → ¬(tree v k).graph.Stops (Lacks v k (path.chars.take 27)) disk (names q) ∧
      ∀ r, ¬(tree v k).graph.Walks disk (names q) r

/-- A name that the loop looks up whole. -/
def IsName (w : List Byte) : Prop := ∃ n : CString, n.chars = w ∧ DirTree.Component n

/-! ## Lookups in PAFS -/

section Lookup

variable {v : Volumes} {k k' : Kernel} {d i : ℕ} {w : List Byte}

theorem find_of_absent (h : pafsFindEntry k.fs d (CString.ofBytes w) = -1) :
    (tree v k).find ⟨.pafs, d⟩ w = none := by
  change ((pafsVfsFinddir k d (CString.ofBytes w)).2.map _) = none
  simp [pafsVfsFinddir, h]

theorem find_of_entry (hinv : Inv k.fs) (h : pafsFindEntry k.fs d (CString.ofBytes w) = (i : ℕ)) :
    (tree v k).find ⟨.pafs, d⟩ w = some ⟨.pafs, i⟩ := by
  obtain ⟨ino, t, n, m, hino, hf⟩ := (hinv.findEntry_cases d (CString.ofBytes w)).resolve_left (by omega)
  obtain rfl : ino = i := by omega
  have hlt := hf.ino_lt
  change ((pafsVfsFinddir k d (CString.ofBytes w)).2.map _) = _
  simp only [pafsVfsFinddir, Kernel.fs_touchDisk, Kernel.fs_lock, h]
  rw [if_pos (by omega)]
  simp only [Option.map_some, Option.some.injEq, FileRef.mk.injEq, true_and]
  rw [BitVec.ofInt_natCast]
  exact toNat_ofNat_of_lt (by omega)

/-- An entry is missing if the lookup says so. -/
theorem findEntry_of_find (hinv : Inv k.fs) (h : (tree v k).find ⟨.pafs, d⟩ w = none) :
    pafsFindEntry k.fs d (CString.ofBytes w) = -1 := by
  rcases hinv.findEntry_cases d (CString.ofBytes w) with hnone | ⟨ino, t, n, m, hino, -⟩
  · exact hnone
  · rw [find_of_entry hinv hino] at h
    cases h

theorem root_inode (hinv : Inv k.fs) : (tree v k).root.inode = ⟨.pafs, 0⟩ := by
  change FileRef.mk .pafs k.fs.sb.rootInode.toNat = _
  rw [hinv.root]
  rfl

theorem nodeFor_not_link {i : FileRef} {name : List Byte} (hkind : i.kind = .pafs) :
    ((tree v k).nodeFor i name).flags &&& vfsSymlink = 0#32 := by
  rw [DirTree.nodeFor_symlink]
  rcases (tree v k).flags_pafs hkind with hflags | hflags
  · rw [hflags]
    decide
  · rw [hflags]
    decide

theorem directory_root : directory (tree v k).root = (tree v k).root :=
  directory_of_not_mounted fun _ hmount => nomatch hmount.2

/-- The root lacks a name that has no entry. -/
theorem lacks_root_iff (hinv : Inv k.fs) :
    Lacks v k w (tree v k).root w ↔ pafsFindEntry k.fs 0 (CString.ofBytes w) = -1 := by
  have hflags : (tree v k).root.flags &&& vfsDirectory ≠ 0#32 := by
    rw [(tree v k).root_flags]
    decide
  rw [Lacks, directory_root, DirTree.findNode_root, root_inode hinv, Option.map_eq_none_iff]
  constructor
  · exact fun h => findEntry_of_find hinv h.2.2.2
  · exact fun h => ⟨rfl, rfl, hflags, find_of_absent h⟩

/-- A node that lacks the name searches the root. -/
theorem Lacks.root (hinv : Inv k.fs) {node : Node FileRef} {name : List Byte}
    (h : Lacks v k w node name) : Lacks v k w (tree v k).root w := by
  obtain ⟨rfl, hdir, hflags, hnone⟩ := h
  rw [findNode_directory, DirTree.findHere, if_pos hflags, hdir, root_inode hinv] at hnone
  exact (lacks_root_iff hinv).mpr (findEntry_of_find hinv (Option.map_eq_none_iff.mp hnone))

theorem findHere_congr {node : Node FileRef} {name : List Byte}
    (h : node.flags &&& vfsDirectory ≠ 0#32 → ((tree v k').find node.inode name).map
      (fun i => (tree v k').nodeFor i name) = ((tree v k).find node.inode name).map
      fun i => (tree v k).nodeFor i name) :
    (tree v k').findHere node name = (tree v k).findHere node name := by
  unfold DirTree.findHere
  by_cases hdir : node.flags &&& vfsDirectory ≠ 0#32
  · rw [if_pos hdir, if_pos hdir, h hdir]
  · rw [if_neg hdir, if_neg hdir]

/-- What is found in the root is no link. -/
theorem walks_of_not_lacks (hinv : Inv k.fs) (h : ¬Lacks v k w (tree v k).root w) :
    ∃ r, (tree v k).graph.Walks (tree v k).root [w] r := by
  rw [lacks_root_iff hinv] at h
  obtain ⟨i, t, n, m, hi, -⟩ := (hinv.findEntry_cases 0 (CString.ofBytes w)).resolve_left h
  have hfind : (tree v k).findNode (tree v k).root w = some ((tree v k).nodeFor ⟨.pafs, i⟩ w) := by
    rw [DirTree.findNode_root, root_inode hinv, find_of_entry hinv hi, Option.map_some]
  exact ⟨_, .node (DirTree.find_node hfind (nodeFor_not_link rfl)) .nil⟩

theorem resolvable_iff {q : CString} :
    Resolvable v k q ↔ ∃ r, (tree v k).graph.Walks (tree v k).root (names q) r := by
  refine exists_congr fun r => DirTree.resolves_some_iff.trans ?_
  simp [DirTree.Names, DirTree.start]

end Lookup

/-! ## A file in the root is one more edge -/

section Entered

variable {v : Volumes} {k k' : Kernel} {new n : ℕ} {w : List Byte}

theorem root_of_entered (he : Entered k.fs k'.fs new n w) : (tree v k').root = (tree v k).root := by
  change Node.mk _ _ (FileRef.mk .pafs k'.fs.sb.rootInode.toNat) _ _ _ = _
  rw [he.rootInode]
  rfl

/-- The nodes of the inodes other than the root's are the same, also that of the new file. -/
theorem nodeFor_of_entered (h : Inv k.fs) (he : Entered k.fs k'.fs new n w) {i : FileRef}
    (hi : i ≠ ⟨.pafs, 0⟩) (name : List Byte) : (tree v k').nodeFor i name = (tree v k).nodeFor i name := by
  have hinode : i.kind = .pafs → ((k'.fs.inode i.inode).type = pafsTypeDir ↔
      (k.fs.inode i.inode).type = pafsTypeDir) ∧
      (k'.fs.inode i.inode).size = (k.fs.inode i.inode).size := by
    intro hkind
    by_cases hnew : i.inode = new
    · rw [hnew, he.type, he.size, he.wasFree, h.free new he.wasFree]
      exact ⟨by decide, rfl⟩
    · rw [he.inode _ (fun h0 => hi (by cases i; cases hkind; cases h0; rfl)) hnew]
      exact ⟨Iff.rfl, rfl⟩
  have hmake : (tree v k').makeNode i name = (tree v k).makeNode i name := by
    obtain ⟨kind, j⟩ := i
    cases kind with
    | pafs =>
      obtain ⟨htype, hsize⟩ := hinode rfl
      simp only [DirTree.makeNode, tree, disks, htype, hsize]
    | ext2 => rfl
  rw [DirTree.nodeFor, hmake]
  rfl

/-- A lookup in the root directory of the new name, if it was missing. -/
theorem findNode_new (h : Inv k.fs) (h' : Inv k'.fs) (he : Entered k.fs k'.fs new n w)
    {node : Node FileRef} {name : List Byte} (hname : IsName name) (hlack : Lacks v k w node name) :
    (tree v k').findNode node name = some ((tree v k).nodeFor ⟨.pafs, new⟩ w) := by
  have habsent := (lacks_root_iff h).mp (hlack.root h)
  obtain ⟨rfl, hdir, hflags, -⟩ := hlack
  obtain ⟨c, rfl, -⟩ := hname
  rw [findNode_directory, DirTree.findHere, if_pos hflags, hdir, root_inode h]
  have hentry := he.findEntry_new h h' (CString.ofBytes_chars c.noNul) habsent
  rw [find_of_entry h' hentry, Option.map_some, nodeFor_of_entered h he]
  intro heq
  exact h.free_ne_zero he.wasFree (FileRef.mk.inj heq).2

/-- The other lookups find what they found. -/
theorem findNode_other (h : Inv k.fs) (h' : Inv k'.fs) (he : Entered k.fs k'.fs new n w)
    {node : Node FileRef} {name : List Byte} (hname : IsName name) (hlack : ¬Lacks v k w node name) :
    (tree v k').findNode node name = (tree v k).findNode node name := by
  obtain ⟨c, rfl, -⟩ := hname
  have hchars := CString.ofBytes_chars c.noNul
  rw [findNode_directory, findNode_directory]
  refine findHere_congr fun hflags => ?_
  rcases hinode : (directory node).inode with ⟨kind, d⟩
  cases kind with
  | ext2 =>
    -- the same inode of ext2, and the same node for it
    have hfind : ∀ k, (tree v k).find ⟨.ext2, d⟩ c.chars =
        (v.ext2.find d c.chars).map fun j => ⟨.ext2, j⟩ := fun _ => rfl
    rw [hfind, hfind, Option.map_map, Option.map_map]
    rfl
  | pafs =>
    rcases h.findEntry_cases d (CString.ofBytes c.chars) with hnone | ⟨i, t, m, m', hi, hf⟩
    · have hother : ¬(d = 0 ∧ (CString.ofBytes c.chars).chars = w) := by
        rintro ⟨rfl, hw⟩
        refine hlack ⟨hchars.symm.trans hw, by rw [hinode, root_inode h], hflags, ?_⟩
        rw [findNode_directory, DirTree.findHere, if_pos hflags, hinode, find_of_absent hnone]
        rfl
      rw [find_of_absent hnone, find_of_absent (he.findEntry_missing h h' hother hnone)]
      rfl
    · have hi' := (he.findEntry_found h h' (by omega)).trans hi
      rw [find_of_entry h hi, find_of_entry h' hi', Option.map_some, Option.map_some,
        nodeFor_of_entered h he]
      intro heq
      exact hf.ino_ne_zero (FileRef.mk.inj heq).2

/-- No link is in PAFS. -/
theorem kind_of_link {node : Node FileRef} {name : List Byte} {l : FileRef}
    (h : (tree v k).graph.find node name = .link l) : l.kind = .ext2 := by
  cases hfind : (tree v k).findNode node name with
  | none => simp [DirTree.find_missing hfind] at h
  | some res =>
    by_cases hlink : res.flags &&& vfsSymlink = 0#32
    · simp [DirTree.find_node hfind hlink] at h
    · rw [DirTree.find_link hfind hlink] at h
      obtain rfl := Found.link.inj h
      obtain ⟨d, i, -, rfl⟩ := DirTree.exists_of_findNode hfind
      rw [DirTree.nodeFor_inode]
      cases hkind : i.kind with
      | ext2 => rfl
      | pafs => exact absurd (nodeFor_not_link hkind) hlink

/-- **A file in the root is one more edge**, to its node, where the root is searched for its name. -/
theorem adds_of_entered (h : Inv k.fs) (h' : Inv k'.fs) (he : Entered k.fs k'.fs new n w) :
    LinkGraph.Adds (tree v k).graph (tree v k').graph IsName (Lacks v k w)
      ((tree v k).nodeFor ⟨.pafs, new⟩ w) where
  missing hlack := DirTree.find_missing hlack.2.2.2
  found hname hlack :=
    DirTree.find_node (findNode_new h h' he hname hlack) (nodeFor_not_link rfl)
  other hname hlack := by
    unfold DirTree.graph
    dsimp only
    rw [findNode_other h h' he hname hlack]
  target {node name l} hlink := by
    obtain ⟨kind, j⟩ := l
    obtain rfl : kind = .ext2 := kind_of_link hlink
    have htext : (tree v k').linkText ⟨.ext2, j⟩ = (tree v k).linkText ⟨.ext2, j⟩ := rfl
    unfold DirTree.graph
    dsimp only
    rw [htext, root_of_entered he]
  good_target {node name l b ms} _ htarget m hm := by
    unfold DirTree.graph at htarget
    dsimp only at htarget
    split at htarget
    · obtain ⟨-, rfl⟩ := Prod.mk.inj (Option.some.inj htarget)
      exact exists_component hm
    · cases htarget

/-- Names that lead from a mount point lead from the disk, and those that lead to the missing name do so
from there. -/
theorem mounted_congr {node disk : Node FileRef} (hmount : node.MountedOn disk) {ns : List (List Byte)}
    (hns : ns ≠ []) :
    ((tree v k).graph.Stops (Lacks v k w) disk ns ↔ (tree v k).graph.Stops (Lacks v k w) node ns) ∧
      ∀ r, (tree v k).graph.Walks disk ns r ↔ (tree v k).graph.Walks node ns r := by
  have hfind : ∀ name, (tree v k).graph.find node name = (tree v k).graph.find disk name := fun name => by
    unfold DirTree.graph
    dsimp only
    rw [DirTree.findNode_mounted hmount]
  have hlack : ∀ name, Lacks v k w node name ↔ Lacks v k w disk name := fun name => by
    rw [Lacks, Lacks, directory_of_mounted hmount, DirTree.findNode_mounted hmount]
  refine ⟨⟨?_, ?_⟩, fun r => (LinkGraph.walks_congr hfind hns).symm⟩
  · exact LinkGraph.Stops.congr (fun name => (hfind name).symm) fun name => (hlack name).mpr
  · exact LinkGraph.Stops.congr hfind fun name => (hlack name).mp

/-- Nothing is found in a file that is no mount point. -/
theorem leaf_of_file {i : FileRef} {name : List Byte} (hkind : i.kind = .pafs)
    (hfile : (k.fs.inode i.inode).type ≠ pafsTypeDir)
    (hplain : ∀ disk, ¬((tree v k).nodeFor i name).MountedOn disk) (ns : List (List Byte)) (hns : ns ≠ []) :
    ¬(tree v k).graph.Stops (Lacks v k w) ((tree v k).nodeFor i name) ns ∧
      ∀ r, ¬(tree v k).graph.Walks ((tree v k).nodeFor i name) ns r := by
  have hflags : ((tree v k).nodeFor i name).flags &&& vfsDirectory = 0#32 := by
    obtain ⟨kind, j⟩ := i
    obtain rfl : kind = .pafs := hkind
    rw [DirTree.nodeFor_directory]
    change (if (k.fs.inode j).type = pafsTypeDir then vfsDirectory else vfsFile) &&& vfsDirectory = 0#32
    rw [if_neg hfile]
    decide
  have hnone : ∀ m, (tree v k).findNode ((tree v k).nodeFor i name) m = none := fun m => by
    rw [findNode_directory, directory_of_not_mounted hplain, DirTree.findHere, if_neg (by simp [hflags])]
  obtain ⟨m, ms, rfl⟩ := List.exists_cons_of_ne_nil hns
  have hmissing := DirTree.find_missing (hnone m)
  refine ⟨fun hstop => ?_, fun r => LinkGraph.not_walks_cons hmissing⟩
  cases hstop with
  | here hlack =>
    have hdir := hlack.2.2.1
    rw [directory_of_not_mounted hplain] at hdir
    exact hdir hflags
  | node hfind => exact absurd (hmissing.symm.trans hfind) (by simp)
  | through hfind => exact absurd (hmissing.symm.trans hfind) (by simp)
  | link hfind => exact absurd (hmissing.symm.trans hfind) (by simp)

/-- What leads to the missing name newly resolves. -/
theorem newly_of_stops (h : Inv k.fs) (h' : Inv k'.fs) (he : Entered k.fs k'.fs new n w) {q : CString}
    (hstop : (tree v k).graph.Stops (Lacks v k w) (tree v k).root (names q)) :
    Resolvable v k' q ∧ ¬Resolvable v k q := by
  have hadds := adds_of_entered (v := v) h h' he
  rw [resolvable_iff, resolvable_iff, root_of_entered he]
  refine ⟨⟨_, hadds.walks_of_stops hstop fun _ => exists_component⟩, ?_⟩
  rintro ⟨r, hr⟩
  exact hadds.not_walks hstop r hr

/-- What newly resolves leads to the missing name, if nothing leads on from there. -/
theorem stops_of_newly (h : Inv k.fs) (h' : Inv k'.fs) (he : Entered k.fs k'.fs new n w) {q : CString}
    (hleaf : IsName w → Lacks v k w (tree v k).root w → ∀ q, names q ≠ [] →
      ¬(tree v k).graph.Stops (Lacks v k w) ((tree v k).nodeFor ⟨.pafs, new⟩ w) (names q) ∧
        ∀ r, ¬(tree v k).graph.Walks ((tree v k).nodeFor ⟨.pafs, new⟩ w) (names q) r)
    (hnewly : Resolvable v k' q ∧ ¬Resolvable v k q) :
    (tree v k).graph.Stops (Lacks v k w) (tree v k).root (names q) := by
  have hadds := adds_of_entered (v := v) h h' he
  rw [resolvable_iff, resolvable_iff, root_of_entered he] at hnewly
  obtain ⟨⟨r, hr⟩, hold⟩ := hnewly
  have hor := hadds.walks_or_stops (fun hlack hname ns hns hgood => ?_) hr fun _ => exists_component
  · exact (hor.resolve_left fun hwalk => hold ⟨r, hwalk⟩).2
  · obtain ⟨q, rfl⟩ := exists_path hgood
    exact hleaf (hlack.1 ▸ hname) (hlack.root h) q hns

/-- Something newly resolves only if the stored characters are a name that the root lacked. -/
theorem exists_edge_of_newly (h : Inv k.fs) (h' : Inv k'.fs) (he : Entered k.fs k'.fs new n w) {q : CString}
    (hnewly : Resolvable v k' q ∧ ¬Resolvable v k q) :
    ∃ c : CString, c.chars = w ∧ DirTree.Component c ∧ Lacks v k w (tree v k).root c.chars := by
  by_contra hnone
  have hedge : IsName w → ¬Lacks v k w (tree v k).root w := by
    rintro ⟨c, rfl, hc⟩ hlack
    exact hnone ⟨c, rfl, hc, hlack⟩
  have hstop := stops_of_newly h h' he (fun hname hlack => absurd hlack (hedge hname)) hnewly
  obtain ⟨node, name, hlack, hname⟩ :=
    (adds_of_entered h h' he).exists_edge hstop fun _ => exists_component
  exact hedge (hlack.1 ▸ hname) (hlack.root h)

/-- What is found on a disk that is mounted under the new name newly resolves. -/
theorem newly_behind (h : Inv k.fs) (h' : Inv k'.fs) (he : Entered k.fs k'.fs new n w)
    (hmnt : w = mntName) (hname : IsName w) (hlack : Lacks v k w (tree v k).root w)
    {disk : Node FileRef} (hdisk : mountAt v.mounts = some disk) {q : CString} (hq : names q ≠ [])
    (hsome : ¬(¬(tree v k).graph.Stops (Lacks v k w) disk (names q) ∧
      ∀ r, ¬(tree v k).graph.Walks disk (names q) r)) :
    ∃ q', names q' = w :: names q ∧ Resolvable v k' q' ∧ ¬Resolvable v k q' := by
  have hadds := adds_of_entered (v := v) h h' he
  have hmount : ((tree v k).nodeFor ⟨.pafs, new⟩ w).MountedOn disk :=
    DirTree.nodeFor_mountedOn.mpr ⟨by rw [hmnt]; decide, hdisk⟩
  obtain ⟨q', hq'⟩ : ∃ q', names q' = w :: names q :=
    exists_path (List.forall_mem_cons.mpr ⟨hname, fun _ => exists_component⟩)
  have hwalk : ∃ r, (tree v k').graph.Walks ((tree v k).nodeFor ⟨.pafs, new⟩ w) (names q) r := by
    obtain ⟨hstops, hwalks⟩ := mounted_congr (w := w) hmount hq
    rw [hstops] at hsome
    simp only [hwalks] at hsome
    by_cases hstop : (tree v k).graph.Stops (Lacks v k w) ((tree v k).nodeFor ⟨.pafs, new⟩ w) (names q)
    · exact ⟨_, hadds.walks_of_stops hstop fun _ => exists_component⟩
    · obtain ⟨r, hr⟩ := not_forall_not.mp fun hnone => hsome ⟨hstop, hnone⟩
      exact ⟨r, hadds.walks hr fun _ => exists_component⟩
  refine ⟨q', hq', ?_⟩
  rw [resolvable_iff, resolvable_iff, root_of_entered he, hq']
  obtain ⟨r, hr⟩ := hwalk
  refine ⟨⟨r, .node (hadds.found hname hlack) hr⟩, ?_⟩
  rintro ⟨r', hr'⟩
  exact LinkGraph.not_walks_cons (hadds.missing hlack) hr'

/-- A path of one name that does not resolve. -/
theorem lacks_of_names (h : Inv k.fs) {path : CString} (hnames : names path = [w])
    (hold : ¬Resolvable v k path) : IsName w ∧ Lacks v k w (tree v k).root w := by
  have hmem : w ∈ names path := hnames ▸ List.mem_singleton_self w
  refine ⟨exists_component hmem, ?_⟩
  by_contra hlack
  exact hold (resolvable_iff.mpr (hnames ▸ walks_of_not_lacks h hlack))

end Entered

/-! ## Opening -/

section Open

variable {d : ℕ} {v : Volumes} {k k' : Kernel} {s s' : Files FileRef} {pid : ℕ} {path : CString}
  {ret : Option Word}

/-- A lookup that gives a null pointer. -/
theorem not_resolvable {st : VfsState}
    (h : ((tree v k).vfsGetNodeByPath d st (some (tree v k).root) path).2 = some none) :
    ¬Resolvable v k path := by
  rintro ⟨r, hr⟩
  have hnode : ((tree v k).vfsGetNodeByPath d st (some (tree v k).root) path).node = some none := by
    rw [Result.node, h]
    rfl
  have hnull := DirTree.resolves_names (DirTree.resolves_of_node hnode) r
  exact absurd (hnull.mpr (DirTree.resolves_some_iff.mp hr)) (by simp)

/-- `pafs_write` with no bytes: there is a new file in the root, or the name is there or cannot be created,
and no inode changes its type. -/
theorem pafsWrite_empty_cases (h : Inv k.fs) (path : CString) :
    let k' := (pafsWrite k path (fun _ => 0#8) 0).1
    Inv k'.fs ∧ ((∃ new n, Entered k.fs k'.fs new n (path.chars.take 27)) ∨
      (pafsFindEntry k.fs 0 path ≠ -1 ∨ CreateFails k.fs 0 path false) ∧
        ∀ j, (k'.fs.inode j).type = (k.fs.inode j).type) := by
  refine ⟨h.write path _ 0, ?_⟩
  have hfs : k.lock.touchDisk.fs = k.fs := by simp
  rcases pafsWrite_cases h path (fun _ => 0#8) 0 with
    ⟨ino, hfound, heq⟩ | ⟨-, hfail, hsame, -⟩ | ⟨-, new, n, m, mid, -, hcr, heq⟩
  · have ho := (Inv.writeFile (hfs ▸ h) ino (fun _ => 0#8) 0).2
    rw [hfs] at ho
    rw [heq]
    refine Or.inr ⟨Or.inl (by omega), fun j => ?_⟩
    by_cases hj : j = ino
    · rw [hj, ho.type]
    · rw [ho.inode j hj]
  · rw [pafsCreate_eq_neg_one_iff, hfs] at hfail
    exact Or.inr ⟨Or.inr hfail, fun j => by rw [hsame]⟩
  · rw [heq]
    exact Or.inl ⟨new, n, entered_of_created h hcr⟩

/-- **A call that creates the file of its path** has been given a direct one. -/
theorem CreatesFile.direct (h : Inv k.fs)
    (hc : CreatesFile v k (pafsWrite k path (fun _ => 0#8) 0).1 s s' pid path ret) : Direct v k path := by
  obtain ⟨h', ⟨new, n, he⟩ | ⟨-, hsame⟩⟩ := pafsWrite_empty_cases h path
  swap
  · -- the descriptor is on an inode that was free
    obtain ⟨i, handle, new, -, -, -, -, -, -, hfree, hfile, -⟩ := hc.opened
    rw [hsame, hfree] at hfile
    exact absurd hfile (by decide)
  have hwhole : names path = [path.chars.take 27] := by
    have hpath := (hc.resolved path).mpr rfl
    obtain ⟨c, hchars, hname, hlack⟩ := exists_edge_of_newly h h' he hpath
    rw [← (hc.resolved c).mp (newly_of_stops h h' he (hname.names ▸ .here hlack)), hname.names, hchars]
  obtain ⟨hname, hlack⟩ := lacks_of_names h hwhole ((hc.resolved path).mpr rfl).2
  refine ⟨hwhole, fun q hstop => (hc.resolved q).mp (newly_of_stops h h' he hstop), ?_⟩
  intro hmnt disk hdisk q hq
  by_contra hsome
  -- what is found on the disk newly resolves, behind the new name
  obtain ⟨q', hq', hnewly⟩ := newly_behind h h' he hmnt hname hlack hdisk hq hsome
  have hnames := (hc.resolved q').mp hnewly
  rw [hq', hwhole] at hnames
  exact hq (List.cons.inj hnames).2

/-- The lookup of a path of one name. -/
theorem lookup_node (st : VfsState) {w : List Byte} (hnames : names path = [w]) :
    ((tree v k).vfsGetNodeByPath d st (some (tree v k).root) path).node =
      (tree v k).graph.walk ((tree v k).graph.follow d) (tree v k).root [w] := by
  have hstart : (tree v k).start (some (tree v k).root) path = some (tree v k).root := by
    simp [DirTree.start]
  rw [DirTree.vfsGetNodeByPath_node, DirTree.resolved, hstart, hnames]

theorem lookup_of_lacks (st : VfsState) {w : List Byte} (hnames : names path = [w])
    (hlack : Lacks v k w (tree v k).root w) :
    ((tree v k).vfsGetNodeByPath d st (some (tree v k).root) path).2 = some none := by
  have hnode := lookup_node (d := d) (v := v) (k := k) st hnames
  simp only [LinkGraph.walk, DirTree.find_missing hlack.2.2.2] at hnode
  rcases hres : (tree v k).vfsGetNodeByPath d st (some (tree v k).root) path with ⟨st', _ | _ | h⟩
  · simp [hres] at hnode
  · rfl
  · simp [hres] at hnode

theorem lookup_of_find (st : VfsState) {w : List Byte} {node : Node FileRef} (hnames : names path = [w])
    (hfind : (tree v k).graph.find (tree v k).root w = .node node) :
    ∃ st' h, (tree v k).vfsGetNodeByPath d st (some (tree v k).root) path = (st', some (some h)) ∧
      h.node = node := by
  have hnode := lookup_node (d := d) (v := v) (k := k) st hnames
  simp only [LinkGraph.walk, hfind] at hnode
  rcases hres : (tree v k).vfsGetNodeByPath d st (some (tree v k).root) path with ⟨st', _ | _ | h⟩
  · simp [hres] at hnode
  · simp [hres] at hnode
  · exact ⟨st', h, rfl, by simpa [hres] using hnode⟩

/-- Once the file is made, `sys_open` puts its node into a free descriptor. -/
theorem sysOpen_created {t₀ now created : DirTree FileRef} {i : ℕ} {node : Node FileRef}
    (hfd : (s.fds pid).freeFd = some i)
    (hnow : (now.vfsGetNodeByPath d s.vfs (some now.root) path).2 = some none)
    (hcreated : ∀ st, ∃ st' h,
      created.vfsGetNodeByPath d st (some created.root) path = (st', some (some h)) ∧ h.node = node) :
    ∃ h, h.node = node ∧ (sysOpen d t₀ s pid now created path 1#32).2 = some (BitVec.ofNat 32 i) ∧
      (sysOpen d t₀ s pid now created path 1#32).1.entry pid i = some (.file h) := by
  rcases hres : now.vfsGetNodeByPath d s.vfs (some now.root) path with ⟨st, o⟩
  obtain rfl : o = some none := by rw [← hnow, hres]
  obtain ⟨st', h, hres', hnode⟩ := hcreated st
  have hopen : sysOpen d t₀ s pid now created path 1#32 = openNode t₀ { s with vfs := st' } pid h := by
    rw [sysOpen, hres]
    dsimp only
    rw [if_pos (by decide), hres']
  have hstored : openNode t₀ { s with vfs := st' } pid h =
      (Files.setFds { s with vfs := st' } pid ⟨(s.fds pid).fdTable.set i (some (.file h)),
        (s.fds pid).fdOffset.set i 0#32⟩, some (BitVec.ofNat 32 i)) := by
    rw [openNode]
    dsimp only
    rw [hfd]
  refine ⟨h, hnode, by rw [hopen, hstored], ?_⟩
  rw [hopen, hstored, setFds_entry_self, Table.get_set_self _ (freeFd_some hfd).1]

/-- Nothing leads on from the new file of a direct path. -/
theorem Direct.leaf {new : ℕ} (hd : Direct v k path)
    (hfree : (k.fs.inode new).type = pafsTypeFree) (q : CString) (hq : names q ≠ []) :
    let w := path.chars.take 27
    ¬(tree v k).graph.Stops (Lacks v k w) ((tree v k).nodeFor ⟨.pafs, new⟩ w) (names q) ∧
      ∀ r, ¬(tree v k).graph.Walks ((tree v k).nodeFor ⟨.pafs, new⟩ w) (names q) r := by
  intro w
  by_cases hmount : ∃ disk, ((tree v k).nodeFor ⟨.pafs, new⟩ w).MountedOn disk
  · obtain ⟨disk, hmount⟩ := hmount
    obtain ⟨hname, hdisk⟩ := DirTree.nodeFor_mountedOn.mp hmount
    have hnul : ∀ c ∈ w, c ≠ 0#8 := fun c hc => path.noNul c (List.mem_of_mem_take hc)
    have hmnt := (strcmp_eq_zero_iff hnul (by decide)).mp hname
    obtain ⟨hstops, hwalks⟩ := mounted_congr (w := w) hmount hq
    rw [← hstops]
    simp only [← hwalks]
    exact hd.unmounted hmnt disk hdisk q hq
  · refine leaf_of_file rfl ?_ (not_exists.mp hmount) (names q) hq
    rw [hfree]
    decide

/-- A path that does not resolve is handed to `pafs_write`. -/
theorem kernel_sysOpenPafs
    (hmissing : ((tree v k).vfsGetNodeByPath d s.vfs (some (tree v k).root) path).2 = some none) :
    (sysOpenPafs d v k s pid path 1#32).1 = (pafsWrite k path (fun _ => 0#8) 0).1 := by
  simp [sysOpenPafs, hmissing]

/-- **A direct path** is created by opening it. -/
theorem Direct.creates (h : Inv k.fs) (hc : Counted k.fs) (hino : findFreeInode k.fs ≠ none)
    (hblock : findFreeBlock k.fs ≠ none) (hfd : (s.fds pid).freeFd ≠ none)
    (hmissing : ((tree v k).vfsGetNodeByPath d s.vfs (some (tree v k).root) path).2 = some none)
    (hd : Direct v k path) :
    let r := sysOpenPafs d v k s pid path 1#32
    CreatesFile v k r.1 s r.2.1 pid path r.2.2 := by
  intro r
  have hkernel : r.1 = (pafsWrite k path (fun _ => 0#8) 0).1 := kernel_sysOpenPafs hmissing
  obtain ⟨hname, hlack⟩ := lacks_of_names h hd.whole (not_resolvable hmissing)
  -- the whole path is looked up in PAFS, which stores 27 characters of it
  have habsent : pafsFindEntry k.fs 0 path = -1 := by
    by_cases hlen : path.chars.length ≤ 27
    · have hentry := (lacks_root_iff h).mp hlack
      rw [List.take_of_length_le hlen] at hentry
      have hpath : CString.ofBytes path.chars = path := CString.ext (CString.ofBytes_chars path.noNul)
      rwa [hpath] at hentry
    · exact pafsFindEntry_long h 0 (Nat.lt_of_not_le hlen)
  obtain ⟨h', ⟨new, n, he⟩ | ⟨hfail, -⟩⟩ := pafsWrite_empty_cases h path
  swap
  · exact absurd hfail (by simp [habsent, hc.creates h h.rootDir habsent hino hblock])
  rw [← hkernel] at h' he
  have hadds := adds_of_entered (v := v) h h' he
  have hfind := hadds.found hname hlack
  rw [← root_of_entered he] at hfind
  obtain ⟨i, hi⟩ := Option.ne_none_iff_exists'.mp hfd
  obtain ⟨hlt, hnone⟩ := freeFd_some hi
  have hfiles : r.2 = sysOpen d (tree v k) s pid (tree v k) (tree v r.1) path 1#32 := by
    rw [hkernel]
    rfl
  obtain ⟨handle, hnode, hret, hentry⟩ : ∃ h,
      h.node = (tree v k).nodeFor ⟨.pafs, new⟩ (path.chars.take 27) ∧
      r.2.2 = some (BitVec.ofNat 32 i) ∧ r.2.1.entry pid i = some (.file h) := by
    rw [hfiles]
    exact sysOpen_created hi hmissing fun st => lookup_of_find st hd.whole hfind
  refine ⟨⟨i, handle, new, hlt, hret, hnone, hentry, ?_, ?_, he.wasFree, he.type, he.size⟩,
    fun q => ⟨fun hnewly => ?_, fun hnames => ?_⟩, fun hret' => ?_⟩
  · rw [DirTree.resolves_some_iff, hnode]
    refine ⟨(tree v r.1).root, by simp [DirTree.start], ?_⟩
    rw [hd.whole]
    exact .node hfind .nil
  · rw [hnode, DirTree.nodeFor_inode]
  · exact hd.unlinked q (stops_of_newly h h' he (fun _ _ => hd.leaf he.wasFree) hnewly)
  · refine newly_of_stops h h' he ?_
    rw [hnames, hd.whole]
    exact .here hlack
  · rw [hret] at hret'
    have hword := congrArg BitVec.toNat (Option.some.inj hret')
    rw [BitVec.toNat_ofNat] at hword
    exact absurd hword (by simp; omega)

end Open

/-- **Opening creates the file of a path exactly if the path is direct**: in every PAFS that calls after a
`pafs_format` have left with an inode and a block free, with any ext2 disks mounted, for every task with a
free descriptor and every path that does not resolve. -/
theorem open_creates_iff (d : ℕ) (v : Volumes) (k₀ : Kernel) (ops : List Op) (s : Files FileRef) (pid : ℕ)
    (path : CString) :
    let k := run (pafsFormat k₀) ops
    let r := sysOpenPafs d v k s pid path 1#32
    findFreeInode k.fs ≠ none → findFreeBlock k.fs ≠ none → (s.fds pid).freeFd ≠ none →
    ((tree v k).vfsGetNodeByPath d s.vfs (some (tree v k).root) path).2 = some none →
      (CreatesFile v k r.1 s r.2.1 pid path r.2.2 ↔ Direct v k path) := by
  intro k r hino hblock hfd hmissing
  have h : Inv k.fs := Reachable.inv ⟨k₀, ops, rfl⟩
  constructor
  · intro hc
    have hkernel : r.1 = (pafsWrite k path (fun _ => 0#8) 0).1 := kernel_sysOpenPafs hmissing
    rw [hkernel] at hc
    exact hc.direct h
  · exact fun hd => hd.creates h (run_counted k₀ ops) hino hblock hfd hmissing

/-! ## A fresh RAM disk -/

/-- The kernel's task with its descriptors free. -/
def freshFiles : Files FileRef where
  vfs := rootOnly
  net := .init 1#32 fun _ => Net.newPcb
  buffers := Table.ofFn fun _ => none
  fds _ := newFds
  count := 1

/-- A fresh root lacks every name. -/
theorem lacks_fresh (v : Volumes) (k₀ : Kernel) (w : List Byte) :
    Lacks v (run (pafsFormat k₀) []) w (tree v (run (pafsFormat k₀) [])).root w := by
  have h : Inv (run (pafsFormat k₀) []).fs := Reachable.inv ⟨k₀, [], rfl⟩
  rw [lacks_root_iff h, pafsFindEntry_eq_neg_one_iff h]
  intro s e he
  have hfs : (run (pafsFormat k₀) []).fs = formatState k₀.fs := fs_pafsFormat k₀
  rw [hfs, (layout_format k₀.fs).dirent_eq (Inv.format k₀.fs).rootDir, if_neg (Nat.not_lt_zero s)] at he
  cases he

/-- `open("a", 1)` makes `a`. -/
theorem open_creates_name :
    let k := run (pafsFormat ramdiskKernel) []
    let path : CString := ⟨[97#8], by decide⟩
    let r := sysOpenPafs 8 emptyVolumes k freshFiles 0 path 1#32
    findFreeInode k.fs ≠ none ∧ findFreeBlock k.fs ≠ none ∧ (freshFiles.fds 0).freeFd ≠ none ∧
      CreatesFile emptyVolumes k r.1 freshFiles r.2.1 0 path r.2.2 := by
  intro k path r
  have hnames : names path = [[97#8]] := by decide
  have hlack := lacks_fresh emptyVolumes ramdiskKernel
  have hino : findFreeInode k.fs ≠ none := by decide +kernel
  have hblock : findFreeBlock k.fs ≠ none := by decide +kernel
  have hfd : (freshFiles.fds 0).freeFd ≠ none := by decide +kernel
  refine ⟨hino, hblock, hfd,
    (open_creates_iff 8 emptyVolumes ramdiskKernel [] freshFiles 0 path hino hblock hfd
    (lookup_of_lacks _ hnames (hlack _))).mpr ⟨hnames, fun q hstop => ?_, fun hmnt => ?_⟩⟩
  · -- nothing is found in the root, so only the name itself leads to its place
    have hmissing := fun m => DirTree.find_missing (hlack m).2.2.2
    rw [hnames]
    generalize names q = ns at hstop
    cases hstop with
    | here hedge => rw [hedge.1]; rfl
    | node hfind => exact absurd ((hmissing _).symm.trans hfind) (by simp)
    | through hfind => exact absurd ((hmissing _).symm.trans hfind) (by simp)
    | link hfind => exact absurd ((hmissing _).symm.trans hfind) (by simp)
  · exact absurd hmnt (by decide)

/-- `open("/a", 1)` fails, and leaves a file behind whose name is `/a`. -/
theorem open_absolute_fails :
    let k := run (pafsFormat ramdiskKernel) []
    let path : CString := ⟨slash :: [97#8], by decide⟩
    let r := sysOpenPafs 8 emptyVolumes k freshFiles 0 path 1#32
    findFreeInode k.fs ≠ none ∧ findFreeBlock k.fs ≠ none ∧ (freshFiles.fds 0).freeFd ≠ none ∧
      ((tree emptyVolumes k).vfsGetNodeByPath 8 freshFiles.vfs (some (tree emptyVolumes k).root) path).2 =
        some none ∧
      r.2.2 = some (-1#32) ∧ dirEntries r.1.fs 0 = [(1#32, path.chars)] ∧
      ¬CreatesFile emptyVolumes k r.1 freshFiles r.2.1 0 path r.2.2 := by
  intro k path r
  have hnames : names path = [[97#8]] := by decide
  have hret : r.2.2 = some (-1#32) := by decide +kernel
  have hfile : (r.1.fs.inode 1).type = pafsTypeFile := by decide +kernel
  have hfree : (k.fs.inode 1).type = pafsTypeFree := by decide +kernel
  refine ⟨by decide +kernel, by decide +kernel, by decide +kernel,
    lookup_of_lacks _ hnames (lacks_fresh emptyVolumes ramdiskKernel _), hret, by decide +kernel,
    fun hc => ?_⟩
  have hsame := (hc.failed hret).inode 1
  rw [hsame, hfree] at hfile
  exact absurd hfile (by decide)

end PekerOS.Fd
