import PekerOS.Fs.Vfs.Links

/-!
# VFS: mounts

`vfs_mount` registers a root for a path, and `vfs_finddir` compares the name that it has found with `mnt`
and the registered paths with `/mnt`: a directory of that name becomes a mount point onto the first root
registered for `/mnt`, and no other registered path is looked for.

## Main definitions

* `mountCalls`: the mount table after calls of `vfs_mount`
* `mntRoot`: the root that the calls leave for `/mnt`

## Main results

* `DirTree.mounted_at_mnt`: what is mounted at `/mnt`, and that nothing else is mounted anywhere
-/

namespace PekerOS.Vfs

variable {ι : Type} {t : DirTree ι}

/-! ## The mount table -/

/-- The mount table after the given calls of `vfs_mount`. -/
def mountCalls (calls : List (CString × Node ι)) : List (Mount ι) :=
  calls.foldl (fun ms c => vfsMount ms c.1 c.2) []

/-- The root of the first of the first sixteen calls that is for `/mnt`. -/
def mntRoot (calls : List (CString × Node ι)) : Option (Node ι) :=
  ((calls.take 16).find? fun c => c.1.chars = mntPath).map Prod.snd

theorem foldl_vfsMount (calls : List (CString × Node ι)) (ms : List (Mount ι)) :
    calls.foldl (fun ms c => vfsMount ms c.1 c.2) ms =
      ms ++ (calls.take (16 - ms.length)).map fun c => ⟨c.1, c.2⟩ := by
  induction calls generalizing ms with
  | nil => simp
  | cons c calls ih =>
    rw [List.foldl_cons, ih, vfsMount]
    split
    · next hfull =>
      have hzero : 16 - ms.length = 0 := by omega
      simp [hzero]
    · next hfree =>
      obtain ⟨k, hk⟩ : ∃ k, 16 - ms.length = k + 1 := ⟨15 - ms.length, by omega⟩
      have hk' : 16 - (ms ++ [(⟨c.1, c.2⟩ : Mount ι)]).length = k := by
        rw [List.length_append, List.length_singleton]
        omega
      rw [hk, hk', List.take_succ_cons]
      simp

theorem mountCalls_eq (calls : List (CString × Node ι)) :
    mountCalls calls = (calls.take 16).map fun c => ⟨c.1, c.2⟩ := by
  unfold mountCalls
  simpa using foldl_vfsMount calls []

theorem strcmp_mntPath (path : CString) : strcmp path.chars mntPath = 0 ↔ path.chars = mntPath :=
  strcmp_eq_zero_iff path.noNul (by decide)

theorem mountAt_map (calls : List (CString × Node ι)) :
    mountAt (calls.map fun c => ⟨c.1, c.2⟩) =
      (calls.find? fun c => c.1.chars = mntPath).map Prod.snd := by
  induction calls with
  | nil => rfl
  | cons c calls ih =>
    rw [List.map_cons, mountAt, List.find?_cons]
    simp only [strcmp_mntPath]
    by_cases hc : c.1.chars = mntPath
    · simp [hc]
    · simp [hc, ih]

theorem mountAt_mountCalls (calls : List (CString × Node ι)) :
    mountAt (mountCalls calls) = mntRoot calls := by
  rw [mountCalls_eq, mountAt_map, mntRoot]

/-! ## Names -/

theorem mem_of_mem_splitPath {cs w : List Byte} {c : Byte} (hw : w ∈ splitPath cs) (hc : c ∈ w) :
    c ∈ cs := by
  induction cs generalizing w with
  | nil => simp [splitPath] at hw
  | cons d ds ih =>
    unfold splitPath at hw
    split at hw
    · rcases List.mem_cons.mp hw with rfl | hw
      · simp at hc
      · exact List.mem_cons_of_mem d (ih hw hc)
    · cases hds : splitPath ds with
      | nil =>
        rw [hds, List.mem_singleton] at hw
        subst hw
        exact List.mem_singleton.mp hc ▸ List.mem_cons_self
      | cons v vs =>
        rw [hds] at hw ih
        rcases List.mem_cons.mp hw with rfl | hw
        · rcases List.mem_cons.mp hc with rfl | hc
          · exact List.mem_cons_self
          · exact List.mem_cons_of_mem d (ih List.mem_cons_self hc)
        · exact List.mem_cons_of_mem d (ih (List.mem_cons_of_mem v hw) hc)

theorem noNul_of_mem_names {path : CString} {w : List Byte} (hw : w ∈ names path) :
    ∀ c ∈ w, c ≠ 0#8 :=
  fun c hc => path.noNul c (mem_of_mem_splitPath (List.mem_of_mem_filter hw) hc)

/-! ## Mount points -/

/-- The node is a mount point onto the root. -/
def Node.MountedOn (r root : Node ι) : Prop := r.flags &&& vfsMountpoint ≠ 0#32 ∧ r.ptr = some root

namespace DirTree

variable {i : ι} {name : List Byte} {node r root : Node ι}

theorem flags_cases (t : DirTree ι) (i : ι) :
    t.flags i = vfsFile ∨ t.flags i = vfsDirectory ∨ t.flags i = vfsSymlink := by
  cases hkind : t.kind i with
  | pafs => exact (t.flags_pafs hkind).imp id .inl
  | ext2 => exact t.flags_ext2 hkind

theorem flags_not_mountpoint (t : DirTree ι) (i : ι) : t.flags i &&& vfsMountpoint = 0#32 := by
  rcases t.flags_cases i with h | h | h <;> rw [h] <;> decide

/-- A lookup in a mount point is one in the mounted root. -/
theorem findNode_mounted (h : r.MountedOn root) : t.findNode r name = t.findNode root name := by
  obtain ⟨nm, flags, inode, len, impl, ptr⟩ := r
  obtain ⟨hflags, rfl⟩ := h
  rw [findNode, if_pos hflags]

@[simp] theorem nodeFor_inode : (t.nodeFor i name).inode = i := by
  unfold nodeFor
  dsimp only
  split
  · split <;> rfl
  · rfl

/-- The found inode's node is a mount point exactly by its name. -/
theorem nodeFor_mountedOn :
    (t.nodeFor i name).MountedOn root ↔ strcmp name mntName = 0 ∧ mountAt t.mounts = some root := by
  have hplain : ¬(t.makeNode i name).MountedOn root := fun h => h.1 (t.flags_not_mountpoint i)
  unfold nodeFor
  dsimp only
  split
  · next hname =>
    cases hmount : mountAt t.mounts with
    | none => simpa using hplain
    | some root' =>
      have hflags : (t.flags i ||| vfsMountpoint) &&& vfsMountpoint ≠ 0#32 := by
        rcases t.flags_cases i with h | h | h <;> rw [h] <;> decide
      simp only [Node.MountedOn, makeNode, Option.some.injEq, hname, true_and]
      exact and_iff_right hflags
  · next hname => simp [hplain, hname]

theorem nodeFor_symlink :
    (t.nodeFor i name).flags &&& vfsSymlink = t.flags i &&& vfsSymlink := by
  unfold nodeFor
  dsimp only
  split
  · split
    · change (t.flags i ||| vfsMountpoint) &&& vfsSymlink = t.flags i &&& vfsSymlink
      rcases t.flags_cases i with h | h | h <;> rw [h] <;> decide
    · rfl
  · rfl

theorem nodeFor_directory :
    (t.nodeFor i name).flags &&& vfsDirectory = t.flags i &&& vfsDirectory := by
  unfold nodeFor
  dsimp only
  split
  · split
    · change (t.flags i ||| vfsMountpoint) &&& vfsDirectory = t.flags i &&& vfsDirectory
      rcases t.flags_cases i with h | h | h <;> rw [h] <;> decide
    · rfl
  · rfl

theorem nodeFor_name : (t.nodeFor i name).name = (t.makeNode i name).name := by
  unfold nodeFor
  dsimp only
  split
  · split <;> rfl
  · rfl

theorem nodeFor_mntName : (t.nodeFor i mntName).name = mntName := by
  rw [nodeFor_name, makeNode]
  cases t.kind i <;> rfl

theorem exists_of_findHere (h : t.findHere node name = some r) :
    ∃ i, t.find node.inode name = some i ∧ t.nodeFor i name = r := by
  unfold findHere at h
  split at h
  · exact Option.map_eq_some_iff.mp h
  · simp at h

/-- What a lookup returns was found in a directory behind the mount points. -/
theorem exists_of_findNode (h : t.findNode node name = some r) :
    ∃ d i, t.find d name = some i ∧ t.nodeFor i name = r := by
  fun_induction findNode t node name with
  | case1 name nm flags inode len impl root hflags ih => exact ih h
  | case2 => exact ⟨_, exists_of_findHere h⟩
  | case3 => exact ⟨_, exists_of_findHere h⟩

/-- A mount point is named `mnt` and stands for the root that is registered for `/mnt`. -/
def ProperMount (t : DirTree ι) (r : Node ι) : Prop :=
  ∀ root, r.MountedOn root → r.name = mntName ∧ mountAt t.mounts = some root

theorem properMount_root : t.ProperMount t.root := by
  intro root h
  simp [Node.MountedOn, t.root_ptr] at h

theorem properMount_of_findNode (hname : ∀ c ∈ name, c ≠ 0#8) (h : t.findNode node name = some r) :
    t.ProperMount r := by
  obtain ⟨d, i, -, rfl⟩ := exists_of_findNode h
  intro root hmount
  obtain ⟨hcmp, hroot⟩ := nodeFor_mountedOn.mp hmount
  obtain rfl := (strcmp_eq_zero_iff hname (by decide)).mp hcmp
  exact ⟨nodeFor_mntName, hroot⟩

theorem properMount_of_find (hname : ∀ c ∈ name, c ≠ 0#8) (h : t.graph.find node name = .node r) :
    t.ProperMount r := by
  cases hfind : t.findNode node name with
  | none => simp [find_missing hfind] at h
  | some res =>
    by_cases hlink : res.flags &&& vfsSymlink = 0#32
    · obtain rfl := Found.node.inj ((find_node hfind hlink).symm.trans h)
      exact properMount_of_findNode hname hfind
    · simp [find_link hfind hlink] at h

/-- A node that names lead to is a proper mount point if it is one, or it is where they start. -/
theorem properMount_of_walks {s : Node ι} {ns : List (List Byte)}
    (hns : ∀ w ∈ ns, ∀ c ∈ w, c ≠ 0#8) (h : t.graph.Walks s ns r) : r = s ∨ t.ProperMount r := by
  induction h with
  | nil => exact .inl rfl
  | node hfind _ ih =>
    rw [List.forall_mem_cons] at hns
    rcases ih hns.2 with rfl | hr
    · exact .inr (properMount_of_find hns.1 hfind)
    · exact .inr hr
  | @link s n l b ms u ns r hfind htarget _ _ ihtarget ih =>
    rw [List.forall_mem_cons] at hns
    have hms : ∀ w ∈ ms, ∀ c ∈ w, c ≠ 0#8 := by
      -- the names of a link are those of its text
      by_cases habs : (t.linkText l).chars.head? = some slash
      · rw [target_absolute habs] at htarget
        obtain ⟨-, rfl⟩ := Prod.mk.inj (Option.some.inj htarget)
        exact fun w => noNul_of_mem_names
      · simp [target_relative habs] at htarget
    rcases ih hns.2 with rfl | hr
    · rcases ihtarget hms with rfl | hr
      · rw [target_root htarget]
        exact .inr properMount_root
      · exact .inr hr
    · exact .inr hr

theorem findNode_root :
    t.findNode t.root name = (t.find t.root.inode name).map fun i => t.nodeFor i name := by
  have hhere : t.findNode t.root name = t.findHere t.root name := by
    have hptr := t.root_ptr
    cases hroot : t.root with
    | mk nm flags inode len impl ptr =>
      rw [hroot] at hptr
      cases hptr
      rfl
  have hdir : t.root.flags &&& vfsDirectory ≠ 0#32 := by
    rw [t.root_flags]
    decide
  rw [hhere, findHere, if_pos hdir]

/-- **Mounts.** `/mnt` is a mount point onto a root exactly if that root was registered first for `/mnt`,
lookups in a mount point are lookups in its root, and a mount point that a path resolves to, other
than the base itself, is named `mnt` and stands for that same root. -/
theorem mounted_at_mnt {calls : List (CString × Node ι)} (hcalls : t.mounts = mountCalls calls)
    (base : Option (Node ι)) :
    (∀ path i, path.chars.head? = some slash → names path = [mntName] →
      t.find t.root.inode mntName = some i → ∃ r, t.Resolves base path (some r) ∧ r.inode = i ∧
        ∀ root, r.MountedOn root ↔ mntRoot calls = some root) ∧
    (∀ r root, r.MountedOn root → ∀ name, t.findNode r name = t.findNode root name) ∧
    ∀ path r root, t.Resolves base path (some r) → r.MountedOn root →
      base = some r ∨ r.name = mntName ∧ mntRoot calls = some root := by
  have hmount : mountAt t.mounts = mntRoot calls := by rw [hcalls, mountAt_mountCalls]
  refine ⟨fun path i habs hnames hi => ?_, fun r root h name => findNode_mounted h, ?_⟩
  · -- `/mnt` is a directory of the root's file system, so no link is followed
    have hkind : t.kind i = .pafs := (t.find_kind hi).trans t.root_kind
    have hlink : (t.nodeFor i mntName).flags &&& vfsSymlink = 0#32 := by
      rw [nodeFor_symlink]
      rcases t.flags_pafs hkind with h | h <;> rw [h] <;> decide
    have hfind : t.findNode t.root mntName = some (t.nodeFor i mntName) := by
      rw [findNode_root, hi]
      rfl
    refine ⟨t.nodeFor i mntName, ⟨0, fun st => ?_⟩, nodeFor_inode, fun root => ?_⟩
    · rw [vfsGetNodeByPath_node, resolved, start, if_pos habs, hnames]
      simp [LinkGraph.walk, find_node hfind hlink]
    · rw [nodeFor_mountedOn, hmount]
      exact and_iff_right rfl
  · intro path r root hres hr
    obtain ⟨s, hs, hwalk⟩ := (resolves_names hres r).mp rfl
    -- a node that names lead to is a mount point only under the name `mnt`
    have hproper : base = some r ∨ t.ProperMount r := by
      rcases properMount_of_walks (fun w => noNul_of_mem_names) hwalk with rfl | h
      · unfold start at hs
        split at hs
        · obtain rfl := Option.some.inj hs
          exact .inr properMount_root
        · exact .inl hs
      · exact .inr h
    exact hproper.imp id fun h => hmount ▸ h root hr

end DirTree

/-- `"/data"` -/
abbrev dataPath : CString := ⟨[slash, 100#8, 97#8, 116#8, 97#8], by decide⟩

/-- The small tree with a directory `data` in place of `mnt`, and the disk registered for `/data`. -/
def dataTree : DirTree ℕ where
  toDisks := { smallTree [] with
    find := fun i name => if i = 0 ∧ name = dataPath.chars.tail then some 1 else none
    find_kind := by
      intro i name j h
      split at h
      · next hi =>
        obtain rfl := Option.some.inj h
        rw [hi.1]
        rfl
      · simp at h }
  root := smallNode [slash] 0
  rootAddr := 0
  mounts := mountCalls [(dataPath, smallNode [slash] 2)]
  behind _ := []
  root_kind := rfl
  root_flags := smallRoot_flags
  root_ptr := smallRoot_ptr

/-- A mount that is registered for an existing directory `/data` does not appear there. -/
theorem data_not_mounted : dataTree.mounts = mountCalls [(dataPath, smallNode [slash] 2)] ∧
    ∃ r, dataTree.Resolves none dataPath (some r) ∧ r.flags = vfsDirectory ∧ r.ptr.isNone := by
  refine ⟨rfl, ⟨dataPath.chars.tail, vfsDirectory, 1, 0#32, none, none⟩, ⟨0, fun st => ?_⟩, rfl, rfl⟩
  rw [DirTree.vfsGetNodeByPath_node]
  rfl

/-- The small tree: its mount appears at `/mnt`. -/
theorem mounted_at_mnt_small : ∃ r, (smallTree []).Resolves none ⟨mntPath, by decide⟩ (some r) ∧
    r.inode = 1 ∧ ∀ root, r.MountedOn root ↔
      mntRoot [(⟨mntPath, by decide⟩, smallNode [slash] 2)] = some root :=
  (DirTree.mounted_at_mnt (t := smallTree []) rfl none).1 ⟨mntPath, by decide⟩ 1 rfl (by decide) rfl

end PekerOS.Vfs
