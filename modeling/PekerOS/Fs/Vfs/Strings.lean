import PekerOS.Fs.Vfs.Leaks

/-!
# VFS: strings in their arrays

`vfs_get_node_by_path` copies each component of a path to `name[128]` and the text of each link to
`link[128]`, and the file systems copy the names of nodes to `vfs_node.name`, which has 128 bytes as
well. No loop counts the bytes, except that of PAFS. Here are the paths for which every string and its
terminator fit.

## Main definitions

* `Fits`: every string that was written fits
* `DirTree.PathFits`: the names that the path looks up and the texts of the links that it comes to fit

## Main results

* `DirTree.vfsGetNodeByPath_fits`: a call with such a path
-/

namespace PekerOS.Vfs

variable {ι : Type} {t : DirTree ι}

/-- Every string that was written ends inside its array of 128 bytes. -/
def Fits (st : VfsState) : Prop := ∀ s ∈ st.strings, s.length < 128

section Strings

variable {st : VfsState}

theorem fits_put {s : List Byte} (h : Fits st) (hs : s.length < 128) : Fits (st.put s) := by
  intro s' hs'
  rcases List.mem_append.mp hs' with hs' | hs'
  · exact h s' hs'
  · exact List.mem_singleton.mp hs' ▸ hs

@[simp] theorem kfree_strings (a : ℕ) : (st.kfree a).strings = st.strings := by
  unfold VfsState.kfree
  split <;> rfl

@[simp] theorem newNode_strings (n : Node ι) : (st.newNode n).1.strings = st.strings := rfl

@[simp] theorem vfsClose_strings (h : Handle ι) : (t.vfsClose st h).strings = st.strings := by
  unfold DirTree.vfsClose
  cases t.kind h.node.inode with
  | ext2 => rfl
  | pafs =>
    dsimp only
    split
    · cases h.node.impl <;> simp
    · rfl

theorem fits_vfsClose {h : Handle ι} (hst : Fits st) : Fits (t.vfsClose st h) := by
  intro s hs
  rw [vfsClose_strings] at hs
  exact hst s hs

end Strings

/-! ## Components -/

theorem length_le_of_mem_splitPath {cs w : List Byte} (hw : w ∈ splitPath cs) :
    w.length ≤ cs.length := by
  induction cs generalizing w with
  | nil => simp [splitPath] at hw
  | cons c cs ih =>
    unfold splitPath at hw
    split at hw
    · rcases List.mem_cons.mp hw with rfl | hw
      · simp
      · exact (ih hw).trans (Nat.le_succ _)
    · cases hcs : splitPath cs with
      | nil =>
        rw [hcs, List.mem_singleton] at hw
        simp [hw]
      | cons v vs =>
        rw [hcs] at hw ih
        rcases List.mem_cons.mp hw with rfl | hw
        · exact Nat.succ_le_succ (ih List.mem_cons_self)
        · exact (ih (List.mem_cons_of_mem v hw)).trans (Nat.le_succ _)

theorem length_le_of_mem_names {path : CString} {w : List Byte} (hw : w ∈ names path) :
    w.length ≤ path.chars.length := length_le_of_mem_splitPath (List.mem_of_mem_filter hw)

namespace DirTree

variable {call : VfsState → Option (Node ι) → CString → Result ι} {f : ι → Option (Option (Node ι))}
  {st : VfsState}

/-- `vfs_finddir` writes the name of a node: that of PAFS is cut at 127 characters. -/
theorem findNode_name_lt {node res : Node ι} {name : List Byte} (h : t.findNode node name = some res)
    (hname : name.length < 128) : res.name.length < 128 := by
  obtain ⟨d, i, -, rfl⟩ := exists_of_findNode h
  rw [nodeFor_name, makeNode]
  dsimp only
  cases t.kind i with
  | pafs =>
    dsimp only
    rw [List.length_take]
    omega
  | ext2 => exact hname

/-! ## Paths that fit -/

/-- From the node, the names that are looked up fit, and so do the texts of the links on the way. -/
structure WalkFits (t : DirTree ι) (s : Node ι) (ns : List (List Byte)) : Prop where
  names : ∀ p n, t.graph.Visits s ns p n → n.length < 128
  links : ∀ i, t.graph.Reaches s ns i → (t.linkText i).chars.length < 128

/-- The names that the path looks up fit, and so do the texts of the links that it comes to. -/
def PathFits (t : DirTree ι) (base : Option (Node ι)) (path : CString) : Prop :=
  ∀ s, t.start base path = some s → t.WalkFits s (Vfs.names path)

/-- A link that the walk comes to, and the path that it stands for. -/
theorem WalkFits.link {s : Node ι} {ns : List (List Byte)} {i : ι} (h : t.WalkFits s ns)
    (hi : t.graph.Meets s ns i) : (t.linkText i).chars.length < 128 ∧
      t.PathFits (t.start none (t.linkText i)) (t.linkText i) := by
  have htext : (t.linkText i).chars.length < 128 := h.links i ⟨i, hi, .refl⟩
  refine ⟨htext, fun r hr => ⟨fun p n hn => ?_, fun j hj => ?_⟩⟩
  · exact (length_le_of_mem_names hn.mem).trans_lt htext
  · obtain ⟨k, hk, hkj⟩ := hj
    have habs : (t.linkText i).chars.head? = some slash := by
      by_contra habs
      simp [start, habs] at hr
    have hroot : r = t.root := by
      rw [start, if_pos habs] at hr
      exact (Option.some.inj hr).symm
    have hfollows : t.graph.Follows k i := ⟨t.root, _, target_absolute habs, hroot ▸ hk⟩
    exact h.links j ⟨i, hi, Relation.ReflTransGen.head hfollows hkj⟩

section Walk

variable (hcall : ∀ st i, Fits st → t.PathFits (t.start none (t.linkText i)) (t.linkText i) →
    Fits (call st (t.start none (t.linkText i)) (t.linkText i)).1)
  (hnode : ∀ st i, (call st (t.start none (t.linkText i)) (t.linkText i)).node = f i)
  (hf : ∀ {i r}, f i = some (some r) → r.flags &&& vfsSymlink = 0#32) (hexact : t.graph.Exact f)

include hcall hnode hf

/-- Following a link whose text and path fit. -/
theorem followLinks_fits {next : Handle ι} (hst : Fits st)
    (hlink : (t.linkText next.node.inode).chars.length < 128 ∧
      t.PathFits (t.start none (t.linkText next.node.inode)) (t.linkText next.node.inode)) :
    Fits (t.followLinks call 8 st next).1 := by
  have hnested := hcall _ next.node.inode (fits_put hst hlink.1) hlink.2
  have hret := hnode (st.put (t.linkText next.node.inode).chars) next.node.inode
  rcases t.followLinks_cases call 7 st next with
    ⟨-, heq⟩ | ⟨-, ⟨st', hres, heq⟩ | ⟨st', hres, heq⟩ | ⟨st', target, hres, heq⟩⟩
  · rwa [heq]
  all_goals rw [hres] at hnested hret; rw [heq]
  · exact hnested
  · exact fits_vfsClose hnested
  · rw [followLinks_of_not_link (hf hret.symm)]
    exact fits_vfsClose hnested

include hexact

theorem walkPath_fits {current : Handle ι} {ws : List (List Byte)} (hst : Fits st)
    (hfits : t.WalkFits current.node (ws.filter fun w => ¬Skipped w)) :
    Fits (t.walkPath call st current ws).1 := by
  induction ws generalizing st current with
  | nil => exact hst
  | cons w ws ih =>
    unfold walkPath
    by_cases hskip : Skipped w
    · -- an empty component or a dot
      have hw : w.length < 128 := by rcases hskip with rfl | rfl <;> simp
      rw [if_pos hskip]
      exact ih (fits_put hst hw) (by simpa [hskip] using hfits)
    · rw [List.filter_cons_of_pos (by simpa using hskip)] at hfits
      rw [if_neg hskip]
      -- the component is a name that the walk looks up
      have hw : w.length < 128 := hfits.names current.node w .here
      unfold vfsFinddir
      cases hfind : t.findNode current.node w with
      | none => exact fits_vfsClose (fits_put hst hw)
      | some res =>
        have hstate : Fits (t.vfsClose (((st.put w).put res.name).newNode res).1 current) :=
          fits_vfsClose (fits_put (fits_put hst hw) (findNode_name_lt hfind hw))
        dsimp only
        by_cases hlink : res.flags &&& vfsSymlink = 0#32
        · have hgraph := find_node hfind hlink
          rw [followLinks_of_not_link hlink]
          refine ih hstate ⟨fun p n hn => hfits.names p n (.node hgraph hn), ?_⟩
          rintro i ⟨j, ⟨p, n, hvisit, hj⟩, hji⟩
          exact hfits.links i ⟨j, ⟨p, n, .node hgraph hvisit, hj⟩, hji⟩
        · have hgraph := find_link hfind hlink
          -- the text of a link that is met is one of the strings that fit
          have hmeets : t.graph.Meets current.node (w :: ws.filter fun w => ¬Skipped w) res.inode :=
            ⟨_, _, .here, hgraph⟩
          have hlinks : Fits (t.followLinks call 8
              (t.vfsClose (((st.put w).put res.name).newNode res).1 current)
              (((st.put w).put res.name).newNode res).2).1 :=
            followLinks_fits hcall hnode hf hstate (hfits.link hmeets)
          have hret := followLinks_node hnode hf
            (t.vfsClose (((st.put w).put res.name).newNode res).1 current)
            (((st.put w).put res.name).newNode res).2
          rcases hres : t.followLinks call 8 (t.vfsClose (((st.put w).put res.name).newNode res).1 current)
            (((st.put w).put res.name).newNode res).2 with ⟨st', _ | _ | next⟩
          all_goals rw [hres] at hlinks hret
          · exact hlinks
          · exact hlinks
          · -- the walk goes on from where the link leads
            have hnext : f res.inode = some (some next.node) := by
              rw [Result.node_some] at hret
              rw [hret]
              exact (if_pos hlink).symm
            have hleads : t.graph.Leads res.inode next.node := (hexact hnext _).mp rfl
            refine ih hlinks ⟨fun p n hn => hfits.names p n (.link hgraph hleads hn), ?_⟩
            rintro i ⟨j, ⟨p, n, hvisit, hj⟩, hji⟩
            exact hfits.links i ⟨j, ⟨p, n, .link hgraph hleads hvisit, hj⟩, hji⟩

theorem getNode_fits {base : Option (Node ι)} {path : CString} (hst : Fits st)
    (hfits : t.PathFits base path) : Fits (t.getNode call st base path).1 := by
  cases hstart : t.start base path with
  | none => rwa [getNode_null hstart]
  | some s =>
    obtain ⟨ws, hws, heq⟩ := getNode_walk hstart call st
    rw [heq]
    exact walkPath_fits hcall hnode hf hexact hst (hws ▸ hfits s hstart)

end Walk

/-- **Paths.** A call writes strings that fit, if the path does, however deep its calls nest. -/
theorem vfsGetNodeByPath_fits (d : ℕ) {base : Option (Node ι)} {path : CString} (hst : Fits st)
    (hfits : t.PathFits base path) : Fits (t.vfsGetNodeByPath d st base path).1 := by
  induction d generalizing st base path with
  | zero =>
    exact getNode_fits (f := t.graph.follow 0) (fun _ _ hst _ => hst) (fun _ _ => rfl)
      follow_not_link (LinkGraph.exact_follow 0) hst hfits
  | succ d ih =>
    exact getNode_fits (f := t.graph.follow (d + 1)) (fun _ _ hst hfits => ih hst hfits)
      (fun st i => by rw [vfsGetNodeByPath_node, follow_succ]) follow_not_link
      (LinkGraph.exact_follow (d + 1)) hst hfits

/-! ## Names that are written -/

/-- A call keeps the strings that were written. -/
theorem callInvariant_mem (t : DirTree ι) (s : List Byte) :
    t.CallInvariant (fun st => s ∈ st.strings) (fun _ => True) (fun _ => True) where
  put hs := List.mem_append_left _ hs
  node hs _ := ⟨hs, trivial⟩
  close {_ h} hs _ := by rwa [vfsClose_strings]
  found _ := trivial
  root := trivial

/-- The first component that is looked up is copied to `name` before. -/
theorem walkPath_first {n : List Byte} {ns ws : List (List Byte)} {current : Handle ι}
    (hcall : ∀ st base path, n ∈ st.strings → n ∈ (call st base path).1.strings)
    (hws : (ws.filter fun w => ¬Skipped w) = n :: ns) :
    n ∈ (t.walkPath call st current ws).1.strings := by
  have hkeep := t.callInvariant_mem n
  have hends : ∀ st base path, n ∈ st.strings → (∀ b, base = some b → True) →
      (call st base path).Ends (fun st => n ∈ st.strings) (fun _ => True) :=
    fun st base path hst _ => ⟨hcall st base path hst, fun _ _ => trivial⟩
  induction ws generalizing st current with
  | nil => simp at hws
  | cons w ws ih =>
    unfold walkPath
    by_cases hskip : Skipped w
    · rw [if_pos hskip]
      exact ih (by simpa [hskip] using hws)
    · rw [List.filter_cons_of_pos (by simpa using hskip)] at hws
      obtain ⟨rfl, -⟩ := List.cons.inj hws
      rw [if_neg hskip]
      have hput : w ∈ (st.put w).strings := List.mem_append_right _ List.mem_cons_self
      unfold vfsFinddir
      cases hfind : t.findNode current.node w with
      | none => exact hkeep.close hput trivial
      | some res =>
        have hnew := (hkeep.node (n := res) (hkeep.put (s := res.name) hput) trivial).1
        exact (hkeep.rest hends (hkeep.close hnew trivial) trivial).state

/-- **Names.** The first name of a path is written whole, whatever there is to find. -/
theorem name_mem_strings (d : ℕ) {base : Option (Node ι)} {path : CString} {s : Node ι} {n : List Byte}
    {ns : List (List Byte)} (hstart : t.start base path = some s) (hnames : Vfs.names path = n :: ns) :
    n ∈ (t.vfsGetNodeByPath d st base path).1.strings := by
  cases d with
  | zero =>
    obtain ⟨ws, hws, heq⟩ := getNode_walk hstart (fun st _ _ => (st, none)) st
    unfold vfsGetNodeByPath
    rw [heq]
    exact walkPath_first (fun _ _ _ hst => hst) (hws.trans hnames)
  | succ d =>
    obtain ⟨ws, hws, heq⟩ := getNode_walk hstart (t.vfsGetNodeByPath d) st
    unfold vfsGetNodeByPath
    rw [heq]
    refine walkPath_first (fun st base path hst => ?_) (hws.trans hnames)
    exact ((t.callInvariant_mem n).vfsGetNodeByPath d hst fun _ _ => trivial).state

end DirTree

end PekerOS.Vfs
