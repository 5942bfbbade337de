import PekerOS.Fs.Vfs.Mounts
import PekerOS.Fs.Vfs.Strings

/-!
# VFS: paths by their components

`vfs_get_node_by_path` copies the path up to the next slash, skips what it has copied if it is empty or
`"."`, and looks it up otherwise. In a tree without symbolic links this is a fold of single lookups over
the components of the path. What the path starts with matters besides: a slash there is the root.

## Main definitions

* `DirTree.scanPath`: the loop on the characters of a path
* `components`: the components of a path that are neither empty nor `"."`
* `DirTree.NoLinks`: a tree without symbolic links
* `DirTree.lookup`: the fold of `vfs_finddir`

## Main results

* `DirTree.scanPath_eq`, `DirTree.getNode_scan`: the loop goes over what `splitPath` gives
* `names_eq_components`: the names that are looked up are the components
* `DirTree.path_walk_fold`: the node of a path
-/

namespace PekerOS.Vfs

variable {ι : Type} {t : DirTree ι}

/-- The components between slashes, the empty ones and `"."` left out. -/
def components (path : CString) : List (List Byte) :=
  (path.chars.splitOn slash).filter fun w => ¬Skipped w

/-- `"/"` and `"./"` -/
abbrev slashString : CString := ⟨[slash], slash_noNul⟩

abbrev dotSlash : CString := ⟨[46#8, slash], by decide⟩

/-! ## The loop on characters -/

/-- A round takes what is before the next slash and goes on behind it. -/
theorem splitPath_round (c : Byte) (cs : List Byte) :
    splitPath (c :: cs) = (c :: cs).takeWhile (fun b => b ≠ slash) ::
      splitPath ((c :: cs).dropWhile fun b => b ≠ slash).tail := by
  induction cs generalizing c with
  | nil =>
    by_cases hc : c = slash
    · simp [splitPath, hc]
    · simp [splitPath, hc]
  | cons d ds ih =>
    rw [splitPath]
    by_cases hc : c = slash
    · simp [hc]
    · rw [if_neg hc, ih d]
      simp [hc]

namespace DirTree

variable (t) in
/-- The loop of `vfs_get_node_by_path`, on what is left of the path. -/
def scanPath (call : VfsState → Option (Node ι) → CString → Result ι) (st : VfsState) (current : Handle ι)
    (path : List Byte) : Result ι :=
  match path with
  | [] => (st, some (some current))
  | c :: cs =>
    let name := (c :: cs).takeWhile fun b => b ≠ slash
    let rest := ((c :: cs).dropWhile fun b => b ≠ slash).tail
    let st := st.put name
    if Skipped name then scanPath call st current rest
    else
      let (st, next) := t.vfsFinddir st current.node name
      let st := t.vfsClose st current
      match next with
      | none => (st, some none)
      | some next =>
        (t.followLinks call 8 st next).andThen fun st current => scanPath call st current rest
termination_by path.length
decreasing_by
  all_goals
    have hdrop := List.length_dropWhile_le (fun b => decide (b ≠ slash)) (c :: cs)
    simp only [List.length_tail, List.length_cons] at hdrop ⊢
    omega

/-- The loop on characters goes over the components that `splitPath` gives. -/
theorem scanPath_eq (call : VfsState → Option (Node ι) → CString → Result ι) (st : VfsState)
    (current : Handle ι) (path : List Byte) :
    t.scanPath call st current path = t.walkPath call st current (splitPath path) := by
  fun_induction t.scanPath call st current path with
  | case1 st current => rfl
  | case2 st current c cs name rest st' hskip ih =>
    rw [ih, splitPath_round, walkPath]
    exact (if_pos hskip).symm
  | case3 st current c cs name put hskip st' closed hfind =>
    rw [splitPath_round, walkPath, if_neg hskip]
    dsimp only
    rw [hfind]
  | case4 st current c cs name rest put hskip st' closed next hfind ih =>
    rw [splitPath_round, walkPath, if_neg hskip]
    dsimp only
    rw [hfind]
    dsimp only
    congr 1
    funext st current
    exact ih st current

/-- A call runs the loop on its path, behind the slash of an absolute one. -/
theorem getNode_scan {base : Option (Node ι)} {path : CString} {s : Node ι} (h : t.start base path = some s)
    (call : VfsState → Option (Node ι) → CString → Result ι) (st : VfsState) :
    t.getNode call st base path = t.scanPath call (st.newNode s).1 (st.newNode s).2
      (if path.chars.head? = some slash then path.chars.tail else path.chars) := by
  rw [scanPath_eq]
  unfold start at h
  unfold getNode
  cases hpath : path.chars with
  | nil =>
    obtain rfl : base = some s := by simpa [hpath] using h
    rfl
  | cons c cs =>
    by_cases hc : c = slash
    · subst hc
      obtain rfl : t.root = s := by simpa [hpath] using h
      simp [VfsState.vfsCloneNode]
    · obtain rfl : base = some s := by simpa [hpath, hc] using h
      simp [hc, VfsState.vfsCloneNode]

end DirTree

/-! ## Components and names -/

/-- Splitting at slashes gives what the loop copies, and an empty component after a slash at the end. -/
theorem splitOn_slash (cs : List Byte) :
    cs.splitOn slash = splitPath cs ∨ cs.splitOn slash = splitPath cs ++ [[]] := by
  induction cs with
  | nil => exact .inr rfl
  | cons c cs ih =>
    rw [List.splitOn_cons_eq_if_modifyHead, splitPath]
    by_cases hc : c = slash
    · rcases ih with ih | ih
      · exact .inl (by simp [hc, ih])
      · exact .inr (by simp [hc, ih])
    · rw [if_neg hc, if_neg (by simpa using hc)]
      rcases ih with ih | ih
      · cases hcs : splitPath cs with
        | nil => exact absurd (ih.trans hcs) (List.splitOn_ne_nil slash cs)
        | cons w ws => exact .inl (by simp [ih, hcs])
      · cases hcs : splitPath cs with
        | nil => exact .inl (by simp [ih, hcs])
        | cons w ws => exact .inr (by simp [ih, hcs])

/-- The names that are looked up are the components. -/
theorem names_eq_components (path : CString) : names path = components path := by
  unfold names components
  rcases splitOn_slash path.chars with h | h
  · rw [h]
  · rw [h, List.filter_append]
    simp [Skipped]

theorem no_slash_of_mem_splitPath {cs w : List Byte} (hw : w ∈ splitPath cs) : slash ∉ w := by
  induction cs generalizing w with
  | nil => simp [splitPath] at hw
  | cons c cs ih =>
    unfold splitPath at hw
    split at hw
    · rcases List.mem_cons.mp hw with rfl | hw
      · exact List.not_mem_nil
      · exact ih hw
    · next hc =>
      cases hcs : splitPath cs with
      | nil =>
        rw [hcs, List.mem_singleton] at hw
        subst hw
        simpa using Ne.symm hc
      | cons v vs =>
        rw [hcs] at hw ih
        rcases List.mem_cons.mp hw with rfl | hw
        · exact List.not_mem_cons_of_ne_of_not_mem (Ne.symm hc) (ih List.mem_cons_self)
        · exact ih (List.mem_cons_of_mem v hw)

/-- What is looked up for a path are components. -/
theorem exists_component {path : CString} {w : List Byte} (hw : w ∈ names path) :
    ∃ n : CString, n.chars = w ∧ DirTree.Component n := by
  refine ⟨⟨w, noNul_of_mem_names hw⟩, rfl, ?_, ?_⟩
  · exact no_slash_of_mem_splitPath (List.mem_of_mem_filter hw)
  · simpa using List.of_mem_filter hw

/-- Components are looked up for some path. -/
theorem exists_path {ns : List (List Byte)}
    (h : ∀ w ∈ ns, ∃ n : CString, n.chars = w ∧ DirTree.Component n) : ∃ path, names path = ns := by
  induction ns with
  | nil => exact ⟨default, rfl⟩
  | cons w ns ih =>
    obtain ⟨⟨n, rfl, hn⟩, hns⟩ := List.forall_mem_cons.mp h
    obtain ⟨path, hpath⟩ := ih hns
    have hslash : names (slashString ++ path) = names path := DirTree.names_slash rfl
    refine ⟨n ++ (slashString ++ path), ?_⟩
    rw [DirTree.names_append (.inr (.inr (.inr rfl))), hn.names, hslash, hpath]
    rfl

/-- The components between slashes have at most 127 bytes. -/
def ShortComponents (path : CString) : Prop := ∀ w ∈ path.chars.splitOn slash, w.length ≤ 127

theorem ShortComponents.names {path : CString} {w : List Byte} (h : ShortComponents path)
    (hw : w ∈ names path) : w.length < 128 := by
  rw [names_eq_components] at hw
  exact Nat.lt_succ_of_le (h w (List.mem_of_mem_filter hw))

namespace DirTree

/-! ## Trees without links -/

/-- No directory has a symbolic link. -/
def NoLinks (t : DirTree ι) : Prop := ∀ d name i, t.find d name = some i → t.flags i &&& vfsSymlink = 0#32

variable (t) in
/-- The fold of `vfs_finddir` over names; a step that fails gives a null pointer, and so does a start
that is one. -/
def lookup (start : Option (Node ι)) (ws : List (List Byte)) : Option (Node ι) :=
  ws.foldl (fun current w => current.bind fun node => t.findNode node w) start

@[simp] theorem lookup_nil (start : Option (Node ι)) : t.lookup start [] = start := rfl

@[simp] theorem lookup_none (ws : List (List Byte)) : t.lookup none ws = none := by
  induction ws with
  | nil => rfl
  | cons w ws ih => exact ih

theorem lookup_cons (node : Node ι) (w : List Byte) (ws : List (List Byte)) :
    t.lookup (some node) (w :: ws) = t.lookup (t.findNode node w) ws := rfl

section NoLinks

variable (ht : t.NoLinks)

include ht

theorem NoLinks.not_link {node res : Node ι} {name : List Byte} (h : t.findNode node name = some res) :
    res.flags &&& vfsSymlink = 0#32 := by
  obtain ⟨d, i, hi, rfl⟩ := exists_of_findNode h
  rw [nodeFor_symlink]
  exact ht d name i hi

theorem NoLinks.find_ne_link (node : Node ι) (name : List Byte) (i : ι) :
    t.graph.find node name ≠ .link i := by
  cases hfind : t.findNode node name with
  | none => simp [find_missing hfind]
  | some res => simp [find_node hfind (ht.not_link hfind)]

/-- Without links, resolving names looks them up one after another. -/
theorem walk_eq_lookup (f : ι → Option (Option (Node ι))) (s : Node ι) (ns : List (List Byte)) :
    t.graph.walk f s ns = some (t.lookup (some s) ns) := by
  induction ns generalizing s with
  | nil => rfl
  | cons n ns ih =>
    rw [LinkGraph.walk, lookup_cons]
    cases hfind : t.findNode s n with
    | none => simp [find_missing hfind]
    | some res =>
      rw [find_node hfind (ht.not_link hfind)]
      exact ih res

theorem resolved_eq_lookup (f : ι → Option (Option (Node ι))) (base : Option (Node ι))
    (path : CString) : t.resolved f base path = some (t.lookup (t.start base path) (names path)) := by
  unfold resolved
  cases hstart : t.start base path with
  | none => rw [lookup_none]
  | some s => exact walk_eq_lookup ht f s (names path)

/-- Without links, only the components of the path are written, and the names of nodes. -/
theorem pathFits_of_short (base : Option (Node ι)) {path : CString} (h : ShortComponents path) :
    t.PathFits base path := by
  refine fun s _ => ⟨fun p n hn => h.names hn.mem, fun i hi => ?_⟩
  obtain ⟨j, ⟨p, n, -, hj⟩, -⟩ := hi
  exact absurd hj (ht.find_ne_link p n j)

end NoLinks

/-! ## Paths that lead to the same node -/

/-- What a call returns depends on where the path starts and on its names. -/
theorem node_congr {p q : CString} {base : Option (Node ι)} (hstart : t.start base p = t.start base q)
    (hnames : names p = names q) (d : ℕ) (st : VfsState) :
    (t.vfsGetNodeByPath d st base p).node = (t.vfsGetNodeByPath d st base q).node := by
  rw [vfsGetNodeByPath_node, vfsGetNodeByPath_node, resolved, resolved, hstart, hnames]

theorem names_slashString : names slashString = [] := by decide

theorem names_dotSlash : names dotSlash = [] := by decide

/-- A slash after a path adds no name. -/
theorem names_append_slashString (p : CString) : names (p ++ slashString) = names p := by
  rw [names_append (.inr (.inr (.inr rfl))), names_slashString, List.append_nil]

theorem getLast?_append_slashString (p : CString) : (p ++ slashString).chars.getLast? = some slash := by
  rw [CString.chars_append, List.getLast?_append]
  rfl

theorem append_slashString_ne_nil (p : CString) : (p ++ slashString).chars ≠ [] := by
  rw [CString.chars_append]
  simp

variable (t) in
/-- A second slash after a slash. -/
theorem node_double_slash (d : ℕ) (st : VfsState) (base : Option (Node ι)) (p q : CString) :
    (t.vfsGetNodeByPath d st base (p ++ slashString ++ slashString ++ q)).node =
      (t.vfsGetNodeByPath d st base (p ++ slashString ++ q)).node := by
  refine node_congr ?_ ?_ d st
  · rw [start_append (append_slashString_ne_nil _), start_append (append_slashString_ne_nil p),
      start_append (append_slashString_ne_nil p)]
  · rw [names_append (.inr (.inl (getLast?_append_slashString _))), names_append_slashString,
      ← names_append (.inr (.inl (getLast?_append_slashString p)))]

variable (t) in
/-- `"./"` where a component begins. Before an absolute path it would make the path relative. -/
theorem node_dot_slash (d : ℕ) (st : VfsState) (base : Option (Node ι)) {p q : CString}
    (h : p.chars.getLast? = some slash ∨ p.chars = [] ∧ q.chars.head? ≠ some slash) :
    (t.vfsGetNodeByPath d st base (p ++ dotSlash ++ q)).node =
      (t.vfsGetNodeByPath d st base (p ++ q)).node := by
  have hbegin : p.chars = [] ∨ p.chars.getLast? = some slash := by
    rcases h with h | h
    · exact .inr h
    · exact .inl h.1
  refine node_congr ?_ ?_ d st
  · rcases h with h | ⟨hp, hq⟩
    · have hp : p.chars ≠ [] := fun hp => by simp [hp] at h
      rw [start_append (by simp), start_append hp, start_append hp]
    · unfold start
      rw [CString.chars_append, CString.chars_append, CString.chars_append, hp]
      -- the dot is no slash
      simp only [List.nil_append, List.cons_append, List.head?_cons, Option.some.injEq, if_neg hq]
      exact if_neg (by decide)
  · have hdot : (p ++ dotSlash).chars.getLast? = some slash := by
      rw [CString.chars_append, List.getLast?_append]
      rfl
    rw [names_append (.inr (.inl hdot)), names_append (hbegin.imp id .inl), names_dotSlash,
      names_append (hbegin.imp id .inl), List.append_nil]

variable (t) in
/-- A slash at the end of a path that is not empty. -/
theorem node_trailing_slash (d : ℕ) (st : VfsState) (base : Option (Node ι)) {p : CString}
    (hp : p.chars ≠ []) : (t.vfsGetNodeByPath d st base (p ++ slashString)).node =
      (t.vfsGetNodeByPath d st base p).node :=
  node_congr (start_append hp) (names_append_slashString p) d st

/-- **Paths.** Without links a call looks the components of its path up one after another, from the root
if the path starts with a slash and from the base otherwise. Slashes in a row, `"./"` where a component
begins and a slash at the end make no difference, unless they change what the path starts with. -/
theorem path_walk_fold (ht : t.NoLinks) (d : ℕ) (st : VfsState) (base : Option (Node ι)) :
    (∀ path, (t.vfsGetNodeByPath d st base path).node =
        some (t.lookup (if path.chars.head? = some slash then some t.root else base) (components path)) ∧
      (ShortComponents path → Fits st → Fits (t.vfsGetNodeByPath d st base path).1)) ∧
    (∀ p q, (t.vfsGetNodeByPath d st base (p ++ slashString ++ slashString ++ q)).node =
      (t.vfsGetNodeByPath d st base (p ++ slashString ++ q)).node) ∧
    (∀ p q, p.chars.getLast? = some slash ∨ p.chars = [] ∧ q.chars.head? ≠ some slash →
      (t.vfsGetNodeByPath d st base (p ++ dotSlash ++ q)).node =
        (t.vfsGetNodeByPath d st base (p ++ q)).node) ∧
    ∀ p, p.chars ≠ [] → (t.vfsGetNodeByPath d st base (p ++ slashString)).node =
      (t.vfsGetNodeByPath d st base p).node := by
  refine ⟨fun path => ⟨?_, fun hshort hst => ?_⟩, t.node_double_slash d st base,
    fun p q => t.node_dot_slash d st base, fun p => t.node_trailing_slash d st base⟩
  · rw [vfsGetNodeByPath_node, resolved_eq_lookup ht, names_eq_components]
    rfl
  · exact vfsGetNodeByPath_fits d hst (pathFits_of_short ht base hshort)

end DirTree

theorem dataTree_noLinks : dataTree.NoLinks := by
  intro d name i h
  have hfind : (if d = 0 ∧ name = dataPath.chars.tail then some 1 else none) = some i := h
  split at hfind
  · obtain rfl := Option.some.inj hfind
    decide
  · simp at hfind

/-- The directory `/data`, with a slash at the end and without. -/
theorem path_walk_fold_data :
    (dataTree.vfsGetNodeByPath 0 default none (dataPath ++ slashString)).node =
      (dataTree.vfsGetNodeByPath 0 default none dataPath).node :=
  (DirTree.path_walk_fold dataTree_noLinks 0 default none).2.2.2 dataPath (by decide)

/-- From `/data`, a slash after the empty path names the root in place of the directory, and `"./"` before
`/data` looks that name up in the directory. -/
theorem start_changed :
    (¬∀ (t : DirTree ℕ), t.NoLinks → ∀ d st base path,
      (t.vfsGetNodeByPath d st base (path ++ slashString)).node =
        (t.vfsGetNodeByPath d st base path).node) ∧
    ¬∀ (t : DirTree ℕ), t.NoLinks → ∀ d st base path,
      (t.vfsGetNodeByPath d st base (dotSlash ++ path)).node =
        (t.vfsGetNodeByPath d st base path).node := by
  constructor
  · intro h
    have hslash := h dataTree dataTree_noLinks 0 default (some (smallNode dataPath.chars.tail 1)) default
    have hroot : some (some dataTree.root) = some (some (smallNode dataPath.chars.tail 1)) := hslash
    simp [dataTree, smallNode] at hroot
  · intro h
    have hdot := h dataTree dataTree_noLinks 0 default (some (smallNode dataPath.chars.tail 1)) dataPath
    have hdata : some none = some (some (smallNode dataPath.chars.tail 1)) := hdot
    simp at hdata

end PekerOS.Vfs
