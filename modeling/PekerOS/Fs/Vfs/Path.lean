import PekerOS.Lib.Links
import PekerOS.Fs.Vfs.Node

/-!
# VFS: paths

`vfs_get_node_by_path` clones the node it starts from, looks the components of the path up one after
another, closes each node it leaves, and follows the symbolic links it comes to by calling itself. A
node belongs to PAFS or to ext2, whose functions its pointers name; the two file systems are given here
by what they answer about an inode. The call is bounded in how deep it may nest, and its result is
`none` when it has not returned by then.

The strings that the kernel writes into its 128-byte arrays are recorded as they are; one that does
not fit is kept whole, and what it overwrites is left out.

## Main definitions

* `Disks`: what the file systems answer
* `Node`, `DirTree`, `vfsMount`: nodes, the globals of `vfs.c`, and the mount table
* `VfsState`, `Handle`, `kmalloc`, `kfree`: the nodes on the heap
* `vfsFinddir`, `readNames`, `vfsClose`, `vfsCloneNode`, `vfsGetNodeByPath`: the functions of `vfs.c`
* `splitPath`, `names`: the components of a path
* `DirTree.graph`: the tree as positions, names and links
* `smallTree`: a tree with one mounted disk

## Main results

* `CallInvariant.vfsGetNodeByPath`: what each step of a call keeps, the call keeps
* `vfsGetNodeByPath_node`: the node that the call returns is the one that the names resolve to
-/

namespace PekerOS.Vfs

/-- The file system whose functions a node points to. -/
inductive FsKind
  | pafs
  | ext2
deriving DecidableEq

/-- What the file systems answer about their inodes. -/
structure Disks (ι : Type) where
  kind : ι → FsKind
  /-- `flags` of a node made for the inode. -/
  flags : ι → Word
  length : ι → Word
  /-- The inode that `finddir` finds in a directory. -/
  find : ι → List Byte → Option ι
  /-- The names that `readdir` gives for the indexes from 0 on, up to the first null pointer. -/
  entries : ι → List (List Byte)
  /-- The bytes of a file. -/
  content : ι → List Byte
  flags_pafs : ∀ {i}, kind i = .pafs → flags i = vfsFile ∨ flags i = vfsDirectory
  flags_ext2 : ∀ {i}, kind i = .ext2 →
    flags i = vfsFile ∨ flags i = vfsDirectory ∨ flags i = vfsSymlink
  find_kind : ∀ {i name j}, find i name = some j → kind j = kind i
  /-- `pafs_vfs_readdir` copies at most 27 characters. -/
  entries_pafs : ∀ {i name}, kind i = .pafs → name ∈ entries i → name.length ≤ 27

/-- `vfs_node_t`. The function pointers are those of the file system of the inode; `impl` is the
directory entry that a PAFS node has allocated, if it has. -/
structure Node (ι : Type) where
  name : List Byte
  flags : Word
  inode : ι
  length : Word
  impl : Option ℕ
  ptr : Option (Node ι)

/-- An entry of `mount_table`. -/
structure Mount (ι : Type) where
  path : CString
  root : Node ι

/-- The globals of `vfs.c` over the file systems. -/
structure DirTree (ι : Type) extends Disks ι where
  /-- `vfs_root`, which `pafs_get_vfs_root` made. -/
  root : Node ι
  /-- The address `pafs_root_node`. -/
  rootAddr : ℕ
  /-- `mount_table` up to `mount_count`. -/
  mounts : List (Mount ι)
  /-- The stack behind `link[128]` when a link is read. -/
  behind : ι → List Byte
  root_kind : kind root.inode = .pafs
  root_flags : root.flags = vfsDirectory
  root_ptr : root.ptr = none

variable {ι : Type}

/-- `vfs_mount` -/
def vfsMount (mounts : List (Mount ι)) (path : CString) (root : Node ι) : List (Mount ι) :=
  if mounts.length ≥ 16 then mounts else mounts ++ [⟨path, root⟩]

/-! ## Nodes on the heap -/

/-- The blocks of the heap that are allocated, each with a number of its own, and the strings written to
128-byte arrays. -/
structure VfsState where
  next : ℕ
  live : Finset ℕ
  /-- How often a block was freed that was not allocated. -/
  badFrees : ℕ
  strings : List (List Byte)
  live_lt : ∀ {a}, a ∈ live → a < next
deriving DecidableEq

instance : Inhabited VfsState := ⟨⟨0, ∅, 0, [], by simp⟩⟩

/-- A pointer to a node, with the node it points to. -/
structure Handle (ι : Type) where
  addr : ℕ
  node : Node ι

namespace VfsState

/-- An allocation, which is taken to succeed. -/
def kmalloc (st : VfsState) : VfsState × ℕ :=
  ({ st with
    next := st.next + 1
    live := insert st.next st.live
    live_lt := fun {a} ha => (Finset.mem_insert.mp ha).elim (fun h => by omega)
      fun h => (st.live_lt h).trans (Nat.lt_succ_self _) }, st.next)

def kfree (st : VfsState) (addr : ℕ) : VfsState :=
  if addr ∈ st.live then
    { st with
      live := st.live.erase addr
      live_lt := fun {_} ha => st.live_lt (Finset.mem_of_mem_erase ha) }
  else { st with badFrees := st.badFrees + 1 }

/-- Writes a string into an array of 128 bytes. -/
def put (st : VfsState) (s : List Byte) : VfsState := { st with strings := st.strings ++ [s] }

/-- `kmalloc` of a node, which is then filled. -/
def newNode (st : VfsState) (node : Node ι) : VfsState × Handle ι :=
  let (st, addr) := st.kmalloc
  (st, ⟨addr, node⟩)

/-- `vfs_clone_node` of a node that is not null. -/
def vfsCloneNode (st : VfsState) (node : Node ι) : VfsState × Handle ι := st.newNode node

end VfsState

/-! ## Lookups -/

/-- `'/'` -/
abbrev slash : Byte := 47#8
/-- `"mnt"` -/
abbrev mntName : List Byte := [109#8, 110#8, 116#8]
/-- `"/mnt"` -/
abbrev mntPath : List Byte := slash :: mntName

theorem slash_noNul : ∀ c ∈ [slash], c ≠ 0#8 := by decide

theorem mntPath_noNul : ∀ c ∈ mntPath, c ≠ 0#8 := by decide

/-- The search of the mount table in `vfs_finddir`: the first root registered for `/mnt`. -/
def mountAt : List (Mount ι) → Option (Node ι)
  | [] => none
  | m :: ms => if strcmp m.path.chars mntPath = 0 then some m.root else mountAt ms

namespace DirTree

variable (t : DirTree ι)

/-- The node that `finddir` makes: `pafs_vfs_finddir` copies at most 127 characters of the name and
`ext2_inode_to_vfs` all of them. -/
def makeNode (i : ι) (name : List Byte) : Node ι where
  name := match t.kind i with
    | .pafs => name.take 127
    | .ext2 => name
  flags := t.flags i
  inode := i
  length := t.length i
  impl := none
  ptr := none

/-- The node that `vfs_finddir` returns for the inode that it has found. -/
def nodeFor (i : ι) (name : List Byte) : Node ι :=
  let res := t.makeNode i name
  -- any entry named `mnt`, in whatever directory
  if strcmp name mntName = 0 then
    match mountAt t.mounts with
    | some root => { res with flags := res.flags ||| vfsMountpoint, ptr := some root }
    | none => res
  else res

/-- `vfs_finddir` of a node that is no mount point. -/
def findHere (node : Node ι) (name : List Byte) : Option (Node ι) :=
  if node.flags &&& vfsDirectory ≠ 0#32 then
    (t.find node.inode name).map fun i => t.nodeFor i name
  else none

/-- The node that `vfs_finddir` makes. -/
def findNode : Node ι → List Byte → Option (Node ι)
  | ⟨nm, flags, inode, len, impl, ptr⟩, name =>
    match ptr with
    | some root =>
      -- the directory under a mount point is never searched
      if flags &&& vfsMountpoint ≠ 0#32 then findNode root name
      else t.findHere ⟨nm, flags, inode, len, impl, ptr⟩ name
    | none => t.findHere ⟨nm, flags, inode, len, impl, ptr⟩ name

/-- The names that `vfs_readdir` gives for the indexes from 0 on, up to the first null pointer. -/
def readNames : Node ι → List (List Byte)
  | ⟨_, flags, inode, _, _, ptr⟩ =>
    match ptr with
    | some root =>
      if flags &&& vfsMountpoint ≠ 0#32 then readNames root
      else if flags &&& vfsDirectory ≠ 0#32 then t.entries inode else []
    | none => if flags &&& vfsDirectory ≠ 0#32 then t.entries inode else []

/-- `vfs_finddir` -/
def vfsFinddir (st : VfsState) (node : Node ι) (name : List Byte) : VfsState × Option (Handle ι) :=
  match t.findNode node name with
  | none => (st, none)
  | some res =>
    let (st, h) := (st.put res.name).newNode res
    (st, some h)

/-- `vfs_close`: `pafs_vfs_close`, and nothing for ext2, which sets no function. -/
def vfsClose (st : VfsState) (h : Handle ι) : VfsState :=
  match t.kind h.node.inode with
  | .pafs =>
    -- `pafs_root_node` is not from the heap of a call
    if h.addr ≠ t.rootAddr then
      let st := match h.node.impl with
        | some d => st.kfree d
        | none => st
      st.kfree h.addr
    else st
  | .ext2 => st

/-- The string in `link` after `vfs_read(next, 0, 128, link)`: it ends at the first zero, which
may stand behind the array. -/
def linkText (i : ι) : CString :=
  CString.ofBytes
    ((t.content i).take 128 ++ List.replicate (128 - (t.content i).length) 0#8 ++ t.behind i)

end DirTree

/-! ## Paths -/

/-- The components that the outer loop copies to `name`, one for each of its rounds. -/
def splitPath : List Byte → List (List Byte)
  | [] => []
  | c :: cs =>
    if c = slash then [] :: splitPath cs
    else
      match splitPath cs with
      | [] => [[c]]
      | w :: ws => (c :: w) :: ws

/-- A component that the loop skips: empty or `"."`. -/
def Skipped (name : List Byte) : Prop := name = [] ∨ name = [46#8]

instance (name : List Byte) : Decidable (Skipped name) := inferInstanceAs (Decidable (_ ∨ _))

/-- The components that are looked up. -/
def names (path : CString) : List (List Byte) := (splitPath path.chars).filter fun w => ¬Skipped w

/-- What a call has done so far, and what it returns: `none` if it has not returned, and
`some none` for a null pointer. -/
abbrev Result (ι : Type) : Type := VfsState × Option (Option (Handle ι))

/-- Goes on with the node that a call returns; `return 0` after a null pointer. -/
def Result.andThen (r : Result ι) (k : VfsState → Handle ι → Result ι) : Result ι :=
  match r with
  | (st, none) => (st, none)
  | (st, some none) => (st, some none)
  | (st, some (some h)) => k st h

namespace DirTree

variable (t : DirTree ι)

section Body

variable (call : VfsState → Option (Node ι) → CString → Result ι)

/-- The loop that follows symbolic links, with `k` rounds left. -/
def followLinks : ℕ → VfsState → Handle ι → Result ι
  -- after eight links the last target is returned, link or not
  | 0, st, next => (st, some (some next))
  | k + 1, st, next =>
    if next.node.flags &&& vfsSymlink ≠ 0#32 then
      let link := t.linkText next.node.inode
      let st := st.put link.chars
      -- a relative link is resolved with a null base, so its target is null
      let base := if link.chars.head? = some slash then some t.root else none
      match call st base link with
      | (st, none) => (st, none)
      | (st, some none) => (t.vfsClose st next, some none)
      | (st, some (some target)) => followLinks k (t.vfsClose st next) target
    else (st, some (some next))

/-- The loop over the components. -/
def walkPath : VfsState → Handle ι → List (List Byte) → Result ι
  | st, current, [] => (st, some (some current))
  | st, current, name :: rest =>
    let st := st.put name
    if Skipped name then walkPath st current rest
    else
      let (st, next) := t.vfsFinddir st current.node name
      -- closed before it is known whether the name was found
      let st := t.vfsClose st current
      match next with
      | none => (st, some none)
      | some next =>
        (t.followLinks call 8 st next).andThen fun st current => walkPath st current rest

/-- The body of `vfs_get_node_by_path`; `call` is the call it makes of itself. -/
def getNode (st : VfsState) (base : Option (Node ι)) (path : CString) : Result ι :=
  match path.chars with
  | [] =>
    match base with
    | none => (st, some none)
    | some base =>
      let (st, current) := st.vfsCloneNode base
      (st, some (some current))
  | c :: cs =>
    -- an absolute path does not look at `base`
    if c = slash then
      let (st, current) := st.vfsCloneNode t.root
      t.walkPath call st current (splitPath cs)
    else
      match base with
      | none => (st, some none)
      | some base =>
        let (st, current) := st.vfsCloneNode base
        t.walkPath call st current (splitPath (c :: cs))

end Body

/-- `vfs_get_node_by_path` of a path that is not null, with calls nested at most `depth` deep. -/
def vfsGetNodeByPath : ℕ → VfsState → Option (Node ι) → CString → Result ι
  | 0 => t.getNode fun st _ _ => (st, none)
  | depth + 1 => t.getNode (vfsGetNodeByPath depth)

/-! ## The tree as positions, names and links -/

/-- Nodes are positions. A link is resolved from the root if its text is absolute; a relative one
dangles, since it is resolved without a base. -/
def graph : LinkGraph (Node ι) (List Byte) ι where
  find node name :=
    match t.findNode node name with
    | none => .missing
    | some res => if res.flags &&& vfsSymlink ≠ 0#32 then .link res.inode else .node res
  target i :=
    if (t.linkText i).chars.head? = some slash then some (t.root, names (t.linkText i)) else none

/-- The node that resolving a path starts from. -/
def start (base : Option (Node ι)) (path : CString) : Option (Node ι) :=
  if path.chars.head? = some slash then some t.root else base

end DirTree

/-- The node that a call returns. -/
def Result.node (r : Result ι) : Option (Option (Node ι)) := r.2.map (Option.map Handle.node)

@[simp] theorem Result.node_none (st : VfsState) : Result.node (ι := ι) (st, none) = none := rfl

@[simp] theorem Result.node_null (st : VfsState) :
    Result.node (ι := ι) (st, some none) = some none := rfl

@[simp] theorem Result.node_some (st : VfsState) (h : Handle ι) :
    Result.node (st, some (some h)) = some (some h.node) := rfl

/-- The state has `P` and the handle that is returned, if one is, has `Q`. -/
structure Result.Ends (P : VfsState → Prop) (Q : Handle ι → Prop) (r : Result ι) : Prop where
  state : P r.1
  handle : ∀ h, r.2 = some (some h) → Q h

section Ends

variable {P : VfsState → Prop} {Q : Handle ι → Prop} {st : VfsState}

theorem Result.ends_none (hst : P st) : Result.Ends P Q (st, none) := ⟨hst, fun h hh => by simp at hh⟩

theorem Result.ends_null (hst : P st) : Result.Ends P Q (st, some none) :=
  ⟨hst, fun h hh => by simp at hh⟩

theorem Result.ends_some {h : Handle ι} (hst : P st) (hh : Q h) : Result.Ends P Q (st, some (some h)) :=
  ⟨hst, fun _ heq => Option.some.inj (Option.some.inj heq) ▸ hh⟩

theorem Result.Ends.andThen {r : Result ι} {k : VfsState → Handle ι → Result ι} (hr : r.Ends P Q)
    (hk : ∀ st h, P st → Q h → (k st h).Ends P Q) : (r.andThen k).Ends P Q := by
  obtain ⟨st, ret⟩ := r
  rcases ret with _ | _ | h
  · exact hr
  · exact hr
  · exact hk st h hr.state (hr.handle h rfl)

end Ends

/-- The node after a continuation that depends on the node only. -/
theorem Result.node_andThen {r : Result ι} {k : VfsState → Handle ι → Result ι}
    {g : Node ι → Option (Option (Node ι))} (hk : ∀ st h, (k st h).node = g h.node) :
    (r.andThen k).node =
      match r.node with
      | none => none
      | some none => some none
      | some (some n) => g n := by
  obtain ⟨st, ret⟩ := r
  rcases ret with _ | _ | h
  · rfl
  · rfl
  · exact hk st h

namespace DirTree

variable {t : DirTree ι} {node res : Node ι} {name : List Byte}

theorem root_not_link : t.root.flags &&& vfsSymlink = 0#32 := by
  rw [t.root_flags]
  decide

theorem find_missing (h : t.findNode node name = none) : t.graph.find node name = .missing := by
  simp [graph, h]

theorem find_node (h : t.findNode node name = some res) (hlink : res.flags &&& vfsSymlink = 0#32) :
    t.graph.find node name = .node res := by
  simp [graph, h, hlink]

theorem find_link (h : t.findNode node name = some res) (hlink : res.flags &&& vfsSymlink ≠ 0#32) :
    t.graph.find node name = .link res.inode := by
  simp [graph, h, hlink]

theorem not_link_of_find (h : t.graph.find node name = .node res) :
    res.flags &&& vfsSymlink = 0#32 := by
  cases hfind : t.findNode node name with
  | none => simp [find_missing hfind] at h
  | some r =>
    by_cases hlink : r.flags &&& vfsSymlink = 0#32
    · obtain rfl := Found.node.inj ((find_node hfind hlink).symm.trans h)
      exact hlink
    · simp [find_link hfind hlink] at h

theorem target_absolute {i : ι} (h : (t.linkText i).chars.head? = some slash) :
    t.graph.target i = some (t.root, names (t.linkText i)) := if_pos h

theorem target_relative {i : ι} (h : (t.linkText i).chars.head? ≠ some slash) :
    t.graph.target i = none := if_neg h

theorem target_root {i : ι} {b : Node ι} {ns : List (List Byte)} (h : t.graph.target i = some (b, ns)) :
    b = t.root := by
  by_cases habs : (t.linkText i).chars.head? = some slash
  · rw [target_absolute habs, Option.some.injEq, Prod.mk.injEq] at h
    exact h.1.symm
  · simp [target_relative habs] at h

/-- What a walk leads to is no link if the start is none and what links lead to is none. -/
theorem walk_not_link {f : ι → Option (Option (Node ι))}
    (hf : ∀ {i r}, f i = some (some r) → r.flags &&& vfsSymlink = 0#32) {s r : Node ι}
    {ns : List (List Byte)} (hs : s.flags &&& vfsSymlink = 0#32)
    (h : t.graph.walk f s ns = some (some r)) : r.flags &&& vfsSymlink = 0#32 := by
  induction ns generalizing s with
  | nil =>
    obtain rfl : s = r := by simpa [LinkGraph.walk] using h
    exact hs
  | cons n ns ih =>
    unfold LinkGraph.walk at h
    cases hfind : t.graph.find s n with
    | missing => simp [hfind] at h
    | node u =>
      simp only [hfind] at h
      exact ih (not_link_of_find hfind) h
    | link l =>
      simp only [hfind] at h
      rcases hl : f l with _ | _ | u
      · simp [hl] at h
      · simp [hl] at h
      · simp only [hl] at h
        exact ih (hf hl) h

theorem follow_not_link {d : ℕ} {i : ι} {r : Node ι} (h : t.graph.follow d i = some (some r)) :
    r.flags &&& vfsSymlink = 0#32 := by
  induction d generalizing i r with
  | zero => simp [LinkGraph.follow] at h
  | succ d ih =>
    unfold LinkGraph.follow at h
    cases htarget : t.graph.target i with
    | none => simp [htarget] at h
    | some b =>
      obtain ⟨b, ns⟩ := b
      simp only [htarget] at h
      obtain rfl := target_root htarget
      exact walk_not_link ih root_not_link h

/-- The names of an absolute path are those after the slash. -/
theorem names_slash {path : CString} {cs : List Byte} (h : path.chars = slash :: cs) :
    names path = (splitPath cs).filter fun w => ¬Skipped w := by
  simp [names, h, splitPath, Skipped]

/-- A call walks the components of its path from a clone of the node it starts from. -/
theorem getNode_walk {base : Option (Node ι)} {path : CString} {s : Node ι}
    (h : t.start base path = some s) (call : VfsState → Option (Node ι) → CString → Result ι)
    (st : VfsState) : ∃ ws, (ws.filter fun w => ¬Skipped w) = names path ∧
      t.getNode call st base path = t.walkPath call (st.newNode s).1 (st.newNode s).2 ws := by
  unfold start at h
  unfold getNode
  cases hpath : path.chars with
  | nil =>
    obtain rfl : base = some s := by simpa [hpath] using h
    exact ⟨[], by simp [names, hpath, splitPath], rfl⟩
  | cons c cs =>
    by_cases hc : c = slash
    · subst hc
      obtain rfl : t.root = s := by simpa [hpath] using h
      exact ⟨splitPath cs, (names_slash hpath).symm, by simp [VfsState.vfsCloneNode]⟩
    · obtain rfl : base = some s := by simpa [hpath, hc] using h
      exact ⟨splitPath (c :: cs), by rw [names, hpath], by simp [hc, VfsState.vfsCloneNode]⟩

theorem getNode_null {base : Option (Node ι)} {path : CString} (h : t.start base path = none)
    (call : VfsState → Option (Node ι) → CString → Result ι) (st : VfsState) :
    t.getNode call st base path = (st, some none) := by
  unfold start at h
  unfold getNode
  cases hpath : path.chars with
  | nil =>
    obtain rfl : base = none := by simpa [hpath] using h
    rfl
  | cons c cs =>
    have hc : c ≠ slash := by
      rintro rfl
      simp [hpath] at h
    obtain rfl : base = none := by simpa [hpath, hc] using h
    simp [hc]

/-- A link is resolved from the root, if at all. -/
theorem start_none {path : CString} {b : Node ι} (h : t.start none path = some b) : b = t.root := by
  unfold start at h
  split at h
  · exact (Option.some.inj h).symm
  · simp at h

theorem followLinks_of_not_link {call : VfsState → Option (Node ι) → CString → Result ι} {st : VfsState}
    {next : Handle ι} (h : next.node.flags &&& vfsSymlink = 0#32) (k : ℕ) :
    t.followLinks call k st next = (st, some (some next)) := by
  cases k with
  | zero => rfl
  | succ k =>
    unfold followLinks
    simp [h]

/-- One round of the loop that follows links: the node is no link, or there is a nested call. -/
theorem followLinks_cases (call : VfsState → Option (Node ι) → CString → Result ι) (k : ℕ) (st : VfsState)
    (next : Handle ι) :
    let text := t.linkText next.node.inode
    let nested := call (st.put text.chars) (t.start none text) text
    next.node.flags &&& vfsSymlink = 0#32 ∧
        t.followLinks call (k + 1) st next = (st, some (some next)) ∨
      next.node.flags &&& vfsSymlink ≠ 0#32 ∧
        ((∃ st', nested = (st', none) ∧ t.followLinks call (k + 1) st next = (st', none)) ∨
          (∃ st', nested = (st', some none) ∧
            t.followLinks call (k + 1) st next = (t.vfsClose st' next, some none)) ∨
          ∃ st' target, nested = (st', some (some target)) ∧
            t.followLinks call (k + 1) st next = t.followLinks call k (t.vfsClose st' next) target) := by
  by_cases hlink : next.node.flags &&& vfsSymlink = 0#32
  · exact .inl ⟨hlink, followLinks_of_not_link hlink (k + 1)⟩
  · refine .inr ⟨hlink, ?_⟩
    rw [followLinks, if_pos hlink]
    unfold start
    dsimp only
    rcases call (st.put (t.linkText next.node.inode).chars)
      (if (t.linkText next.node.inode).chars.head? = some slash then some t.root else none)
      (t.linkText next.node.inode) with ⟨st', _ | _ | target⟩
    · exact .inl ⟨st', rfl, rfl⟩
    · exact .inr (.inl ⟨st', rfl, rfl⟩)
    · exact .inr (.inr ⟨st', target, rfl, rfl⟩)

/-! ## What a call keeps -/

/-- Properties of the state, of nodes and of handles that the steps of a call keep: nodes that are found
or cloned have `R`, handles to new nodes have `Q`, and `P` holds after each step. -/
structure CallInvariant (t : DirTree ι) (P : VfsState → Prop) (R : Node ι → Prop) (Q : Handle ι → Prop) :
    Prop where
  put : ∀ {st s}, P st → P (st.put s)
  node : ∀ {st n}, P st → R n → P (st.newNode n).1 ∧ Q (st.newNode n).2
  close : ∀ {st h}, P st → Q h → P (t.vfsClose st h)
  found : ∀ {node name r}, t.findNode node name = some r → R r
  root : R t.root

section Invariant

variable {P : VfsState → Prop} {R : Node ι → Prop} {Q : Handle ι → Prop} {st : VfsState}
  {call : VfsState → Option (Node ι) → CString → Result ι}

namespace CallInvariant

theorem followLinks (hinv : t.CallInvariant P R Q)
    (hcall : ∀ st base path, P st → (∀ b, base = some b → R b) → (call st base path).Ends P Q)
    {k : ℕ} {next : Handle ι} (hst : P st) (hnext : Q next) :
    (t.followLinks call k st next).Ends P Q := by
  induction k generalizing st next with
  | zero => exact Result.ends_some hst hnext
  | succ k ih =>
    have hnested : (call (st.put (t.linkText next.node.inode).chars)
        (t.start none (t.linkText next.node.inode)) (t.linkText next.node.inode)).Ends P Q :=
      hcall _ _ _ (hinv.put hst) fun b hb => start_none hb ▸ hinv.root
    rcases t.followLinks_cases call k st next with
      ⟨-, heq⟩ | ⟨-, ⟨st', hres, heq⟩ | ⟨st', hres, heq⟩ | ⟨st', target, hres, heq⟩⟩
    · rw [heq]
      exact Result.ends_some hst hnext
    all_goals rw [hres] at hnested; rw [heq]
    · exact hnested
    · exact Result.ends_null (hinv.close hnested.state hnext)
    · exact ih (hinv.close hnested.state hnext) (hnested.handle target rfl)

theorem walkPath (hinv : t.CallInvariant P R Q)
    (hcall : ∀ st base path, P st → (∀ b, base = some b → R b) → (call st base path).Ends P Q)
    {current : Handle ι} {ws : List (List Byte)} (hst : P st) (hcurrent : Q current) :
    (t.walkPath call st current ws).Ends P Q := by
  induction ws generalizing st current with
  | nil => exact Result.ends_some hst hcurrent
  | cons w ws ih =>
    unfold DirTree.walkPath
    split
    · exact ih (hinv.put hst) hcurrent
    · unfold vfsFinddir
      cases hfind : t.findNode current.node w with
      | none => exact Result.ends_null (hinv.close (hinv.put hst) hcurrent)
      | some res =>
        have hput : P ((st.put w).put res.name) := hinv.put (hinv.put hst)
        obtain ⟨hnew, hres⟩ := hinv.node hput (hinv.found hfind)
        exact (hinv.followLinks hcall (hinv.close hnew hcurrent) hres).andThen fun _ _ => ih

/-- From a node that was found: following its links, then the other components. -/
theorem rest (hinv : t.CallInvariant P R Q)
    (hcall : ∀ st base path, P st → (∀ b, base = some b → R b) → (call st base path).Ends P Q) {k : ℕ}
    {next : Handle ι} {ws : List (List Byte)} (hst : P st) (hnext : Q next) :
    ((t.followLinks call k st next).andThen fun st current => t.walkPath call st current ws).Ends P Q :=
  (hinv.followLinks hcall hst hnext).andThen fun _ _ => hinv.walkPath hcall

theorem getNode (hinv : t.CallInvariant P R Q)
    (hcall : ∀ st base path, P st → (∀ b, base = some b → R b) → (call st base path).Ends P Q)
    {base : Option (Node ι)} {path : CString} (hst : P st) (hbase : ∀ b, base = some b → R b) :
    (t.getNode call st base path).Ends P Q := by
  cases hstart : t.start base path with
  | none =>
    rw [getNode_null hstart]
    exact Result.ends_null hst
  | some s =>
    have hs : R s := by
      unfold start at hstart
      split at hstart
      · exact Option.some.inj hstart ▸ hinv.root
      · exact hbase s hstart
    obtain ⟨ws, -, heq⟩ := getNode_walk hstart call st
    obtain ⟨hnew, hcurrent⟩ := hinv.node hst hs
    rw [heq]
    exact hinv.walkPath hcall hnew hcurrent

/-- What the steps of a call keep, the call keeps. -/
theorem vfsGetNodeByPath (hinv : t.CallInvariant P R Q) (d : ℕ) {base : Option (Node ι)}
    {path : CString} (hst : P st) (hbase : ∀ b, base = some b → R b) :
    (t.vfsGetNodeByPath d st base path).Ends P Q := by
  induction d generalizing st base path with
  | zero => exact hinv.getNode (fun _ _ _ hst _ => Result.ends_none hst) hst hbase
  | succ d ih => exact hinv.getNode (fun _ _ _ hst hbase => ih hst hbase) hst hbase

end CallInvariant

end Invariant

/-! ## Refinement -/

section Refinement

variable {call : VfsState → Option (Node ι) → CString → Result ι} {f : ι → Option (Option (Node ι))}

/-- The node that a path resolves to, when `f` is what links lead to. -/
def resolved (t : DirTree ι) (f : ι → Option (Option (Node ι))) (base : Option (Node ι))
    (path : CString) : Option (Option (Node ι)) :=
  match t.start base path with
  | none => some none
  | some s => t.graph.walk f s (names path)

/-- One round of the loop follows a link; the count that bounds the loop is never reached, since the
nested call returns no link. -/
theorem followLinks_node
    (hcall : ∀ st i, (call st (t.start none (t.linkText i)) (t.linkText i)).node = f i)
    (hf : ∀ {i r}, f i = some (some r) → r.flags &&& vfsSymlink = 0#32) (st : VfsState)
    (next : Handle ι) : (t.followLinks call 8 st next).node =
      if next.node.flags &&& vfsSymlink ≠ 0#32 then f next.node.inode else some (some next.node) := by
  have hnode := hcall (st.put (t.linkText next.node.inode).chars) next.node.inode
  rcases t.followLinks_cases call 7 st next with
    ⟨hlink, heq⟩ | ⟨hlink, ⟨st', hres, heq⟩ | ⟨st', hres, heq⟩ | ⟨st', target, hres, heq⟩⟩
  · rw [heq, if_neg (not_not_intro hlink)]
    rfl
  all_goals rw [hres] at hnode; rw [heq, if_pos hlink]
  · exact hnode
  · exact hnode
  · rw [followLinks_of_not_link (hf hnode.symm)]
    exact hnode

theorem walkPath_node
    (hcall : ∀ st i, (call st (t.start none (t.linkText i)) (t.linkText i)).node = f i)
    (hf : ∀ {i r}, f i = some (some r) → r.flags &&& vfsSymlink = 0#32) (st : VfsState)
    (current : Handle ι) (ws : List (List Byte)) :
    (t.walkPath call st current ws).node =
      t.graph.walk f current.node (ws.filter fun w => ¬Skipped w) := by
  induction ws generalizing st current with
  | nil => rfl
  | cons w ws ih =>
    unfold walkPath
    by_cases hskip : Skipped w
    · simp only [if_pos hskip, ih]
      simp [hskip]
    · rw [if_neg hskip, List.filter_cons_of_pos (by simpa using hskip)]
      unfold vfsFinddir LinkGraph.walk
      cases hfind : t.findNode current.node w with
      | none =>
        rw [find_missing hfind]
        rfl
      | some res =>
        dsimp only
        rw [Result.node_andThen (g := fun n => t.graph.walk f n (ws.filter fun w => ¬Skipped w)) ih,
          followLinks_node hcall hf]
        by_cases hlink : res.flags &&& vfsSymlink = 0#32
        · rw [find_node hfind hlink]
          simp [VfsState.newNode, hlink]
        · rw [find_link hfind hlink]
          simp only [VfsState.newNode, ne_eq, hlink, not_false_eq_true, if_true]
          rcases f res.inode with _ | _ | u <;> rfl

theorem getNode_node
    (hcall : ∀ st i, (call st (t.start none (t.linkText i)) (t.linkText i)).node = f i)
    (hf : ∀ {i r}, f i = some (some r) → r.flags &&& vfsSymlink = 0#32) (st : VfsState)
    (base : Option (Node ι)) (path : CString) :
    (t.getNode call st base path).node = t.resolved f base path := by
  unfold resolved
  cases hstart : t.start base path with
  | none => rw [getNode_null hstart, Result.node_null]
  | some s =>
    obtain ⟨ws, hws, heq⟩ := getNode_walk hstart call st
    rw [heq, walkPath_node hcall hf, hws]
    rfl

end Refinement

/-- The call for a link, in terms of what its path resolves to. -/
theorem follow_succ (d : ℕ) (i : ι) : t.graph.follow (d + 1) i =
    t.resolved (t.graph.follow d) (t.start none (t.linkText i)) (t.linkText i) := by
  unfold LinkGraph.follow resolved start
  by_cases habs : (t.linkText i).chars.head? = some slash
  · simp only [target_absolute habs, if_pos habs]
  · simp only [target_relative habs, if_neg habs]

/-- **Refinement.** The node that the call returns is the one that the names of the path resolve to,
with as many nested calls. -/
theorem vfsGetNodeByPath_node (d : ℕ) (st : VfsState) (base : Option (Node ι)) (path : CString) :
    (t.vfsGetNodeByPath d st base path).node = t.resolved (t.graph.follow d) base path := by
  induction d generalizing st base path with
  | zero => exact getNode_node (fun _ _ => rfl) follow_not_link st base path
  | succ d ih =>
    exact getNode_node (fun st i => by rw [ih, follow_succ]) follow_not_link st base path

end DirTree

/-! ## A small tree -/

/-- The node that a directory of the given inode is in the tree below. -/
def smallNode (name : List Byte) (inode : ℕ) : Node ℕ := ⟨name, vfsDirectory, inode, 0#32, none, none⟩

theorem smallRoot_flags : (smallNode [slash] 0).flags = vfsDirectory := rfl

theorem smallRoot_ptr : (smallNode [slash] 0).ptr = none := rfl

/-- PAFS with a directory `mnt`, onto which an ext2 disk is mounted that has a link `a` with the given
target and an empty file `b`. -/
def smallTree (target : List Byte) : DirTree ℕ where
  kind i := if i < 2 then .pafs else .ext2
  flags i := if i < 3 then vfsDirectory else if i = 3 then vfsSymlink else vfsFile
  length i := if i = 3 then BitVec.ofNat 32 target.length else 0#32
  find i name :=
    if i = 0 ∧ name = mntName then some 1
    else if i = 2 ∧ name = [97#8] then some 3
    else if i = 2 ∧ name = [98#8] then some 4
    else none
  entries _ := []
  content i := if i = 3 then target else []
  flags_pafs := by
    intro i h
    have hi : i < 2 := by
      by_contra hi
      simp [hi] at h
    exact .inr (if_pos (by omega))
  flags_ext2 := by
    intro i _
    by_cases h3 : i < 3
    · simp [h3]
    · by_cases hi : i = 3 <;> simp [h3, hi]
  find_kind := by
    intro i name j h
    split at h
    · next hi =>
      obtain rfl := Option.some.inj h
      simp [hi.1]
    · split at h
      · next hi =>
        obtain rfl := Option.some.inj h
        simp [hi.1]
      · split at h
        · next hi =>
          obtain rfl := Option.some.inj h
          simp [hi.1]
        · simp at h
  entries_pafs := by simp
  root := smallNode [slash] 0
  rootAddr := 0
  mounts := vfsMount [] ⟨mntPath, mntPath_noNul⟩ (smallNode [slash] 2)
  behind _ := []
  root_kind := rfl
  root_flags := smallRoot_flags
  root_ptr := smallRoot_ptr

end PekerOS.Vfs
