import PekerOS.Fs.Vfs.Path

/-!
# VFS: symbolic links

`vfs_get_node_by_path` counts the links it follows at a component, up to 8, and calls itself for each.
The nested call follows the links it meets by itself, so what it returns is no link, the count stays
below 2, and nothing bounds how deep the calls nest. An absolute link stands for its target at any
place of a path. A relative one is resolved with a null base, for which the call returns a null pointer.

## Main definitions

* `DirTree.Resolves`: what a path resolves to, for some number of nested calls
* `DirTree.Names`: which node a path names, by the tree alone

## Main results

* `DirTree.returns_iff`: when calls nested `d` deep suffice
* `DirTree.resolves_iff`: resolution in a tree whose links do not lead back to one another
* `DirTree.transparent_iff`: which links can be replaced by their targets
-/

namespace PekerOS.Vfs

variable {ι : Type} {t : DirTree ι}

namespace DirTree

/-- **Termination.** Calls nested `d` deep return exactly when no link that the path comes to has a chain
of `d` links after it, each met while the one before is resolved. -/
theorem returns_iff (d : ℕ) (st : VfsState) (base : Option (Node ι)) (path : CString) :
    (t.vfsGetNodeByPath d st base path).2 ≠ none ↔
      ∀ s, t.start base path = some s → ∀ i, t.graph.Meets s (names path) i →
        ¬t.graph.ChainFrom d i := by
  have hnode : (t.vfsGetNodeByPath d st base path).2 = none ↔
      t.resolved (t.graph.follow d) base path = none := by
    rw [← vfsGetNodeByPath_node d st base path, Result.node, Option.map_eq_none_iff]
  rw [ne_eq, hnode, resolved]
  cases hstart : t.start base path with
  | none => simp
  | some s =>
    have hnone : t.graph.resolve d s (names path) = none ↔
        ∃ i, t.graph.Meets s (names path) i ∧ t.graph.ChainFrom d i := LinkGraph.resolve_eq_none_iff
    rw [LinkGraph.resolve] at hnone
    simp [hnone]

end DirTree

/-- `"/mnt/a"` -/
abbrev linkPath : CString := ⟨mntPath ++ [slash, 97#8], by decide⟩

/-- The node of `/mnt` in the small tree. -/
abbrev smallMnt : Node ℕ :=
  ⟨mntName, vfsDirectory ||| vfsMountpoint, 1, 0#32, none, some (smallNode [slash] 2)⟩

theorem smallTree_mnt (target : List Byte) :
    (smallTree target).graph.find (smallTree target).root mntName = .node smallMnt :=
  DirTree.find_node rfl (show (vfsDirectory ||| vfsMountpoint) &&& vfsSymlink = 0#32 by decide)

theorem smallTree_link (target : List Byte) :
    (smallTree target).findNode (smallNode [slash] 2) [97#8] =
      some ⟨[97#8], vfsSymlink, 3, BitVec.ofNat 32 target.length, none, none⟩ := rfl

/-- The link `a` of the small tree stands behind the names of its path. -/
theorem smallTree_meets (target : List Byte) :
    (smallTree target).graph.Meets (smallTree target).root (names linkPath) 3 := by
  have hnames : names linkPath = [mntName, [97#8]] := by decide
  rw [hnames]
  refine ⟨_, _, .node (smallTree_mnt target) .here, ?_⟩
  exact DirTree.find_link (smallTree_link target) (show vfsSymlink &&& vfsSymlink ≠ 0#32 by decide)

/-- A link to itself: no number of nested calls is enough. -/
theorem self_link_loops :
    ¬∃ d st, ((smallTree linkPath.chars).vfsGetNodeByPath d st none linkPath).2 ≠ none := by
  rintro ⟨d, st, hret⟩
  have htext : (smallTree linkPath.chars).linkText 3 = linkPath := by decide
  have hself : (smallTree linkPath.chars).graph.Follows 3 3 := by
    refine ⟨(smallTree linkPath.chars).root, names linkPath, ?_, smallTree_meets _⟩
    rw [DirTree.target_absolute (by rw [htext]; rfl), htext]
  -- the link is followed by itself, as often as there are nested calls
  have hchain : ∀ d, (smallTree linkPath.chars).graph.ChainFrom d 3 := by
    intro d
    induction d with
    | zero => trivial
    | succ d ih => exact ⟨3, hself, ih⟩
  exact (DirTree.returns_iff d st none linkPath).mp hret _ rfl 3 (smallTree_meets _) (hchain d)

namespace DirTree

/-! ## What a path names -/

/-- The path resolves, for some number of nested calls, to the node, or to a null pointer. -/
def Resolves (t : DirTree ι) (base : Option (Node ι)) (path : CString) (o : Option (Node ι)) : Prop :=
  ∃ d, ∀ st, (t.vfsGetNodeByPath d st base path).node = some o

/-- The path names the node in the tree. -/
def Names (t : DirTree ι) (base : Option (Node ι)) (path : CString) (r : Node ι) : Prop :=
  ∃ s, t.start base path = some s ∧ t.graph.Walks s (names path) r

/-- Resolving a link never comes back to it, however many other links are between. -/
def Acyclic (t : DirTree ι) : Prop := WellFounded t.graph.Follows

variable {base : Option (Node ι)} {path : CString} {o : Option (Node ι)} {r d l : Node ι}

/-- A call that returns a node has resolved the path to it. -/
theorem resolves_of_node {k : ℕ} {st : VfsState}
    (h : (t.vfsGetNodeByPath k st base path).node = some o) : t.Resolves base path o :=
  ⟨k, fun st => by rw [vfsGetNodeByPath_node, ← h, vfsGetNodeByPath_node]⟩

theorem resolves_names (h : t.Resolves base path o) (r : Node ι) : o = some r ↔ t.Names base path r := by
  obtain ⟨k, hk⟩ := h
  have hnode := hk default
  rw [vfsGetNodeByPath_node, resolved] at hnode
  unfold Names
  cases hstart : t.start base path with
  | none =>
    simp only [hstart, Option.some.injEq] at hnode
    simp [← hnode]
  | some s =>
    simp only [hstart] at hnode
    simp [LinkGraph.resolve_eq_some hnode r]

/-- A path that names a node resolves to it. -/
theorem resolves_some_iff : t.Resolves base path (some r) ↔ t.Names base path r := by
  refine ⟨fun h => (resolves_names h r).mp rfl, ?_⟩
  rintro ⟨s, hstart, hwalk⟩
  obtain ⟨k, hk⟩ := hwalk.exists_resolve
  refine ⟨k, fun st => ?_⟩
  rw [vfsGetNodeByPath_node, resolved, hstart]
  exact hk

theorem exists_resolves (ht : t.Acyclic) (base : Option (Node ι)) (path : CString) :
    ∃ o, t.Resolves base path o := by
  cases hstart : t.start base path with
  | none => exact ⟨none, 0, fun st => by rw [vfsGetNodeByPath_node, resolved, hstart]⟩
  | some s =>
    obtain ⟨k, o, hk⟩ := LinkGraph.exists_resolve ht s (names path)
    refine ⟨o, k, fun st => ?_⟩
    rw [vfsGetNodeByPath_node, resolved, hstart]
    exact hk

/-- **Resolution without cycles.** Every path resolves, and it does to what it names. -/
theorem resolves_iff (ht : t.Acyclic) :
    t.Resolves base path o ↔ ∀ r, o = some r ↔ t.Names base path r := by
  refine ⟨resolves_names, fun h => ?_⟩
  obtain ⟨o', ho'⟩ := exists_resolves ht base path
  have heq : o' = o := by
    ext r
    rw [resolves_names ho', h]
  exact heq ▸ ho'

/-! ## Components of a path put together -/

theorem splitPath_ne_nil {c : Byte} {cs : List Byte} : splitPath (c :: cs) ≠ [] := by
  unfold splitPath
  split
  · simp
  · split <;> simp

/-- A slash at the end adds an empty component, unless it ends one. -/
theorem splitPath_slash (cs : List Byte) :
    splitPath (cs ++ [slash]) = splitPath cs ∨ splitPath (cs ++ [slash]) = splitPath cs ++ [[]] := by
  induction cs with
  | nil => exact .inr rfl
  | cons c cs ih =>
    simp only [List.cons_append, splitPath]
    split
    · rcases ih with ih | ih
      · exact .inl (by rw [ih])
      · exact .inr (by rw [ih]; rfl)
    · rcases ih with ih | ih
      · exact .inl (by rw [ih])
      · rw [ih]
        cases splitPath cs with
        | nil => exact .inl rfl
        | cons w ws => exact .inr rfl

theorem splitPath_append_slash (cs ds : List Byte) :
    splitPath (cs ++ slash :: ds) = splitPath (cs ++ [slash]) ++ splitPath ds := by
  induction cs with
  | nil => simp [splitPath]
  | cons c cs ih =>
    have hne : splitPath (cs ++ [slash]) ≠ [] := by
      cases cs with
      | nil => exact splitPath_ne_nil
      | cons b bs => exact splitPath_ne_nil
    obtain ⟨w, ws, hws⟩ := List.exists_cons_of_ne_nil hne
    simp only [List.cons_append, splitPath, ih, hws]
    split <;> rfl

/-- The names of a path, then a slash, then another path. -/
theorem names_append_slash (cs ds : List Byte) :
    ((splitPath (cs ++ slash :: ds)).filter fun w => ¬Skipped w) =
      ((splitPath cs).filter fun w => ¬Skipped w) ++ (splitPath ds).filter fun w => ¬Skipped w := by
  -- a slash at the end of a path adds at most an empty component
  have hend : ((splitPath (cs ++ [slash])).filter fun w => ¬Skipped w) =
      (splitPath cs).filter fun w => ¬Skipped w := by
    rcases splitPath_slash cs with h | h
    · rw [h]
    · rw [h, List.filter_append]
      simp [Skipped]
  rw [splitPath_append_slash, List.filter_append, hend]

/-- Two paths that meet at a slash. -/
theorem names_append {p q : CString} (h : p.chars = [] ∨ p.chars.getLast? = some slash ∨
    q.chars = [] ∨ q.chars.head? = some slash) : names (p ++ q) = names p ++ names q := by
  unfold names
  rw [CString.chars_append]
  rcases h with h | h | h | h
  · simp [h, splitPath]
  · obtain ⟨cs, hcs⟩ := List.getLast?_eq_some_iff.mp h
    have hp := names_append_slash cs []
    have happend := names_append_slash cs q.chars
    rw [hcs, List.append_assoc, List.singleton_append, happend]
    rw [hp]
    simp [splitPath]
  · simp [h, splitPath]
  · obtain ⟨ds, hds⟩ := List.head?_eq_some_iff.mp h
    have hq := names_append_slash [] ds
    rw [hds, names_append_slash]
    simpa [splitPath] using hq.symm

/-- A name that the loop looks up whole. -/
structure Component (n : CString) : Prop where
  no_slash : slash ∉ n.chars
  not_skipped : ¬Skipped n.chars

theorem splitPath_of_no_slash {c : Byte} {cs : List Byte} (h : slash ∉ c :: cs) :
    splitPath (c :: cs) = [c :: cs] := by
  have hc : c ≠ slash := fun heq => h (heq ▸ List.mem_cons_self)
  induction cs generalizing c with
  | nil => simp [splitPath, hc]
  | cons d ds ih =>
    have hd : slash ∉ d :: ds := fun hmem => h (List.mem_cons_of_mem c hmem)
    unfold splitPath
    rw [if_neg hc, ih hd fun heq => hd (heq ▸ List.mem_cons_self)]

theorem Component.names {n : CString} (hn : Component n) : names n = [n.chars] := by
  unfold Vfs.names
  cases hchars : n.chars with
  | nil => exact absurd (.inl hchars) hn.not_skipped
  | cons c cs =>
    rw [splitPath_of_no_slash (hchars ▸ hn.no_slash)]
    simpa [hchars] using hn.not_skipped

/-- The text of a link is its target, if the target and its end fit into the buffer. -/
theorem linkText_eq {i : ι} {target : CString} (h : t.content i = target.chars)
    (hlen : target.chars.length ≤ 127) : t.linkText i = target := by
  obtain ⟨k, hk⟩ : ∃ k, 128 - target.chars.length = k + 1 := ⟨127 - target.chars.length, by omega⟩
  unfold linkText
  rw [h, hk, List.take_of_length_le (by omega), List.replicate_succ, List.append_assoc, List.cons_append,
    CString.ofBytes_append_zero]

/-! ## Links and their targets -/

section Transparent

variable {p n q target : CString}

/-- The start of a path does not depend on what follows a nonempty part of it. -/
theorem start_append (h : p.chars ≠ []) : t.start base (p ++ q) = t.start base p := by
  unfold start
  rw [CString.chars_append, List.head?_append_of_ne_nil _ h]

/-- **A path through a link** names what the rest of it names from where the link leads. -/
theorem names_through_link (hp : p.chars = [] ∨ p.chars.getLast? = some slash) (hn : Component n)
    (hq : q.chars = [] ∨ q.chars.head? = some slash) (hd : t.Names base p d)
    (hl : t.findNode d n.chars = some l) (hlink : l.flags &&& vfsSymlink ≠ 0#32) (r : Node ι) :
    t.Names base (p ++ n ++ q) r ↔
      ∃ u, t.graph.Leads l.inode u ∧ t.graph.Walks u (names q) r := by
  obtain ⟨s, hs, hwalk⟩ := hd
  have hnames : names (p ++ n ++ q) = names p ++ n.chars :: names q := by
    have hpn : names (p ++ n) = names p ++ names n :=
      names_append (hp.imp id .inl)
    rw [names_append (hq.elim (fun h => .inr (.inr (.inl h))) fun h => .inr (.inr (.inr h))), hpn, hn.names]
    simp
  have hstart : t.start base (p ++ n ++ q) = some s := by
    rcases hp with hp | hp
    · -- a relative path: `n` does not start with a slash
      have hn0 : n.chars ≠ [] := fun h => hn.not_skipped (.inl h)
      have hhead : n.chars.head? ≠ some slash := fun h => hn.no_slash (List.mem_of_head? h)
      have happend : p ++ n ++ q = n ++ q := by
        cases p
        cases hp
        rfl
      rw [happend, start_append hn0, start, if_neg hhead]
      simpa [start, hp] using hs
    · have hp0 : p.chars ≠ [] := fun h => by simp [h] at hp
      rw [start_append (by simp [hp0]), start_append hp0, hs]
  unfold Names
  simp only [hstart, hnames, Option.some.injEq, exists_eq_left']
  rw [LinkGraph.walks_append]
  -- the walk along `p` ends at `d` and nowhere else
  constructor
  · rintro ⟨d', hd', hrest⟩
    obtain rfl := hwalk.unique hd'
    exact (LinkGraph.walks_cons_link (find_link hl hlink)).mp hrest
  · intro h
    exact ⟨d, hwalk, (LinkGraph.walks_cons_link (find_link hl hlink)).mpr h⟩

/-- **Links and their targets.** A path through a link gives the node that its target gives in its place
exactly if the target is absolute, or names nothing in the directory of the link. -/
theorem transparent_iff (ht : t.Acyclic) (hp : p.chars = [] ∨ p.chars.getLast? = some slash)
    (hn : Component n) (hq : q.chars = [] ∨ q.chars.head? = some slash)
    (hd : t.Resolves base p (some d)) (hl : t.findNode d n.chars = some l)
    (hlink : l.flags &&& vfsSymlink ≠ 0#32) (htarget : t.content l.inode = target.chars)
    (hlen : target.chars.length ≤ 127) (hne : target.chars ≠ []) :
    (∃ o, t.Resolves base (p ++ n ++ q) o ∧ t.Resolves (some d) (target ++ q) o) ↔
      target.chars.head? = some slash ∨ ¬∃ r, t.graph.Walks d (names (target ++ q)) r := by
  have hdnames : t.Names base p d := (resolves_names hd d).mp rfl
  have hthrough := names_through_link hp hn hq hdnames hl hlink
  have htext := linkText_eq htarget hlen
  have hnames : names (target ++ q) = names target ++ names q :=
    names_append (hq.elim (fun h => .inr (.inr (.inl h))) fun h => .inr (.inr (.inr h)))
  -- both sides resolve, so they give the same node when they name the same
  have hsame : (∃ o, t.Resolves base (p ++ n ++ q) o ∧ t.Resolves (some d) (target ++ q) o) ↔
      ∀ r, t.Names base (p ++ n ++ q) r ↔ t.Names (some d) (target ++ q) r := by
    constructor
    · rintro ⟨o, ho, ho'⟩ r
      rw [← resolves_names ho, ← resolves_names ho']
    · intro h
      obtain ⟨o, ho⟩ := exists_resolves ht base (p ++ n ++ q)
      refine ⟨o, ho, (resolves_iff ht).mpr fun r => ?_⟩
      rw [resolves_names ho, h]
  rw [hsame]
  by_cases habs : target.chars.head? = some slash
  · refine iff_of_true (fun r => ?_) (.inl habs)
    have hgoal := target_absolute (t := t) (i := l.inode) (by rw [htext]; exact habs)
    rw [htext] at hgoal
    rw [hthrough, Names, start_append hne, start, if_pos habs, hnames]
    simp only [Option.some.injEq, exists_eq_left', LinkGraph.walks_append, LinkGraph.Leads, hgoal,
      Prod.mk.injEq]
    constructor
    · rintro ⟨u, ⟨b, ms, ⟨rfl, rfl⟩, hwalk⟩, hrest⟩
      exact ⟨u, hwalk, hrest⟩
    · rintro ⟨u, hwalk, hrest⟩
      exact ⟨u, ⟨_, _, ⟨rfl, rfl⟩, hwalk⟩, hrest⟩
  · have hgoal := target_relative (t := t) (i := l.inode) (by rw [htext]; exact habs)
    have hnone : ∀ r, ¬t.Names base (p ++ n ++ q) r := by
      intro r hr
      obtain ⟨u, ⟨b, ms, hb, -⟩, -⟩ := (hthrough r).mp hr
      simp [hgoal] at hb
    simp only [habs, false_or, hnone, false_iff, not_exists]
    refine forall_congr' fun r => not_congr ?_
    rw [Names, start_append hne, start, if_neg habs]
    simp

end Transparent

end DirTree

/-- Only the link of the small tree has a text. -/
theorem smallTree_target {target : List Byte} {i : ℕ} (hi : i ≠ 3) :
    (smallTree target).graph.target i = none := by
  refine DirTree.target_relative ?_
  have htext : ((smallTree target).linkText i).chars = [] := by
    simp [DirTree.linkText, smallTree, hi, CString.ofBytes, List.replicate_succ]
  simp [htext]

/-- `"/mnt/"`, `"a"` and `"b"` -/
abbrev mntSlash : CString := ⟨mntPath ++ [slash], by decide⟩
abbrev nameA : CString := ⟨[97#8], by decide⟩
abbrev nameB : CString := ⟨[98#8], by decide⟩

theorem smallTree_resolves_mnt (target : List Byte) :
    (smallTree target).Resolves none mntSlash (some smallMnt) := by
  refine ⟨0, fun st => ?_⟩
  have hnames : names mntSlash = [mntName] := by decide
  rw [DirTree.vfsGetNodeByPath_node, DirTree.resolved, hnames]
  simp [DirTree.start, LinkGraph.walk, smallTree_mnt]

/-- With the target `/mnt` the link does not lead back to itself. -/
theorem smallTree_acyclic_mnt : (smallTree mntPath).Acyclic := by
  refine ⟨fun i => ⟨i, ?_⟩⟩
  rintro j ⟨b, ms, htarget, hmeets⟩
  by_cases hi : i = 3
  · subst hi
    have htext : (smallTree mntPath).linkText 3 = ⟨mntPath, by decide⟩ := by decide
    rw [DirTree.target_absolute (by rw [htext]; rfl), htext] at htarget
    obtain ⟨rfl, rfl⟩ := Prod.mk.inj (Option.some.inj htarget)
    have hnames : names ⟨mntPath, by decide⟩ = [mntName] := by decide
    rw [hnames, LinkGraph.meets_cons_node (smallTree_mnt mntPath)] at hmeets
    exact absurd hmeets LinkGraph.not_meets_nil
  · simp [smallTree_target hi] at htarget

theorem transparent_mnt :
    (∃ o, (smallTree mntPath).Resolves none (mntSlash ++ nameA ++ default) o ∧
      (smallTree mntPath).Resolves (some smallMnt) (⟨mntPath, by decide⟩ ++ default) o) ↔
    (mntPath.head? = some slash ∨
      ¬∃ r, (smallTree mntPath).graph.Walks smallMnt (names (⟨mntPath, by decide⟩ ++ default)) r) :=
  DirTree.transparent_iff smallTree_acyclic_mnt (.inr rfl) ⟨by decide, by decide⟩ (.inl rfl)
    (smallTree_resolves_mnt mntPath) (smallTree_link mntPath)
    (show vfsSymlink &&& vfsSymlink ≠ 0#32 by decide) rfl (by decide) (by decide)

/-- A link to `b`, in its own directory: the path through it gives nothing, and `b` is there. -/
theorem relative_link_lost : (smallTree nameB.chars).Acyclic ∧
    (smallTree nameB.chars).Resolves none (mntSlash ++ nameA) none ∧
    ∃ r, (smallTree nameB.chars).Resolves none (mntSlash ++ nameB) (some r) := by
  refine ⟨⟨fun i => ⟨i, ?_⟩⟩, ⟨1, fun st => ?_⟩, ?_⟩
  · rintro j ⟨b, ms, htarget, -⟩
    by_cases hi : i = 3
    · subst hi
      rw [DirTree.target_relative (by decide)] at htarget
      simp at htarget
    · simp [smallTree_target hi] at htarget
  · rw [DirTree.vfsGetNodeByPath_node]
    rfl
  · refine ⟨⟨[98#8], vfsFile, 4, 0#32, none, none⟩, 0, fun st => ?_⟩
    rw [DirTree.vfsGetNodeByPath_node]
    rfl

end PekerOS.Vfs
