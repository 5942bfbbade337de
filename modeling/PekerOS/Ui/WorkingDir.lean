import PekerOS.Ui.Shell

/-!
# The path and the node of the working directory

`cd` with a path appends it to the string of the working directory as it is written, so the names of
the string are those of all the paths one after another. `cd ..` cuts the string before its last
component, which need not be a name: after `cd /a/.` it is a dot, and after `cd /a//` it is empty. The
node always follows the string.

## Main definitions

* `Agrees`: the node is the one that the path resolves to
* `MovesUp`: `cd ..` leads to the parent directory
* `EndsInName`: the last component of the path is the name of the directory

## Main results

* `splitPath_parent`: what `cd ..` cuts
* `working_directory`: runs of `cd`
* `dot_stays`: `cd /mnt/.` and `cd ..`
-/

namespace PekerOS.Ui

open PekerOS.Vfs

variable {ι : Type}

/-- A `cd` command, in a tree that stays as it is. -/
def cdStep (d : ℕ) (t : DirTree ι) (s : Shell ι) (path : CString) : Shell ι := step d s (t, .cd path)

/-- `shell_cwd_node` is the node that `shell_cwd_path` resolves to. -/
def Agrees (d : ℕ) (t : DirTree ι) (s : Shell ι) : Prop :=
  ∀ st, (t.vfsGetNodeByPath d st (some t.root) s.cwdPath).node = some (some s.cwdNode.node)

/-- The lookup of a `cd` command gives no node, or one that is refused since it is no directory. -/
def CdFails (d : ℕ) (t : DirTree ι) (s : Shell ι) (path : CString) : Prop :=
  if path = dotDot then
    ∀ r, (t.vfsGetNodeByPath d s.vfs (some t.root) (parent s.cwdPath)).node ≠ some (some r)
  else ∀ r, (t.vfsGetNodeByPath d s.vfs (some s.cwdNode.node) path).node = some (some r) →
    r.flags &&& vfsDirectory = 0#32

/-- A command that fails changes neither the path nor the node. -/
def KeepsOnFailure (d : ℕ) (t : DirTree ι) (s : Shell ι) (path : CString) : Prop :=
  CdFails d t s path →
    (cdStep d t s path).cwdPath = s.cwdPath ∧ (cdStep d t s path).cwdNode = s.cwdNode

/-- A name of a directory in its parent. -/
def IsName (n : List Byte) : Prop := ¬Skipped n ∧ n ≠ dotDot.chars

/-- `cd ..` in a directory that is not the root leads to a directory in which it has a name. -/
def MovesUp (d : ℕ) (t : DirTree ι) (s : Shell ι) (path : CString) : Prop :=
  path = dotDot → s.hung = false → s.cwdNode.node.inode ≠ t.root.inode →
    ∃ n, IsName n ∧ t.graph.find (cdStep d t s path).cwdNode.node n = .node s.cwdNode.node

/-- When `cd ..` is given in a directory that is not the root, the last component of the path, a slash at
the end not counted, is a name and not that of a link. -/
def EndsInName (t : DirTree ι) (s : Shell ι) (path : CString) : Prop :=
  path = dotDot → s.cwdNode.node.inode ≠ t.root.inode →
    ∃ n, (splitPath s.cwdPath.chars).getLast? = some n ∧ IsName n ∧
      ∀ p l, t.Names (some t.root) (parent s.cwdPath) p → t.graph.find p n ≠ .link l

/-! ## What `cd ..` cuts -/

theorem exists_last_slash {cs : List Byte} (h : slash ∈ cs) :
    ∃ ds w, cs = ds ++ slash :: w ∧ slash ∉ w := by
  induction cs with
  | nil => exact absurd h List.not_mem_nil
  | cons c cs ih =>
    by_cases hcs : slash ∈ cs
    · obtain ⟨ds, w, rfl, hw⟩ := ih hcs
      exact ⟨c :: ds, w, rfl, hw⟩
    · rcases List.mem_cons.mp h with rfl | hmem
      · exact ⟨[], cs, rfl, hcs⟩
      · exact absurd hmem hcs

/-- A component and the slash that ends it. -/
theorem splitPath_word {w : List Byte} (hw : slash ∉ w) : splitPath (w ++ [slash]) = [w] := by
  induction w with
  | nil => rfl
  | cons c cs ih =>
    have hc : c ≠ slash := fun heq => hw (heq ▸ List.mem_cons_self)
    rw [List.cons_append, splitPath, if_neg hc, ih fun hmem => hw (List.mem_cons_of_mem c hmem)]

/-- The search backwards finds the last position with the property. -/
theorem find_range_reverse {p : ℕ → Bool} {m k : ℕ} (hm : p m = true)
    (hk : ∀ j, m < j → j < m + 1 + k → p j = false) :
    (List.range (m + 1 + k)).reverse.find? p = some m := by
  induction k with
  | zero =>
    rw [Nat.add_zero, List.range_succ, List.reverse_append]
    exact List.find?_cons_of_pos hm
  | succ k ih =>
    have hlast : p (m + 1 + k) = false := hk _ (by omega) (by omega)
    rw [← Nat.add_assoc, List.range_succ, List.reverse_append]
    rw [List.reverse_singleton, List.singleton_append, List.find?_cons_of_neg (by simp [hlast])]
    exact ih fun j hj hlt => hk j hj (by omega)

theorem getLast?_cons_concat (c b : Byte) (v : List Byte) : (c :: (v ++ [b])).getLast? = some b := by
  rw [← List.cons_append]
  exact List.getLast?_concat

/-- The string is cut behind the slash before its last component. -/
theorem parentLength_eq {l cs w : List Byte} (hw : slash ∉ w)
    (hl : l = cs ++ slash :: w ∧ w ≠ [] ∨ l = cs ++ slash :: (w ++ [slash])) :
    parentLength l = cs.length + 1 := by
  -- where the search for the slash starts: a slash at the end is not counted
  have hn : (if l.getLast? = some slash then l.length - 1 else l.length) = cs.length + 1 + w.length := by
    rcases hl with ⟨rfl, hne⟩ | rfl
    · have hlast : (cs ++ slash :: w).getLast? ≠ some slash := by
        obtain ⟨v, b, rfl⟩ := List.eq_nil_or_concat w |>.resolve_left hne
        have hb : b ≠ slash := fun heq => hw (heq ▸ by simp)
        rw [List.getLast?_append_cons, List.concat_eq_append, getLast?_cons_concat]
        exact fun heq => hb (Option.some.inj heq)
      rw [if_neg hlast, List.length_append, List.length_cons]
      omega
    · rw [if_pos (by rw [List.getLast?_append_cons, getLast?_cons_concat])]
      simp only [List.length_append, List.length_cons, List.length_nil]
      omega
  -- behind it there is no slash in the part searched
  have hget {j : ℕ} (hj : cs.length < j) (hlt : j < cs.length + 1 + w.length) : l[j]? ≠ some slash := by
    obtain ⟨k, rfl⟩ : ∃ k, j = cs.length + (k + 1) := ⟨j - cs.length - 1, by omega⟩
    have hk : k < w.length := by omega
    have hlk : l[cs.length + (k + 1)]? = some w[k] := by
      rcases hl with ⟨rfl, -⟩ | rfl
      · rw [List.getElem?_append_right (by omega)]
        simp [hk]
      · rw [List.getElem?_append_right (by omega)]
        simp [List.getElem?_append_left hk, hk]
    rw [hlk]
    exact fun heq => hw (Option.some.inj heq ▸ List.getElem_mem hk)
  have hslash : l[cs.length]? = some slash := by
    rcases hl with ⟨rfl, -⟩ | rfl <;> simp
  have hfind : (List.range (cs.length + 1 + w.length)).reverse.find? (fun i => l[i]? = some slash) =
      some cs.length := by
    refine find_range_reverse (by simpa using hslash) fun j hj hlt => ?_
    simpa using hget hj hlt
  unfold parentLength
  rw [hn]
  dsimp only
  rw [hfind]

/-- **What `cd ..` cuts**: the last component of a path that is not the root's, whatever it is. -/
theorem splitPath_parent {path : CString} (habs : path.chars.head? = some slash) (hne : path ≠ rootPath) :
    (parent path).chars.head? = some slash ∧
      ∃ w, splitPath path.chars = splitPath (parent path).chars ++ [w] := by
  obtain ⟨rest, hrest⟩ := List.head?_eq_some_iff.mp habs
  have hnil : rest ≠ [] := by
    rintro rfl
    refine hne ?_
    cases path
    simp only at hrest
    subst hrest
    rfl
  -- the path up to its last slash that is not at its end, and the word behind it
  have hdecomp : ∃ cs w, slash ∉ w ∧ (path.chars = cs ++ slash :: w ∧ w ≠ [] ∨
      path.chars = cs ++ slash :: (w ++ [slash])) := by
    obtain ⟨v, b, hv⟩ := List.eq_nil_or_concat rest |>.resolve_left hnil
    rw [List.concat_eq_append] at hv
    by_cases hb : b = slash
    · -- a slash at the end is not counted
      obtain ⟨cs, w, hcs, hw⟩ := exists_last_slash (show slash ∈ slash :: v from List.mem_cons_self)
      refine ⟨cs, w, hw, .inr ?_⟩
      rw [hrest, hv, hb, ← List.cons_append, hcs, List.append_assoc]
      rfl
    · obtain ⟨cs, w, hcs, hw⟩ := exists_last_slash (show slash ∈ path.chars from hrest ▸ List.mem_cons_self)
      refine ⟨cs, w, hw, .inl ⟨hcs, ?_⟩⟩
      rintro rfl
      have hlast := congrArg List.getLast? hcs
      rw [hrest, hv, getLast?_cons_concat, List.getLast?_concat] at hlast
      exact hb (Option.some.inj hlast)
  obtain ⟨cs, w, hw, hl⟩ := hdecomp
  -- `parent` keeps that slash
  have hparent : (parent path).chars = cs ++ [slash] := by
    change path.chars.take (parentLength path.chars) = _
    rw [parentLength_eq hw hl]
    rcases hl with ⟨hl, -⟩ | hl
    · rw [hl, List.take_append]
      simp
    · rw [hl, List.take_append]
      simp
  rw [hparent]
  refine ⟨?_, w, ?_⟩
  · -- the path left begins with the same slash
    cases cs with
    | nil => rfl
    | cons c cs =>
      have hhead : (c :: cs ++ slash :: w).head? = path.chars.head? := by
        rcases hl with ⟨hl, -⟩ | hl
        · rw [hl]
        · rw [hl]
          rfl
      exact hhead.trans habs
  · rcases hl with ⟨hl, hne⟩ | hl
    · obtain ⟨c, v, rfl⟩ := List.exists_cons_of_ne_nil hne
      rw [hl, DirTree.splitPath_append_slash, DirTree.splitPath_of_no_slash hw]
    · rw [hl, DirTree.splitPath_append_slash, splitPath_word hw]

theorem names_parent {path : CString} {w : List Byte}
    (h : splitPath path.chars = splitPath (parent path).chars ++ [w]) :
    names path = names (parent path) ++ [w].filter fun w => ¬Skipped w := by
  unfold names
  rw [h, List.filter_append]

/-- The names of a path that is appended. -/
theorem names_joined {cwdPath path : CString} (hrel : path.chars.head? ≠ some slash) :
    names (joined cwdPath path) = names cwdPath ++ names path := by
  have hroot : names rootPath = [] := by decide
  unfold joined
  rw [if_neg hrel]
  split
  · have hslash : names (cwdPath ++ rootPath) = names cwdPath := by
      rw [DirTree.names_append (.inr (.inr (.inr rfl))), hroot, List.append_nil]
    rw [DirTree.names_append (.inr (.inl (by simp))), hslash]
  · next hlast => exact DirTree.names_append (.inr (.inl (not_not.mp hlast)))

/-! ## One command -/

section Step

variable {d : ℕ} {t : DirTree ι} {s : Shell ι} {path : CString}

/-- The path is absolute, and its names lead to the node. -/
structure Follows (d : ℕ) (t : DirTree ι) (s : Shell ι) : Prop where
  absolute : s.cwdPath.chars.head? = some slash
  walk : t.graph.walk (t.graph.follow d) t.root (names s.cwdPath) = some (some s.cwdNode.node)

theorem lookup_absolute (habs : path.chars.head? = some slash) (base : Option (Node ι)) (st : VfsState) :
    (t.vfsGetNodeByPath d st base path).node = t.graph.walk (t.graph.follow d) t.root (names path) := by
  rw [DirTree.vfsGetNodeByPath_node, DirTree.resolved, DirTree.start, if_pos habs]

theorem lookup_relative (hrel : path.chars.head? ≠ some slash) (base : Node ι) (st : VfsState) :
    (t.vfsGetNodeByPath d st (some base) path).node =
      t.graph.walk (t.graph.follow d) base (names path) := by
  rw [DirTree.vfsGetNodeByPath_node, DirTree.resolved, DirTree.start, if_neg hrel]

theorem Follows.agrees (h : Follows d t s) : Agrees d t s := fun st => by
  rw [lookup_absolute h.absolute, h.walk]

/-- What `cd` looks up, below the node or from the root, is what the new path resolves to. -/
theorem Follows.joined (h : Follows d t s) {st : VfsState} {r : Node ι}
    (hr : (t.vfsGetNodeByPath d st (some s.cwdNode.node) path).node = some (some r)) :
    (joined s.cwdPath path).chars.head? = some slash ∧
      t.graph.walk (t.graph.follow d) t.root (names (joined s.cwdPath path)) = some (some r) := by
  by_cases habs : path.chars.head? = some slash
  · rw [Ui.joined, if_pos habs]
    rw [lookup_absolute habs] at hr
    exact ⟨habs, hr⟩
  · rw [lookup_relative habs] at hr
    refine ⟨?_, ?_⟩
    · have hne : s.cwdPath.chars ≠ [] := fun heq => by simpa [heq] using h.absolute
      rw [Ui.joined, if_neg habs]
      split
      · rw [CString.chars_append, CString.chars_append, List.append_assoc,
          List.head?_append_of_ne_nil _ hne, h.absolute]
      · rw [CString.chars_append, List.head?_append_of_ne_nil _ hne, h.absolute]
    · rw [names_joined habs, LinkGraph.walk_append]
      exact ⟨_, h.walk, hr⟩

/-- The path that is left by `cd ..` resolves, and the last component leads on from there. -/
theorem Follows.parent (h : Follows d t s) (hne : s.cwdPath ≠ rootPath) :
    (parent s.cwdPath).chars.head? = some slash ∧ ∃ p w,
      (splitPath s.cwdPath.chars).getLast? = some w ∧
      t.graph.walk (t.graph.follow d) t.root (names (parent s.cwdPath)) = some (some p) ∧
      t.graph.walk (t.graph.follow d) p ([w].filter fun w => ¬Skipped w) = some (some s.cwdNode.node) := by
  obtain ⟨habs, w, hw⟩ := splitPath_parent h.absolute hne
  have hwalk := h.walk
  rw [names_parent hw, LinkGraph.walk_append] at hwalk
  obtain ⟨p, hp, hrest⟩ := hwalk
  exact ⟨habs, p, w, by rw [hw]; exact List.getLast?_concat, hp, hrest⟩

/-- The shell after `cd ..`, when the lookup gives a node. -/
theorem cdStep_up (hhung : s.hung = false) (hne : s.cwdPath ≠ rootPath) {p : Node ι}
    (hp : ∀ st, (t.vfsGetNodeByPath d st (some t.root) (parent s.cwdPath)).node = some (some p)) :
    (cdStep d t s dotDot).cwdPath = parent s.cwdPath ∧ (cdStep d t s dotDot).cwdNode.node = p := by
  have hnode := hp (s.vfs.put (parent s.cwdPath).chars)
  rw [cdStep, step, if_neg (by simp [hhung])]
  rw [stepCd, if_pos rfl, if_pos hne]
  dsimp only
  rcases hres : t.vfsGetNodeByPath d (s.vfs.put (parent s.cwdPath).chars) (some t.root)
    (parent s.cwdPath) with ⟨st', _ | _ | node⟩
  all_goals rw [hres] at hnode
  · simp at hnode
  · simp at hnode
  · rw [Result.node_some] at hnode
    exact ⟨rfl, Option.some.inj (Option.some.inj hnode)⟩

/-- The shell after `cd` with another path. -/
theorem cdStep_path (hhung : s.hung = false) (hpath : path ≠ dotDot) :
    (CdFails d t s path ∧ (cdStep d t s path).cwdPath = s.cwdPath ∧
        (cdStep d t s path).cwdNode = s.cwdNode) ∨
      ∃ r, (t.vfsGetNodeByPath d s.vfs (some s.cwdNode.node) path).node = some (some r) ∧
        r.flags &&& vfsDirectory ≠ 0#32 ∧
        (cdStep d t s path).cwdPath = joined s.cwdPath path ∧ (cdStep d t s path).cwdNode.node = r := by
  rw [CdFails, if_neg hpath, cdStep, step, if_neg (by simp [hhung])]
  rw [stepCd, if_neg hpath]
  rcases hres : t.vfsGetNodeByPath d s.vfs (some s.cwdNode.node) path with ⟨st', _ | _ | node⟩
  · exact .inl ⟨nofun, rfl, rfl⟩
  · exact .inl ⟨nofun, rfl, rfl⟩
  · dsimp only
    split
    · next hdir => exact .inr ⟨node.node, rfl, hdir, rfl, rfl⟩
    · next hdir =>
      refine .inl ⟨fun r hr => ?_, rfl, rfl⟩
      obtain rfl := Option.some.inj (Option.some.inj hr)
      exact not_not.mp hdir

theorem cdStep_hung (hhung : s.hung = true) : cdStep d t s path = s := by
  rw [cdStep, step, if_pos hhung]

theorem cdStep_root (hroot : s.cwdPath = rootPath) : cdStep d t s dotDot = s := by
  cases hhung : s.hung with
  | true => exact cdStep_hung hhung
  | false =>
    rw [cdStep, step, if_neg (by simp [hhung])]
    rw [stepCd, if_pos rfl, if_neg (not_not.mpr hroot)]

theorem follows_step (h : Follows d t s) : Follows d t (cdStep d t s path) := by
  cases hhung : s.hung with
  | true => rwa [cdStep_hung hhung]
  | false =>
    by_cases hpath : path = dotDot
    · subst hpath
      by_cases hroot : s.cwdPath = rootPath
      · rwa [cdStep_root hroot]
      · obtain ⟨habs, p, w, -, hp, -⟩ := h.parent hroot
        obtain ⟨hcwd, hnode⟩ := cdStep_up hhung hroot fun st => (lookup_absolute habs _ st).trans hp
        exact ⟨by rwa [hcwd], by rw [hcwd, hnode, hp]⟩
    · rcases cdStep_path (d := d) (t := t) hhung hpath with ⟨-, hcwd, hnode⟩ | ⟨r, hr, -, hcwd, hnode⟩
      · exact ⟨by rw [hcwd]; exact h.absolute, by rw [hcwd, hnode]; exact h.walk⟩
      · obtain ⟨habs, hwalk⟩ := h.joined hr
        exact ⟨by rwa [hcwd], by rw [hcwd, hnode, hwalk]⟩

theorem keepsOnFailure_step (h : Follows d t s) : KeepsOnFailure d t s path := by
  intro hfails
  cases hhung : s.hung with
  | true =>
    rw [cdStep_hung hhung]
    exact ⟨rfl, rfl⟩
  | false =>
    by_cases hpath : path = dotDot
    · subst hpath
      by_cases hroot : s.cwdPath = rootPath
      · rw [cdStep_root hroot]
        exact ⟨rfl, rfl⟩
      · -- the path that is left resolves
        obtain ⟨habs, p, w, -, hp, -⟩ := h.parent hroot
        rw [CdFails, if_pos rfl] at hfails
        exact absurd ((lookup_absolute habs _ _).trans hp) (hfails p)
    · rcases cdStep_path (d := d) (t := t) hhung hpath with ⟨-, hsame⟩ | ⟨r, hr, hdir, -⟩
      · exact hsame
      · rw [CdFails, if_neg hpath] at hfails
        exact absurd (hfails r hr) hdir

theorem movesUp_step (h : Follows d t s) (hends : EndsInName t s path) : MovesUp d t s path := by
  rintro rfl hhung hnotroot
  obtain ⟨n, hlast, hname, hlink⟩ := hends rfl hnotroot
  by_cases hroot : s.cwdPath = rootPath
  · -- `/` is the root
    have hwalk := h.walk
    have hnil : names rootPath = [] := by decide
    rw [hroot, hnil] at hwalk
    have heq : t.root = s.cwdNode.node := Option.some.inj (Option.some.inj hwalk)
    exact absurd (congrArg Node.inode heq).symm hnotroot
  · obtain ⟨habs, p, w, hw, hp, hrest⟩ := h.parent hroot
    obtain rfl := Option.some.inj (hlast.symm.trans hw)
    have hup := cdStep_up hhung hroot fun st => (lookup_absolute habs _ st).trans hp
    refine ⟨n, hname, ?_⟩
    rw [hup.2]
    have hnames : t.Names (some t.root) (parent s.cwdPath) p := by
      refine ⟨t.root, by rw [DirTree.start, if_pos habs], ?_⟩
      exact (LinkGraph.walk_eq_some (LinkGraph.exact_follow d) hp p).mp rfl
    rw [List.filter_cons_of_pos (by simpa using hname.1), List.filter_nil, LinkGraph.walk] at hrest
    cases hfind : t.graph.find p n with
    | missing =>
      rw [hfind] at hrest
      simp at hrest
    | node u =>
      rw [hfind] at hrest
      have heq : u = s.cwdNode.node := Option.some.inj (Option.some.inj hrest)
      rw [heq]
    | link l => exact absurd hfind (hlink p l hnames)

end Step

/-- The shell starts in the root directory. -/
structure AtRoot (t : DirTree ι) (s : Shell ι) : Prop where
  cwdPath : s.cwdPath = rootPath
  cwdNode : s.cwdNode.node = t.root

theorem AtRoot.follows {t : DirTree ι} {s : Shell ι} (h : AtRoot t s) (d : ℕ) : Follows d t s := by
  have hnil : names rootPath = [] := by decide
  refine ⟨by rw [h.cwdPath]; rfl, ?_⟩
  rw [h.cwdPath, h.cwdNode, hnil]
  rfl

/-- **The working directory.** In every run of `cd` the node is the one that the path resolves to and a
command that fails changes nothing, and when each `cd ..` is given where the path ends in the name of
the directory, each leads to the parent. -/
theorem working_directory (d : ℕ) {t : DirTree ι} {s : Shell ι} (hs : AtRoot t s) {paths : List CString}
    (hends : Steps (cdStep d t) (EndsInName t) s paths) :
    Along (cdStep d t) (Agrees d t) s paths ∧
      Steps (cdStep d t) (fun s path => KeepsOnFailure d t s path ∧ MovesUp d t s path) s paths := by
  have hfollows := hs.follows d
  constructor
  · have halong : Along (cdStep d t) (Follows d t) s paths :=
      along_of_steps (I := fun _ => True) (fun _ => trivial) (fun _ h _ => follows_step h) trivial hfollows
        hends
    exact halong.imp Follows.agrees
  · exact Steps.imp (I := Follows d t) (fun h _ => follows_step h)
      (fun h hc => ⟨keepsOnFailure_step h, movesUp_step h hc⟩) hfollows hends

/-! ## In the small tree -/

theorem atRoot_smallShell : AtRoot (smallTree []) smallShell := ⟨rfl, rfl⟩

/-- `cd /mnt` and `cd ..` -/
theorem working_directory_mnt :
    Along (cdStep 8 (smallTree [])) (Agrees 8 (smallTree [])) smallShell [⟨mntPath, by decide⟩, dotDot] ∧
      Steps (cdStep 8 (smallTree [])) (fun s path => KeepsOnFailure 8 (smallTree []) s path ∧
        MovesUp 8 (smallTree []) s path) smallShell [⟨mntPath, by decide⟩, dotDot] := by
  refine working_directory 8 atRoot_smallShell ⟨fun hup => ?_, fun _ _ => ?_, trivial⟩
  · exact absurd hup (by decide)
  · refine ⟨mntName, by decide, ⟨by decide, by decide⟩, fun p l hp => ?_⟩
    obtain ⟨r, hr, hwalk⟩ := hp
    obtain rfl : (smallTree []).root = r := Option.some.inj hr
    have hnil : names (parent (cdStep 8 (smallTree []) smallShell ⟨mntPath, by decide⟩).cwdPath) = [] := by
      decide
    rw [hnil, LinkGraph.walks_nil] at hwalk
    rw [← hwalk, smallTree_mnt]
    exact nofun

/-- `"/mnt/."` -/
abbrev mntDot : CString := ⟨mntPath ++ [slash, 46#8], by decide⟩

/-- The mounted disk holds its two files and not the mount point. -/
theorem smallMnt_not_found (n : List Byte) :
    (smallTree []).graph.find smallMnt n ≠ .node smallMnt := by
  intro hfind
  cases hres : (smallTree []).findNode smallMnt n with
  | none =>
    rw [DirTree.find_missing hres] at hfind
    cases hfind
  | some r =>
    by_cases hlink : r.flags &&& vfsSymlink = 0#32
    · rw [DirTree.find_node hres hlink] at hfind
      obtain rfl := Found.node.inj hfind
      have hmounted : (smallTree []).findNode smallMnt n =
          ((smallTree []).find 2 n).map fun i => (smallTree []).nodeFor i n := rfl
      rw [hmounted] at hres
      obtain ⟨i, hi, hnode⟩ := Option.map_eq_some_iff.mp hres
      have hinode : i = 1 := by
        have hget : ((smallTree []).nodeFor i n).inode = i := DirTree.nodeFor_inode
        rw [← hget, hnode]
      subst hinode
      have hfound : (if n = [97#8] then some 3 else if n = [98#8] then some 4 else none) = some 1 := by
        simpa [smallTree] using hi
      split at hfound
      · cases hfound
      · split at hfound <;> cases hfound
    · rw [DirTree.find_link hres hlink] at hfind
      cases hfind

/-- After `cd /mnt/.` the directory that `cd ..` leads to is `/mnt` itself, which has no name in itself. -/
theorem dot_stays : AtRoot (smallTree []) smallShell ∧
    ¬Steps (cdStep 8 (smallTree [])) (MovesUp 8 (smallTree [])) smallShell [mntDot, dotDot] := by
  refine ⟨atRoot_smallShell, ?_⟩
  rintro ⟨-, hup, -⟩
  obtain ⟨n, -, hfind⟩ := hup rfl (by rfl) (show (1 : ℕ) ≠ 0 by decide)
  have hnode : (cdStep 8 (smallTree []) (cdStep 8 (smallTree []) smallShell mntDot) dotDot).cwdNode.node =
      smallMnt := by rfl
  rw [hnode] at hfind
  exact smallMnt_not_found n hfind

end PekerOS.Ui
