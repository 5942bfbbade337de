import PekerOS.Fs.Vfs.Leaks

/-!
# VFS: callers that free the node

Some callers of `vfs_get_node_by_path` free the node that they get with `kfree`, not with `vfs_close`.
That frees a node of ext2 as well, and leaves the directory entry of a clone alone, so what counts is the
nodes that the walk has left on its way.

## Main definitions

* `DirTree.Clean`, `DirTree.CleanPath`: the nodes that are left are PAFS nodes without directory entries,
  and no link is met
* `Returned`: the call leaves the returned node on the heap and nothing else
* `Disturbed`: there is a block too many, or one too few

## Main results

* `DirTree.freed_iff`: the calls after which `kfree` of the node restores the heap
-/

namespace PekerOS.Vfs

variable {ι : Type} {t : DirTree ι}

theorem VfsState.kfree_live (st : VfsState) (a : ℕ) : (st.kfree a).live = st.live.erase a := by
  unfold kfree
  split
  · rfl
  · next h => exact (Finset.erase_eq_of_notMem h).symm

/-- The call leaves the returned node on the heap and nothing else. -/
structure Returned (st : VfsState) (r : Result ι) : Prop where
  null : r.2 = some none → r.1.live = st.live
  node : ∀ h, r.2 = some (some h) → h.addr ∉ st.live ∧ r.1.live = insert h.addr st.live

/-- There is a block too many, which is not that of the returned node, or one too few. -/
def Disturbed (st : VfsState) (r : Result ι) : Prop :=
  (∃ e ∉ st.live, e ∈ r.1.live ∧ ∀ h, r.2 = some (some h) → h.addr ≠ e) ∨ ∃ e ∈ st.live, e ∉ r.1.live

namespace DirTree

/-- The nodes in which names are looked up are PAFS nodes without directory entries, and no link is
found. -/
def Clean (t : DirTree ι) : Node ι → List (List Byte) → Prop
  | _, [] => True
  | node, name :: rest => t.kind node.inode = .pafs ∧ node.impl = none ∧
      ∀ res, t.findNode node name = some res → res.flags &&& vfsSymlink = 0#32 ∧ t.Clean res rest

/-- The same for the names of a path. -/
def CleanPath (t : DirTree ι) (base : Option (Node ι)) (path : CString) : Prop :=
  ∀ s, t.start base path = some s → t.Clean s (names path)

/-- The node is the only block allocated since `st₀`. -/
structure Walking (t : DirTree ι) (st₀ st : VfsState) (h : Handle ι) : Prop where
  new : h.addr ∉ st₀.live
  live : st.live = insert h.addr st₀.live
  not_root : h.addr ≠ t.rootAddr
  impl : ∀ d, h.node.impl = some d → d ∈ st₀.live

section Walk

variable {e : ℕ} {st st₀ : VfsState} {current h : Handle ι} {r : Result ι} {ws : List (List Byte)}
  {call : VfsState → Option (Node ι) → CString → Result ι}

theorem Walking.put (h : t.Walking st₀ st current) (s : List Byte) : t.Walking st₀ (st.put s) current :=
  ⟨h.new, h.live, h.not_root, h.impl⟩

theorem Walking.mem (h : t.Walking st₀ st current) : current.addr ∈ st.live :=
  h.live ▸ Finset.mem_insert_self _ _

theorem Walking.next_ne (h : t.Walking st₀ st current) : st.next ≠ current.addr := fun heq =>
  VfsState.next_notMem (heq ▸ h.mem)

/-- Closing the node restores the heap. -/
theorem Walking.close (h : t.Walking st₀ st current) (hkind : t.kind current.node.inode = .pafs)
    (himpl : current.node.impl = none) : (t.vfsClose st current).live = st₀.live := by
  rw [vfsClose_pafs hkind h.not_root himpl, VfsState.kfree_live, h.live, Finset.erase_insert h.new]

/-- A node that is found takes the place of the one it was found in. -/
theorem Walking.step (h : t.Walking st₀ st current) (hroot : t.rootAddr ∈ st₀.live)
    (hkind : t.kind current.node.inode = .pafs) (himpl : current.node.impl = none) {res : Node ι}
    (hres : res.impl = none) :
    t.Walking st₀ (t.vfsClose (st.newNode res).1 current) (st.newNode res).2 := by
  have hsub : ∀ {a}, a ∈ st₀.live → a ∈ st.live := fun ha => h.live ▸ Finset.mem_insert_of_mem ha
  refine ⟨fun hmem => VfsState.next_notMem (hsub hmem), ?_, fun heq => ?_, by simp [hres]⟩
  · rw [vfsClose_pafs hkind h.not_root himpl, VfsState.kfree_live, VfsState.newNode_live,
      Finset.erase_insert_of_ne h.next_ne, h.live, Finset.erase_insert h.new]
    rfl
  · have hnext : st.next = t.rootAddr := heq
    exact VfsState.next_notMem (hsub (hnext ▸ hroot))

/-- **A clean walk** leaves the node that it returns. -/
theorem walkPath_returned (hroot : t.rootAddr ∈ st₀.live) (hw : t.Walking st₀ st current)
    (hclean : t.Clean current.node (ws.filter fun w => ¬Skipped w)) :
    Returned st₀ (t.walkPath call st current ws) := by
  induction ws generalizing st current with
  | nil =>
    refine ⟨by rintro ⟨⟩, fun h hh => ?_⟩
    obtain rfl : current = h := by simpa [walkPath] using hh
    exact ⟨hw.new, hw.live⟩
  | cons w ws ih =>
    unfold walkPath
    by_cases hskip : Skipped w
    · rw [if_pos hskip]
      rw [List.filter_cons_of_neg (by simpa using hskip)] at hclean
      exact ih (hw.put w) hclean
    · rw [if_neg hskip]
      rw [List.filter_cons_of_pos (by simpa using hskip)] at hclean
      obtain ⟨hkind, himpl, hrest⟩ := hclean
      unfold vfsFinddir
      cases hfind : t.findNode current.node w with
      | none => exact ⟨fun _ => (hw.put w).close hkind himpl, by simp⟩
      | some res =>
        obtain ⟨hlink, hclean⟩ := hrest res hfind
        dsimp only
        rw [followLinks_of_not_link hlink]
        exact ih (((hw.put w).put res.name).step hroot hkind himpl (findNode_impl hfind)) hclean

/-! ## Walks that are not clean -/

/-- A block stays that is no directory entry of a node, and it is not that of the returned node. -/
theorem kept (hroot : t.root.impl ≠ some e) :
    t.CallInvariant (fun st => e ∈ st.live) (fun n => n.impl ≠ some e)
      (fun h => h.addr ≠ e ∧ h.node.impl ≠ some e) where
  put he := he
  node he himpl := ⟨Finset.mem_insert_of_mem he, fun heq => VfsState.next_notMem (heq.symm ▸ he), himpl⟩
  close he hne := mem_vfsClose he ⟨fun heq => absurd heq hne.1, hne.2⟩
  found hfind := by simp [findNode_impl hfind]
  root := hroot

theorem disturbed_of_kept
    (hends : r.Ends (fun st => e ∈ st.live) fun h => h.addr ≠ e ∧ h.node.impl ≠ some e)
    (he : e ∉ st.live) : Disturbed st r := .inl ⟨e, he, hends.state, fun h hh => (hends.handle h hh).1⟩

/-- A node that closing does not free stays. -/
theorem walk_disturbed_of_ext2 (himpl : ∀ d, t.root.impl = some d → d ∈ st₀.live) (hcall : t.Keeping call)
    (hw : t.Walking st₀ st current) (hkind : t.kind current.node.inode = .ext2) {res : Node ι}
    (hres : res.impl = none) :
    Disturbed st₀ ((t.followLinks call 8 (t.vfsClose (st.newNode res).1 current) (st.newNode res).2).andThen
      fun st current => t.walkPath call st current ws) := by
  have hinv := kept (t := t) (e := current.addr) fun heq => hw.new (himpl _ heq)
  rw [vfsClose_ext2 hkind]
  exact disturbed_of_kept (hinv.rest (hcall hinv) (Finset.mem_insert_of_mem hw.mem)
    ⟨hw.next_ne, by simp [hres]⟩) hw.new

/-- The node of a link stays. -/
theorem walk_disturbed_of_link (himpl : ∀ d, t.root.impl = some d → d ∈ st₀.live) (hcall : t.Keeping call)
    {next : Handle ι} (hnew : next.addr ∉ st₀.live) (hmem : next.addr ∈ st.live)
    (hkind : t.kind next.node.inode = .ext2) (hlink : next.node.flags &&& vfsSymlink ≠ 0#32) :
    Disturbed st₀ ((t.followLinks call 8 st next).andThen
      fun st current => t.walkPath call st current ws) := by
  have hroot : t.root.impl ≠ some next.addr := fun heq => hnew (himpl _ heq)
  have hinv := kept hroot
  have hnested := hcall hinv (st.put (t.linkText next.node.inode).chars)
    (t.start none (t.linkText next.node.inode)) (t.linkText next.node.inode) hmem
    fun b hb => start_none hb ▸ hroot
  rcases t.followLinks_cases call 7 st next with
    ⟨hnot, -⟩ | ⟨-, ⟨st', hres, heq⟩ | ⟨st', hres, heq⟩ | ⟨st', target, hres, heq⟩⟩
  · exact absurd hnot hlink
  all_goals
    rw [hres] at hnested
    rw [heq]
  · exact .inl ⟨_, hnew, hnested.state, nofun⟩
  · refine .inl ⟨_, hnew, ?_, nofun⟩
    rw [Result.andThen, vfsClose_ext2 hkind]
    exact hnested.state
  · rw [vfsClose_ext2 hkind]
    exact disturbed_of_kept (hinv.rest (hcall hinv) hnested.state (hnested.handle target rfl)) hnew

/-- **A walk that is not clean** leaves a block too many or one too few. -/
theorem walkPath_disturbed (hroot : t.rootAddr ∈ st₀.live)
    (himpl : ∀ d, t.root.impl = some d → d ∈ st₀.live)
    (hcall : t.Keeping call) (hw : t.Walking st₀ st current)
    (hnot : ¬t.Clean current.node (ws.filter fun w => ¬Skipped w)) :
    Disturbed st₀ (t.walkPath call st current ws) := by
  induction ws generalizing st current with
  | nil => exact absurd trivial hnot
  | cons w ws ih =>
    unfold walkPath
    by_cases hskip : Skipped w
    · rw [if_pos hskip]
      rw [List.filter_cons_of_neg (by simpa using hskip)] at hnot
      exact ih (hw.put w) hnot
    · rw [if_neg hskip]
      rw [List.filter_cons_of_pos (by simpa using hskip)] at hnot
      have hw' := hw.put w
      unfold vfsFinddir
      cases hkind : t.kind current.node.inode with
      | ext2 =>
        cases hfind : t.findNode current.node w with
        --  none|a node of an ext2 disk is never closed, so the walk leaves it behind
        | none =>
          refine .inl ⟨_, hw.new, ?_, by simp⟩
          dsimp only
          rw [vfsClose_ext2 hkind]
          exact hw'.mem
        | some res =>
          exact walk_disturbed_of_ext2 himpl hcall (hw'.put res.name) hkind (findNode_impl hfind)
      | pafs =>
        cases hdirent : current.node.impl with
        | some d =>
          -- closing the clone frees the directory entry
          have hd := hw.impl d hdirent
          have hmem : d ∈ st.live := hw.live ▸ Finset.mem_insert_of_mem hd
          have hlt := st.live_lt hmem
          refine .inr ⟨d, hd, ?_⟩
          cases hfind : t.findNode current.node w with
          | none => exact (gone_of_vfsClose hkind hw.not_root hdirent (show d < (st.put w).next from hlt)).1
          | some res =>
            have hclosed : Gone d (t.vfsClose (((st.put w).put res.name).newNode res).1 current) :=
              gone_of_vfsClose hkind hw.not_root hdirent (Nat.lt_succ_of_lt hlt)
            exact (gone_stays.rest (hcall gone_stays) hclosed trivial).state.1
        | none =>
          cases hfind : t.findNode current.node w with
          --  none|nothing is found, so the walk ends here and is clean
          | none => exact absurd ⟨hkind, hdirent, by simp [hfind]⟩ hnot
          | some res =>
            have hstep := (hw'.put res.name).step hroot hkind hdirent (findNode_impl hfind)
            by_cases hlink : res.flags &&& vfsSymlink = 0#32
            · dsimp only
              rw [followLinks_of_not_link hlink]
              refine ih hstep fun hclean => hnot ⟨hkind, hdirent, fun res' hres' => ?_⟩
              obtain rfl := Option.some.inj (hfind.symm.trans hres')
              exact ⟨hlink, hclean⟩
            · -- a link is on an ext2 disk, and following it leaves its node
              have hext2 : t.kind res.inode = .ext2 := by
                cases hreskind : t.kind res.inode with
                | ext2 => rfl
                | pafs => exact absurd (pafs_not_link hfind hreskind) hlink
              exact walk_disturbed_of_link himpl hcall hstep.new hstep.mem hext2 hlink

end Walk

/-! ## Calls -/

section Calls

variable {d : ℕ} {st : VfsState} {base : Option (Node ι)} {path : CString} {h : Handle ι}
  (hroot : t.rootAddr ∈ st.live)
  (himpl : ∀ n, n = t.root ∨ base = some n → ∀ e, n.impl = some e → e ∈ st.live)

include hroot himpl

theorem walking_start {s : Node ι} (hs : t.start base path = some s) :
    t.Walking st (st.newNode s).1 (st.newNode s).2 := by
  refine ⟨VfsState.next_notMem, rfl, fun heq => ?_, himpl s ?_⟩
  · have hnext : st.next = t.rootAddr := heq
    exact VfsState.next_notMem (hnext ▸ hroot)
  · unfold start at hs
    split at hs
    · exact .inl (Option.some.inj hs).symm
    · exact .inr hs

theorem returned_of_clean (hclean : t.CleanPath base path) :
    Returned st (t.vfsGetNodeByPath d st base path) := by
  obtain ⟨call, -, hbody⟩ := exists_keeping t d
  rw [hbody]
  cases hstart : t.start base path with
  | none =>
    rw [getNode_null hstart]
    exact ⟨fun _ => rfl, nofun⟩
  | some s =>
    obtain ⟨ws, hws, heq⟩ := getNode_walk hstart call st
    rw [heq]
    exact walkPath_returned hroot (walking_start hroot himpl hstart) (hws ▸ hclean s hstart)

theorem disturbed_of_not_clean (hnot : ¬t.CleanPath base path) :
    Disturbed st (t.vfsGetNodeByPath d st base path) := by
  obtain ⟨call, hcall, hbody⟩ := exists_keeping t d
  obtain ⟨s, hs⟩ := not_forall.mp hnot
  obtain ⟨hstart, hnot⟩ := Classical.not_imp.mp hs
  obtain ⟨ws, hws, heq⟩ := getNode_walk hstart call st
  rw [hbody, heq]
  exact walkPath_disturbed hroot (himpl t.root (.inl rfl)) hcall (walking_start hroot himpl hstart)
    (hws ▸ hnot)

/-- After a null pointer. -/
theorem null_iff (hnull : (t.vfsGetNodeByPath d st base path).2 = some none) :
    (t.vfsGetNodeByPath d st base path).1.live = st.live ↔ t.CleanPath base path := by
  refine ⟨fun hlive => by_contra fun hnot => ?_,
    fun hclean => (returned_of_clean hroot himpl hclean).null hnull⟩
  rcases disturbed_of_not_clean (d := d) hroot himpl hnot with ⟨e, he, hmem, -⟩ | ⟨e, he, hmem⟩
  · exact he (hlive ▸ hmem)
  · exact hmem (hlive ▸ he)

/-- **After a node that is freed with `kfree`.** -/
theorem freed_iff (hnode : (t.vfsGetNodeByPath d st base path).2 = some (some h)) :
    (t.vfsGetNodeByPath d st base path).1.live.erase h.addr = st.live ↔ t.CleanPath base path := by
  constructor
  · refine fun hlive => by_contra fun hnot => ?_
    rcases disturbed_of_not_clean (d := d) hroot himpl hnot with ⟨e, he, hmem, hne⟩ | ⟨e, he, hmem⟩
    · exact he (hlive ▸ Finset.mem_erase.mpr ⟨(hne h hnode).symm, hmem⟩)
    · exact hmem (Finset.mem_of_mem_erase (hlive ▸ he))
  · intro hclean
    obtain ⟨hnew, hlive⟩ := (returned_of_clean hroot himpl hclean).node h hnode
    rw [hlive, Finset.erase_insert hnew]

/-- A node that is not freed is a block too many. -/
theorem live_ne_of_node (hnode : (t.vfsGetNodeByPath d st base path).2 = some (some h)) :
    (t.vfsGetNodeByPath d st base path).1.live ≠ st.live := by
  intro hlive
  by_cases hclean : t.CleanPath base path
  · obtain ⟨hnew, hinsert⟩ := (returned_of_clean hroot himpl hclean).node h hnode
    exact hnew (hlive ▸ hinsert ▸ Finset.mem_insert_self _ _)
  · rcases disturbed_of_not_clean (d := d) hroot himpl hclean with ⟨e, he, hmem, -⟩ | ⟨e, he, hmem⟩
    · exact he (hlive ▸ hmem)
    · exact hmem (hlive ▸ he)

end Calls

end DirTree

end PekerOS.Vfs
