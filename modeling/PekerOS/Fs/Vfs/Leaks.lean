import PekerOS.Fs.Vfs.Mounts

/-!
# VFS: nodes left on the heap

A call of `vfs_get_node_by_path` allocates a node for the start and one for each name that it finds, and
closes every node but the one that it returns. `pafs_vfs_close` frees the node, with the directory
entry it has allocated; an ext2 node has no close function and stays. A clone of a node has the
node's directory entry, so closing the clone frees it.

## Main definitions

* `DirTree.Balanced`: the call leaves the returned node and nothing else, and closing it restores the heap
* `DirTree.PafsOnly`: no name is found on an ext2 disk

## Main results

* `DirTree.balanced_iff`: the calls that leak nothing
* `DirTree.vfsGetNodeByPath_opens`: the returned node is new, and what was there before stays
-/

namespace PekerOS.Vfs

variable {ι : Type} {t : DirTree ι}

/-! ## The heap -/

namespace VfsState

variable {st : VfsState} {a e : ℕ}

@[simp] theorem kmalloc_live : st.kmalloc.1.live = insert st.next st.live := rfl

@[simp] theorem kmalloc_badFrees : st.kmalloc.1.badFrees = st.badFrees := rfl

@[simp] theorem newNode_live (n : Node ι) : (st.newNode n).1.live = insert st.next st.live := rfl

@[simp] theorem newNode_next (n : Node ι) : (st.newNode n).1.next = st.next + 1 := rfl

@[simp] theorem newNode_badFrees (n : Node ι) : (st.newNode n).1.badFrees = st.badFrees := rfl

@[simp] theorem newNode_addr (n : Node ι) : (st.newNode n).2.addr = st.next := rfl

@[simp] theorem newNode_node (n : Node ι) : (st.newNode n).2.node = n := rfl

@[simp] theorem put_live (s : List Byte) : (st.put s).live = st.live := rfl

@[simp] theorem put_next (s : List Byte) : (st.put s).next = st.next := rfl

@[simp] theorem put_badFrees (s : List Byte) : (st.put s).badFrees = st.badFrees := rfl

theorem next_notMem : st.next ∉ st.live := fun h => lt_irrefl _ (st.live_lt h)

theorem kfree_of_mem (h : a ∈ st.live) :
    (st.kfree a).live = st.live.erase a ∧ (st.kfree a).badFrees = st.badFrees := by
  simp [kfree, h]

@[simp] theorem kfree_next : (st.kfree a).next = st.next := by
  unfold kfree
  split <;> rfl

theorem mem_kfree (he : e ∈ st.live) (hne : a ≠ e) : e ∈ (st.kfree a).live := by
  unfold kfree
  split
  · exact Finset.mem_erase.mpr ⟨hne.symm, he⟩
  · exact he

theorem kfree_live_subset : (st.kfree a).live ⊆ st.live := by
  unfold kfree
  split
  · exact Finset.erase_subset a st.live
  · exact Finset.Subset.refl _

theorem notMem_kfree (a : ℕ) : a ∉ (st.kfree a).live := by
  unfold kfree
  split
  · exact Finset.notMem_erase a st.live
  · next h => exact h

end VfsState

namespace DirTree

variable {e : ℕ} {st : VfsState} {h : Handle ι} {r : Result ι}
  {call : VfsState → Option (Node ι) → CString → Result ι}

theorem vfsClose_ext2 (hkind : t.kind h.node.inode = .ext2) : t.vfsClose st h = st := by
  simp [vfsClose, hkind]

theorem vfsClose_pafs (hkind : t.kind h.node.inode = .pafs) (hroot : h.addr ≠ t.rootAddr)
    (himpl : h.node.impl = none) : t.vfsClose st h = st.kfree h.addr := by
  simp [vfsClose, hkind, hroot, himpl]

/-! ## A block that stays -/

/-- Closing the node does not free the block: it is another one, or that of an ext2 node. -/
def Spares (t : DirTree ι) (e : ℕ) (h : Handle ι) : Prop :=
  (h.addr = e → t.kind h.node.inode = .ext2) ∧ h.node.impl ≠ some e

theorem mem_vfsClose (he : e ∈ st.live) (hspares : t.Spares e h) : e ∈ (t.vfsClose st h).live := by
  unfold vfsClose
  cases hkind : t.kind h.node.inode with
  | ext2 => exact he
  | pafs =>
    have hne : h.addr ≠ e := fun heq => by simpa [hkind] using hspares.1 heq
    dsimp only
    split
    · refine VfsState.mem_kfree ?_ hne
      cases himpl : h.node.impl with
      | none => exact he
      | some d => exact VfsState.mem_kfree he fun heq => hspares.2 (heq ▸ himpl)
    · exact he

theorem nodeFor_impl (i : ι) (name : List Byte) : (t.nodeFor i name).impl = none := by
  unfold nodeFor
  dsimp only
  split
  · split <;> rfl
  · rfl

theorem findNode_impl {node r : Node ι} {name : List Byte} (h : t.findNode node name = some r) :
    r.impl = none := by
  obtain ⟨d, i, -, rfl⟩ := exists_of_findNode h
  exact nodeFor_impl i name

/-- A block stays that is no directory entry of a node that is cloned. -/
theorem stays (hroot : t.root.impl ≠ some e) :
    t.CallInvariant (fun st => e ∈ st.live) (fun n => n.impl ≠ some e) (t.Spares e) where
  put he := he
  node {st n} he himpl :=
    ⟨Finset.mem_insert_of_mem he, fun heq => absurd (heq ▸ he) VfsState.next_notMem, himpl⟩
  close := mem_vfsClose
  found hfind := by simp [findNode_impl hfind]
  root := hroot

/-! ## A block that is gone -/

/-- The block is not allocated, and has been. -/
def Gone (e : ℕ) (st : VfsState) : Prop := e ∉ st.live ∧ e < st.next

theorem gone_kfree {a : ℕ} (h : Gone e st) : Gone e (st.kfree a) :=
  ⟨fun hmem => h.1 (VfsState.kfree_live_subset hmem), by rw [VfsState.kfree_next]; exact h.2⟩

theorem gone_vfsClose (hgone : Gone e st) : Gone e (t.vfsClose st h) := by
  unfold vfsClose
  cases t.kind h.node.inode with
  | ext2 => exact hgone
  | pafs =>
    dsimp only
    split
    · refine gone_kfree ?_
      cases h.node.impl with
      | none => exact hgone
      | some d => exact gone_kfree hgone
    · exact hgone

/-- A block that is gone does not come back: a new block has a new number. -/
theorem gone_stays : t.CallInvariant (Gone e) (fun _ => True) (fun _ => True) where
  put hgone := hgone
  node {st n} hgone _ := by
    refine ⟨⟨fun hmem => ?_, Nat.lt_succ_of_lt hgone.2⟩, trivial⟩
    rcases Finset.mem_insert.mp hmem with rfl | hmem
    · exact lt_irrefl _ hgone.2
    · exact hgone.1 hmem
  close hgone _ := gone_vfsClose hgone
  found _ := trivial
  root := trivial

/-! ## Balance -/

/-- The call leaves the returned node on the heap and nothing else, frees nothing that is not allocated,
and closing the returned node restores the heap. -/
structure Balanced (t : DirTree ι) (st : VfsState) (r : Result ι) : Prop where
  frees : r.1.badFrees = st.badFrees
  null : r.2 = some none → r.1.live = st.live
  node : ∀ h, r.2 = some (some h) → h.addr ∉ st.live ∧ r.1.live = insert h.addr st.live
  close : ∀ h, r.2 = some (some h) → (t.vfsClose r.1 h).live = st.live ∧
    (t.vfsClose r.1 h).badFrees = st.badFrees

/-- A block too many that closing the returned node does not free. -/
theorem not_balanced_of_stays (hends : r.Ends (fun st => e ∈ st.live) (t.Spares e)) (he : e ∉ st.live)
    (hret : r.2 ≠ none) : ¬t.Balanced st r := by
  intro hbal
  rcases hnode : r.2 with _ | _ | h
  · exact hret hnode
  · exact he (hbal.null hnode ▸ hends.state)
  · exact he ((hbal.close h hnode).1 ▸ mem_vfsClose hends.state (hends.handle h hnode))

/-- A block of before that is gone. -/
theorem not_balanced_of_gone (hgone : Gone e r.1) (he : e ∈ st.live) (hret : r.2 ≠ none) :
    ¬t.Balanced st r := by
  intro hbal
  rcases hnode : r.2 with _ | _ | h
  · exact hret hnode
  · exact hgone.1 (hbal.null hnode ▸ he)
  · exact (gone_vfsClose (t := t) (h := h) hgone).1 ((hbal.close h hnode).1 ▸ he)

/-- The names, looked up one after the other, are found on PAFS as far as they are found. -/
def PafsOnly (t : DirTree ι) : Node ι → List (List Byte) → Prop
  | _, [] => True
  | node, name :: rest =>
    ∀ res, t.findNode node name = some res → t.kind res.inode = .pafs ∧ t.PafsOnly res rest

/-- The node is the only block allocated since `st₀`, and closing it frees it. -/
structure Owned (t : DirTree ι) (st₀ st : VfsState) (h : Handle ι) : Prop where
  new : h.addr ∉ st₀.live
  live : st.live = insert h.addr st₀.live
  badFrees : st.badFrees = st₀.badFrees
  not_root : h.addr ≠ t.rootAddr
  kind : t.kind h.node.inode = .pafs
  impl : h.node.impl = none

section Walk

variable {st₀ : VfsState} {current : Handle ι}

theorem Owned.close (h : t.Owned st₀ st current) :
    (t.vfsClose st current).live = st₀.live ∧ (t.vfsClose st current).badFrees = st₀.badFrees := by
  have hmem : current.addr ∈ st.live := h.live ▸ Finset.mem_insert_self _ _
  obtain ⟨hlive, hbad⟩ := VfsState.kfree_of_mem hmem
  rw [vfsClose_pafs h.kind h.not_root h.impl, hlive, hbad, h.live, h.badFrees]
  exact ⟨Finset.erase_insert h.new, rfl⟩

theorem Owned.put (h : t.Owned st₀ st current) (s : List Byte) : t.Owned st₀ (st.put s) current :=
  ⟨h.new, h.live, h.badFrees, h.not_root, h.kind, h.impl⟩

/-- A node of PAFS takes the place of the one it was found in. -/
theorem Owned.step (h : t.Owned st₀ st current) (hroot : t.rootAddr ∈ st₀.live) {res : Node ι}
    (hkind : t.kind res.inode = .pafs) (himpl : res.impl = none) :
    t.Owned st₀ (t.vfsClose (st.newNode res).1 current) (st.newNode res).2 := by
  have hsub : ∀ {a}, a ∈ st₀.live → a ∈ st.live := fun ha => h.live ▸ Finset.mem_insert_of_mem ha
  have hcur : current.addr ∈ st.live := h.live ▸ Finset.mem_insert_self _ _
  have hne : st.next ≠ current.addr := fun heq => VfsState.next_notMem (heq ▸ hcur)
  have hmem : current.addr ∈ (st.newNode res).1.live := Finset.mem_insert_of_mem hcur
  obtain ⟨hlive, hbad⟩ := VfsState.kfree_of_mem hmem
  refine ⟨fun hmem => VfsState.next_notMem (hsub hmem), ?_, ?_, ?_, hkind, himpl⟩
  · rw [vfsClose_pafs h.kind h.not_root h.impl, hlive, VfsState.newNode_live, VfsState.newNode_addr,
      Finset.erase_insert_of_ne hne, h.live, Finset.erase_insert h.new]
  · rw [vfsClose_pafs h.kind h.not_root h.impl, hbad, VfsState.newNode_badFrees, h.badFrees]
  · intro heq
    have hnext : st.next = t.rootAddr := heq
    exact VfsState.next_notMem (hsub (hnext ▸ hroot))

theorem pafs_not_link {node res : Node ι} {name : List Byte} (h : t.findNode node name = some res)
    (hkind : t.kind res.inode = .pafs) : res.flags &&& vfsSymlink = 0#32 := by
  obtain ⟨d, i, -, rfl⟩ := exists_of_findNode h
  rw [nodeFor_symlink]
  rw [nodeFor_inode] at hkind
  rcases t.flags_pafs hkind with h | h <;> rw [h] <;> decide

/-- The nested call keeps what the steps of a call keep. -/
def Keeping (t : DirTree ι) (call : VfsState → Option (Node ι) → CString → Result ι) : Prop :=
  ∀ {P R Q}, t.CallInvariant P R Q → ∀ st base path, P st → (∀ b, base = some b → R b) →
    (call st base path).Ends P Q

/-- A call is the body with a nested call that keeps what the steps of a call keep. -/
theorem exists_keeping (t : DirTree ι) (d : ℕ) :
    ∃ call, t.Keeping call ∧ t.vfsGetNodeByPath d = t.getNode call := by
  cases d with
  | zero => exact ⟨_, fun _ _ _ _ hst _ => Result.ends_none hst, rfl⟩
  | succ d => exact ⟨_, fun hinv _ _ _ hst hbase => hinv.vfsGetNodeByPath d hst hbase, rfl⟩

/-- A node of ext2 that is found stays allocated: closing it does nothing. -/
theorem not_balanced_of_ext2 (himpl : ∀ d, t.root.impl = some d → d ∈ st₀.live)
    (hcall : t.Keeping call) (ho : t.Owned st₀ st current) {res : Node ι} (hres : res.impl = none)
    (hkind : t.kind res.inode = .ext2) {ws : List (List Byte)}
    (hret : ((t.followLinks call 8 (t.vfsClose (st.newNode res).1 current) (st.newNode res).2).andThen
      fun st current => t.walkPath call st current ws).2 ≠ none) :
    ¬t.Balanced st₀ ((t.followLinks call 8 (t.vfsClose (st.newNode res).1 current)
      (st.newNode res).2).andThen fun st current => t.walkPath call st current ws) := by
  have hsub : ∀ {a}, a ∈ st₀.live → a ∈ st.live := fun ha => ho.live ▸ Finset.mem_insert_of_mem ha
  have hnew : st.next ∉ st₀.live := fun hmem => VfsState.next_notMem (hsub hmem)
  have hne : t.root.impl ≠ some st.next := fun heq => hnew (himpl _ heq)
  have hcurrent : t.Spares st.next current := by
    refine ⟨fun heq => absurd ?_ (@VfsState.next_notMem st), by simp [ho.impl]⟩
    rw [← heq, ho.live]
    exact Finset.mem_insert_self _ _
  have hclosed : st.next ∈ (t.vfsClose (st.newNode res).1 current).live :=
    mem_vfsClose (Finset.mem_insert_self _ _) hcurrent
  exact not_balanced_of_stays
    ((stays hne).rest (hcall (stays hne)) hclosed ⟨fun _ => hkind, by simp [hres]⟩) hnew hret

/-- From a node of PAFS without a directory entry. -/
theorem walkPath_balanced_iff (hroot : t.rootAddr ∈ st₀.live)
    (himpl : ∀ d, t.root.impl = some d → d ∈ st₀.live) (hcall : t.Keeping call) {ws : List (List Byte)}
    (ho : t.Owned st₀ st current) (hret : (t.walkPath call st current ws).2 ≠ none) :
    t.Balanced st₀ (t.walkPath call st current ws) ↔
      t.PafsOnly current.node (ws.filter fun w => ¬Skipped w) := by
  induction ws generalizing st current with
  | nil =>
    refine iff_of_true ⟨ho.badFrees, by simp [walkPath], fun h hh => ?_, fun h hh => ?_⟩ trivial
    · obtain rfl : current = h := by simpa [walkPath] using hh
      exact ⟨ho.new, ho.live⟩
    · obtain rfl : current = h := by simpa [walkPath] using hh
      exact ho.close
  | cons w ws ih =>
    unfold walkPath at hret ⊢
    -- an empty component allocates nothing
    by_cases hskip : Skipped w
    · simp only [if_pos hskip] at hret ⊢
      rw [ih (ho.put w) hret]
      simp [hskip]
    · simp only [if_neg hskip] at hret ⊢
      rw [List.filter_cons_of_pos (by simpa using hskip)]
      have ho' := ho.put w
      unfold vfsFinddir at hret ⊢
      cases hfind : t.findNode current.node w with
      | none =>
        -- the node the walk stood at is closed before it returns null
        refine iff_of_true ⟨ho'.close.2, fun _ => ho'.close.1, by simp, by simp⟩ ?_
        intro res hres
        simp [hfind] at hres
      | some res =>
        simp only [hfind] at hret ⊢
        have hpafs : t.PafsOnly current.node (w :: ws.filter fun w => ¬Skipped w) ↔
            t.kind res.inode = .pafs ∧ t.PafsOnly res (ws.filter fun w => ¬Skipped w) := by
          refine ⟨fun h => h res hfind, fun h res' hres' => ?_⟩
          obtain rfl := Option.some.inj (hfind.symm.trans hres')
          exact h
        rw [hpafs]
        cases hkind : t.kind res.inode with
        | pafs =>
          -- a node of PAFS owns what `close` frees
          rw [followLinks_of_not_link (pafs_not_link hfind hkind)] at hret ⊢
          have hstep := (ho'.put res.name).step hroot hkind (findNode_impl hfind)
          exact (ih hstep hret).trans (by simp)
        | ext2 =>
          -- a node of ext2 has no `close`, and stays allocated
          have hleak := not_balanced_of_ext2 himpl hcall (ho'.put res.name) (findNode_impl hfind)
            hkind hret
          exact iff_of_false hleak (by simp)

/-- Closing a clone frees the directory entry of the node it is a clone of. -/
theorem gone_of_vfsClose (hkind : t.kind h.node.inode = .pafs) (hroot : h.addr ≠ t.rootAddr) {d : ℕ}
    (himpl : h.node.impl = some d) (hd : d < st.next) : Gone d (t.vfsClose st h) := by
  have hclose : t.vfsClose st h = (st.kfree d).kfree h.addr := by
    simp [vfsClose, hkind, hroot, himpl]
  rw [hclose]
  exact gone_kfree ⟨VfsState.notMem_kfree d, by rwa [VfsState.kfree_next]⟩

/-- From a clone of a node that has a directory entry. -/
theorem not_balanced_of_impl (hcall : t.Keeping call) (hkind : t.kind current.node.inode = .pafs)
    (hroot : current.addr ≠ t.rootAddr) {d : ℕ} (himpl : current.node.impl = some d)
    (hd : d ∈ st₀.live) (hnext : d < st.next) {ws : List (List Byte)}
    (hret : (t.walkPath call st current ws).2 ≠ none) :
    ¬t.Balanced st₀ (t.walkPath call st current ws) := by
  induction ws generalizing st with
  | nil =>
    intro hbal
    have hgone : Gone d (t.vfsClose st current) := gone_of_vfsClose hkind hroot himpl hnext
    exact hgone.1 ((hbal.close current rfl).1 ▸ hd)
  | cons w ws ih =>
    unfold walkPath at hret ⊢
    by_cases hskip : Skipped w
    · simp only [if_pos hskip] at hret ⊢
      exact ih hnext hret
    · simp only [if_neg hskip] at hret ⊢
      refine not_balanced_of_gone (e := d) ?_ hd hret
      unfold vfsFinddir
      cases t.findNode current.node w with
      | none => exact gone_of_vfsClose hkind hroot himpl (show d < (st.put w).next from hnext)
      | some res =>
        have hclosed : Gone d (t.vfsClose (((st.put w).put res.name).newNode res).1 current) :=
          gone_of_vfsClose hkind hroot himpl (Nat.lt_succ_of_lt hnext)
        exact (gone_stays.rest (hcall gone_stays) hclosed trivial).state

end Walk

/-- **Balance.** A call that returns leaks nothing and frees nothing twice exactly if it has no node to
start from, or starts from a PAFS node that has no directory entry and finds names on PAFS only. -/
theorem balanced_iff (d : ℕ) {base : Option (Node ι)} {path : CString}
    (hroot : t.rootAddr ∈ st.live)
    (himpl : ∀ n, n = t.root ∨ base = some n → ∀ e, n.impl = some e → e ∈ st.live)
    (hret : (t.vfsGetNodeByPath d st base path).2 ≠ none) :
    t.Balanced st (t.vfsGetNodeByPath d st base path) ↔ ∀ s, t.start base path = some s →
      t.kind s.inode = .pafs ∧ s.impl = none ∧ t.PafsOnly s (names path) := by
  obtain ⟨call, hcall, hbody⟩ := exists_keeping t d
  rw [hbody] at hret ⊢
  cases hstart : t.start base path with
  | none =>
    rw [getNode_null hstart]
    exact iff_of_true ⟨rfl, fun _ => rfl, by simp, by simp⟩ (by simp)
  | some s =>
    have hs : s = t.root ∨ base = some s := by
      unfold start at hstart
      split at hstart
      · exact .inl (Option.some.inj hstart).symm
      · exact .inr hstart
    have hsimpl := himpl s hs
    obtain ⟨ws, hws, heq⟩ := getNode_walk hstart call st
    rw [heq] at hret ⊢
    simp only [Option.some.injEq, forall_eq']
    have hnotroot : (st.newNode s).2.addr ≠ t.rootAddr := by
      intro heq
      have hnext : st.next = t.rootAddr := heq
      exact VfsState.next_notMem (hnext ▸ hroot)
    cases hkind : t.kind s.inode with
    | ext2 =>
      -- the clone itself stays
      have hne : ∀ n, n = t.root ∨ base = some n → n.impl ≠ some st.next := fun n hn h =>
        VfsState.next_notMem (himpl n hn _ h)
      have hstays := stays (hne t.root (.inl rfl))
      have hnew : st.next ∈ (st.newNode s).1.live := Finset.mem_insert_self _ _
      have hspares : t.Spares st.next (st.newNode s).2 := ⟨fun _ => hkind, hne s hs⟩
      have hends : (t.walkPath call (st.newNode s).1 (st.newNode s).2 ws).Ends
          (fun st' => st.next ∈ st'.live) (t.Spares st.next) :=
        hstays.walkPath (hcall hstays) hnew hspares
      exact iff_of_false (not_balanced_of_stays hends VfsState.next_notMem hret) (by simp)
    | pafs =>
      cases hdirent : s.impl with
      | some e =>
        have he := hsimpl e hdirent
        refine iff_of_false ?_ (by simp)
        exact not_balanced_of_impl hcall hkind hnotroot hdirent he
          (Nat.lt_succ_of_lt (st.live_lt he)) hret
      | none =>
        have howned : t.Owned st (st.newNode s).1 (st.newNode s).2 :=
          ⟨VfsState.next_notMem, rfl, rfl, hnotroot, hkind, hdirent⟩
        rw [walkPath_balanced_iff hroot (himpl t.root (.inl rfl)) hcall howned hret, hws]
        simp

/-! ## What a call leaves

Whatever a call finds on the way, it frees only what it has allocated. -/

/-- What was on the heap stays, nothing is freed twice, and the returned node is a new block without a
directory entry. -/
structure Opens (st : VfsState) (r : Result ι) : Prop where
  live : st.live ⊆ r.1.live
  next : st.next ≤ r.1.next
  frees : r.1.badFrees = st.badFrees
  node : ∀ h, r.2 = some (some h) → h.addr ∈ r.1.live ∧ st.next ≤ h.addr ∧ h.node.impl = none

section Opens

variable {st₀ : VfsState} {current next : Handle ι}

/-- A node that a call works on: a block that was not there before the call. -/
structure Working (st₀ st : VfsState) (h : Handle ι) : Prop where
  live : st₀.live ⊆ st.live
  next : st₀.next ≤ st.next
  frees : st.badFrees = st₀.badFrees
  mem : h.addr ∈ st.live
  new : st₀.next ≤ h.addr
  impl : h.node.impl = none

theorem Working.opens (h : Working st₀ st current) : Opens st₀ (st, some (some current)) := by
  refine ⟨h.live, h.next, h.frees, fun h' hh => ?_⟩
  obtain rfl := Option.some.inj (Option.some.inj hh)
  exact ⟨h.mem, h.new, h.impl⟩

theorem Working.put (h : Working st₀ st current) (s : List Byte) : Working st₀ (st.put s) current :=
  ⟨h.live, h.next, h.frees, h.mem, h.new, h.impl⟩

/-- Closing a node frees its block, or nothing. -/
theorem vfsClose_working (hmem : h.addr ∈ st.live) (himpl : h.node.impl = none) :
    (t.vfsClose st h).badFrees = st.badFrees ∧ (t.vfsClose st h).next = st.next ∧
      ∀ a ∈ st.live, a ≠ h.addr → a ∈ (t.vfsClose st h).live := by
  cases hkind : t.kind h.node.inode with
  | ext2 =>
    rw [vfsClose_ext2 hkind]
    exact ⟨rfl, rfl, fun a ha _ => ha⟩
  | pafs =>
    by_cases hroot : h.addr = t.rootAddr
    · have hnone : t.vfsClose st h = st := by simp [vfsClose, hkind, hroot]
      rw [hnone]
      exact ⟨rfl, rfl, fun a ha _ => ha⟩
    · rw [vfsClose_pafs hkind hroot himpl]
      exact ⟨(VfsState.kfree_of_mem hmem).2, VfsState.kfree_next, fun a ha hne =>
        VfsState.mem_kfree ha hne.symm⟩

theorem Working.notMem (h : Working st₀ st current) {a : ℕ} (ha : a ∈ st₀.live) : a ≠ current.addr :=
  ((st₀.live_lt ha).trans_le h.new).ne

/-- Closing the node that a call leaves, when it goes on with another. -/
theorem Working.close (h : Working st₀ st current) (hnext : Working st₀ st next)
    (hne : next.addr ≠ current.addr) : Working st₀ (t.vfsClose st current) next := by
  obtain ⟨hfrees, hn, hmem⟩ := vfsClose_working (t := t) h.mem h.impl
  exact ⟨fun a ha => hmem a (h.live ha) (h.notMem ha), hn ▸ h.next, hfrees.trans h.frees,
    hmem _ hnext.mem hne, hnext.new, hnext.impl⟩

/-- Closing the node and returning null. -/
theorem Working.null (h : Working st₀ st current) :
    Opens (ι := ι) st₀ (t.vfsClose st current, some none) := by
  obtain ⟨hfrees, hn, hmem⟩ := vfsClose_working (t := t) h.mem h.impl
  exact ⟨fun a ha => hmem a (h.live ha) (h.notMem ha), hn ▸ h.next, hfrees.trans h.frees, by simp⟩

/-- A new node beside the one that the call works on. -/
theorem Working.newNode (h : Working st₀ st current) {n : Node ι} (hn : n.impl = none) :
    Working st₀ (st.newNode n).1 current ∧ Working st₀ (st.newNode n).1 (st.newNode n).2 := by
  have hlive : st₀.live ⊆ (st.newNode n).1.live := fun a ha => Finset.mem_insert_of_mem (h.live ha)
  have hnext : st₀.next ≤ (st.newNode n).1.next := h.next.trans (Nat.le_succ _)
  exact ⟨⟨hlive, hnext, h.frees, Finset.mem_insert_of_mem h.mem, h.new, h.impl⟩,
    ⟨hlive, hnext, h.frees, Finset.mem_insert_self _ _, h.next, hn⟩⟩

/-- A nested call, after which both nodes are there. -/
theorem Working.nested (h : Working st₀ st current) {r : Result ι} (hr : Opens st r) :
    Working st₀ r.1 current ∧
      ∀ target, r.2 = some (some target) → Working st₀ r.1 target ∧ target.addr ≠ current.addr := by
  have hlive := h.live.trans hr.live
  have hnext := h.next.trans hr.next
  have hfrees := hr.frees.trans h.frees
  refine ⟨⟨hlive, hnext, hfrees, hr.live h.mem, h.new, h.impl⟩, fun target htarget => ?_⟩
  obtain ⟨hmem, hnew, himpl⟩ := hr.node target htarget
  exact ⟨⟨hlive, hnext, hfrees, hmem, h.next.trans hnew, himpl⟩,
    ((st.live_lt h.mem).trans_le hnew).ne'⟩

section Call

variable (hcall : ∀ st base path, (∀ b, base = some b → b.impl = none) →
  Opens st (call st base path)) (hroot : t.root.impl = none)

include hcall hroot

theorem followLinks_opens {k : ℕ} (h : Working st₀ st next) :
    Opens st₀ (t.followLinks call k st next) := by
  induction k generalizing st next with
  | zero => exact h.opens
  | succ k ih =>
    have hnested := hcall (st.put (t.linkText next.node.inode).chars)
      (t.start none (t.linkText next.node.inode)) (t.linkText next.node.inode) fun b hb =>
        start_none hb ▸ hroot
    rcases t.followLinks_cases call k st next with
      ⟨-, heq⟩ | ⟨-, ⟨st', hres, heq⟩ | ⟨st', hres, heq⟩ | ⟨st', target, hres, heq⟩⟩
    · rw [heq]
      exact h.opens
    all_goals
      rw [hres] at hnested
      obtain ⟨hnext, htarget⟩ := (h.put _).nested hnested
      rw [heq]
    · exact ⟨hnext.live, hnext.next, hnext.frees, by simp⟩
    · exact hnext.null
    · obtain ⟨hworks, hne⟩ := htarget target rfl
      exact ih (hnext.close hworks hne)

theorem walkPath_opens {ws : List (List Byte)} (h : Working st₀ st current) :
    Opens st₀ (t.walkPath call st current ws) := by
  induction ws generalizing st current with
  | nil => exact h.opens
  | cons w ws ih =>
    unfold walkPath
    split
    · exact ih (h.put w)
    · unfold vfsFinddir
      cases hfind : t.findNode current.node w with
      | none => exact (h.put w).null
      | some res =>
        obtain ⟨hcurrent, hres⟩ := ((h.put w).put res.name).newNode (findNode_impl hfind)
        have hne : ((st.put w).put res.name).next ≠ current.addr := fun heq =>
          VfsState.next_notMem (heq ▸ ((h.put w).put res.name).mem)
        have hlinks := followLinks_opens hcall hroot (k := 8) (hcurrent.close (t := t) hres hne)
        dsimp only
        rcases hfollow : t.followLinks call 8 _ _ with ⟨st', _ | _ | target⟩
        all_goals rw [hfollow] at hlinks
        · exact hlinks
        · exact hlinks
        · obtain ⟨hmem, hnew, himpl⟩ := hlinks.node target rfl
          exact ih ⟨hlinks.live, hlinks.next, hlinks.frees, hmem, hnew, himpl⟩

theorem getNode_opens {base : Option (Node ι)} {path : CString}
    (hbase : ∀ b, base = some b → b.impl = none) : Opens st (t.getNode call st base path) := by
  cases hstart : t.start base path with
  | none =>
    rw [getNode_null hstart]
    exact ⟨Finset.Subset.refl _, le_rfl, rfl, by simp⟩
  | some s =>
    have hs : s.impl = none := by
      unfold start at hstart
      split at hstart
      · exact Option.some.inj hstart ▸ hroot
      · exact hbase s hstart
    obtain ⟨ws, -, heq⟩ := getNode_walk hstart call st
    rw [heq]
    exact walkPath_opens hcall hroot ⟨Finset.subset_insert _ _, Nat.le_succ _, rfl,
      Finset.mem_insert_self _ _, le_rfl, hs⟩

end Call

/-- **Openings.** A call keeps what was on the heap and returns a node of its own. -/
theorem vfsGetNodeByPath_opens (d : ℕ) {base : Option (Node ι)} {path : CString}
    (hroot : t.root.impl = none) (hbase : ∀ b, base = some b → b.impl = none) :
    Opens st (t.vfsGetNodeByPath d st base path) := by
  induction d generalizing st base path with
  | zero =>
    refine getNode_opens (fun st _ _ _ => ?_) hroot hbase
    exact ⟨Finset.Subset.refl _, le_rfl, rfl, by simp⟩
  | succ d ih => exact getNode_opens (fun _ _ _ hbase => ih hbase) hroot hbase

end Opens

end DirTree

/-- `"/mnt/b/x"` -/
abbrev behindFile : CString := ⟨mntPath ++ [slash, 98#8, slash, 120#8], by decide⟩

/-- A heap with the root node alone. -/
def rootOnly : VfsState := ⟨1, {0}, 0, [], by simp⟩

/-- Looking for a name in a file of the mounted disk fails and leaves the node of the file. -/
theorem ext2_node_stays :
    ((smallTree []).vfsGetNodeByPath 0 rootOnly none behindFile).node = some none ∧
    ((smallTree []).vfsGetNodeByPath 0 rootOnly none behindFile).1.live ≠ rootOnly.live := by
  refine ⟨?_, by decide⟩
  rw [DirTree.vfsGetNodeByPath_node]
  rfl

/-- `/mnt` itself is found on PAFS. -/
theorem balanced_mnt : (smallTree []).Balanced rootOnly
      ((smallTree []).vfsGetNodeByPath 0 rootOnly none ⟨mntPath, by decide⟩) ↔
    ∀ s, (smallTree []).start none ⟨mntPath, by decide⟩ = some s →
      (smallTree []).kind s.inode = .pafs ∧ s.impl = none ∧
        (smallTree []).PafsOnly s (names ⟨mntPath, by decide⟩) := by
  refine DirTree.balanced_iff 0 (by decide) ?_ ?_
  · rintro n (rfl | hn) e he
    · simp [smallTree, smallNode] at he
    · simp at hn
  · rw [← Option.isSome_iff_ne_none]
    rfl

end PekerOS.Vfs
