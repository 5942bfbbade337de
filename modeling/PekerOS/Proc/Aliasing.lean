import PekerOS.Net.Input
import PekerOS.Proc.Descriptors

/-!
# Descriptors that share a node

A descriptor owns blocks on the heap: its node and, if that is the node of a socket, the buffer of the
slot. As long as no two descriptors own the same block, closing one frees its own blocks and leaves
those of the others. `sys_accept` stores the node that it was given a second time, and closing a node
of an ext2 disk frees nothing.

## Main definitions

* `Apart`: the descriptors hold allocated nodes, each its own
* `ClosesOwn`: a close frees the node of its descriptor once, and leaves the others usable
* `KeepsApart`: no call returns from `sys_accept` with a node, and none closes a node of an ext2 disk
* `Held`: the descriptors own their blocks

## Main results

* `held_step`: what such a call keeps
* `descriptors_apart`: the runs in which no node is shared
* `accepted_twice`: a server that accepts a connection and closes it
-/

namespace PekerOS.Fd

open Vfs (DirTree VfsState Handle FsKind)
open Net (NetState NetOp Keeps sockStream bareSegment)

variable {ι : Type} {t₀ : DirTree ι}

/-- The node of a descriptor is allocated, and the slot of a socket is in use. -/
def Entry.Usable (s : Files ι) : Entry ι → Prop
  | .file h => h.addr ∈ s.vfs.live
  | .socket addr k => addr ∈ s.vfs.live ∧ (s.net.sockets.get k).inUse = true

/-- The nodes of all descriptors are distinct and can be used. -/
structure Apart (s : Files ι) : Prop where
  usable : ∀ {pid fd e}, s.entry pid fd = some e → e.Usable s
  distinct : ∀ {pid fd e pid' fd' e'}, s.entry pid fd = some e → s.entry pid' fd' = some e' →
    e.addr = e'.addr → pid = pid' ∧ fd = fd'

/-- A call of `sys_close` frees the node of its descriptor once, frees nothing that is not allocated, and
leaves the other descriptors usable. -/
def ClosesOwn (d : ℕ) (s : Files ι) (c : Call t₀) : Prop :=
  ∀ pid fd e, c = .close pid fd → c.happens s → s.entry? pid fd = some e →
    (step d t₀ s c).vfs.badFrees = s.vfs.badFrees ∧ e.addr ∉ (step d t₀ s c).vfs.live ∧
    ∀ pid' fd' e', ¬(pid' = pid ∧ fd' = fd.toNat) → s.entry pid' fd' = some e' →
      (step d t₀ s c).entry pid' fd' = some e' ∧ e'.Usable (step d t₀ s c)

/-- No connection is accepted into a free descriptor, and no node of an ext2 disk is closed. -/
def KeepsApart (s : Files ι) (c : Call t₀) : Prop :=
  c.happens s → match c with
    | .accept pid fd => ∀ addr k, s.socket? pid fd = some (addr, k) → accepts s.net k →
        (s.fds pid).freeFd = none
    | .close pid fd => ∀ h, s.entry? pid fd = some (.file h) → t₀.kind h.node.inode = .pafs
    | _ => True

/-! ## Blocks -/

namespace Entry

variable (s : Files ι)

/-- The blocks that are freed when the descriptor is closed. -/
def blocks : Entry ι → List ℕ
  | .file h => [h.addr]
  | .socket addr k => addr :: (s.buffers.get k).toList

/-- A node as `vfs_get_node_by_path` or `socket_create` has made it. -/
def Made : Entry ι → Prop
  | .file h => h.node.impl = none
  | .socket addr k => (s.net.sockets.get k).inUse = true ∧ ∃ b, s.buffers.get k = some b ∧ b ≠ addr

variable {s}

theorem addr_mem_blocks (e : Entry ι) : e.addr ∈ e.blocks s := by
  cases e <;> exact List.mem_cons_self

end Entry

/-- Every block is owned by one descriptor at most, and by none if it is the root node. -/
structure Held (t₀ : DirTree ι) (s : Files ι) : Prop where
  rootAddr : t₀.rootAddr ∈ s.vfs.live
  made : ∀ {pid fd e}, s.entry pid fd = some e → e.Made s
  live : ∀ {pid fd e a}, s.entry pid fd = some e → a ∈ e.blocks s →
    a ∈ s.vfs.live ∧ a ≠ t₀.rootAddr
  owner : ∀ {pid fd e pid' fd' e' a}, s.entry pid fd = some e → s.entry pid' fd' = some e' →
    a ∈ e.blocks s → a ∈ e'.blocks s → pid = pid' ∧ fd = fd'

section Held

variable {s s' : Files ι} {pid fd : ℕ} {e : Entry ι}

theorem Held.usable (h : Held t₀ s) (he : s.entry pid fd = some e) : e.Usable s := by
  have hlive := (h.live he e.addr_mem_blocks).1
  cases e with
  | file _ => exact hlive
  | socket _ _ => exact ⟨hlive, (h.made he).1⟩

theorem Held.apart (h : Held t₀ s) : Apart s where
  usable := h.usable
  distinct he he' heq := h.owner he he' (Entry.addr_mem_blocks _) (heq ▸ Entry.addr_mem_blocks _)

theorem Boot.held (h : Boot t₀ s) : Held t₀ s := by
  refine ⟨h.rootAddr, fun he => ?_, fun he => ?_, fun he => ?_⟩
  all_goals
    rw [h.entry] at he
    cases he

/-- A step after which at most one descriptor is new: the others keep their blocks, and the blocks of the
new one were not allocated before. -/
theorem Held.of (h : Held t₀ s) (pid₀ fd₀ : ℕ) (hroot : t₀.rootAddr ∈ s'.vfs.live)
    (hold : ∀ {pid fd e}, ¬(pid = pid₀ ∧ fd = fd₀) → s'.entry pid fd = some e →
      s.entry pid fd = some e ∧ e.Made s' ∧ e.blocks s' = e.blocks s ∧
        ∀ a ∈ e.blocks s, a ∈ s'.vfs.live)
    (hnew : ∀ {e}, s'.entry pid₀ fd₀ = some e →
      e.Made s' ∧ ∀ a ∈ e.blocks s', a ∈ s'.vfs.live ∧ a ∉ s.vfs.live) : Held t₀ s' := by
  refine ⟨hroot, fun {pid fd e} he => ?_, fun {pid fd e a} he ha => ?_,
    fun {pid fd e pid' fd' e' a} he he' ha ha' => ?_⟩
  · by_cases hi : pid = pid₀ ∧ fd = fd₀
    · obtain ⟨rfl, rfl⟩ := hi
      exact (hnew he).1
    · exact (hold hi he).2.1
  · by_cases hi : pid = pid₀ ∧ fd = fd₀
    · obtain ⟨rfl, rfl⟩ := hi
      obtain ⟨hlive, hfresh⟩ := (hnew he).2 a ha
      exact ⟨hlive, fun heq => hfresh (heq ▸ h.rootAddr)⟩
    · obtain ⟨hs, -, hblocks, hlive⟩ := hold hi he
      rw [hblocks] at ha
      exact ⟨hlive a ha, (h.live hs ha).2⟩
  · -- a block of an old descriptor was allocated before, one of the new descriptor was not
    by_cases hi : pid = pid₀ ∧ fd = fd₀ <;> by_cases hj : pid' = pid₀ ∧ fd' = fd₀
    · exact ⟨hi.1.trans hj.1.symm, hi.2.trans hj.2.symm⟩
    · -- one of them is new
      obtain ⟨rfl, rfl⟩ := hi
      obtain ⟨hs, -, hblocks, -⟩ := hold hj he'
      rw [hblocks] at ha'
      exact absurd (h.live hs ha').1 ((hnew he).2 a ha).2
    · obtain ⟨rfl, rfl⟩ := hj
      obtain ⟨hs, -, hblocks, -⟩ := hold hi he
      rw [hblocks] at ha
      exact absurd (h.live hs ha).1 ((hnew he').2 a ha').2
    · -- both are old
      obtain ⟨hs, -, hblocks, -⟩ := hold hi he
      obtain ⟨hs', -, hblocks', -⟩ := hold hj he'
      rw [hblocks] at ha
      rw [hblocks'] at ha'
      exact h.owner hs hs' ha ha'

theorem blocks_congr (hbuffers : s'.buffers = s.buffers) (e : Entry ι) : e.blocks s' = e.blocks s := by
  cases e with
  | file _ => rfl
  | socket _ _ => rw [Entry.blocks, Entry.blocks, hbuffers]

theorem made_congr (hbuffers : s'.buffers = s.buffers)
    (huse : ∀ k, (s'.net.sockets.get k).inUse = (s.net.sockets.get k).inUse) (h : e.Made s) :
    e.Made s' := by
  cases e with
  | file _ => exact h
  | socket _ k =>
    rw [Entry.Made, hbuffers, huse k]
    exact h

/-- Descriptors may go without being closed. -/
theorem Held.of_entry (h : Held t₀ s) (hvfs : s'.vfs = s.vfs) (hbuffers : s'.buffers = s.buffers)
    (huse : ∀ k, (s'.net.sockets.get k).inUse = (s.net.sockets.get k).inUse)
    (hentry : ∀ {pid fd e}, s'.entry pid fd = some e → s.entry pid fd = some e) : Held t₀ s' := by
  refine h.of 0 16 (hvfs ▸ h.rootAddr) (fun _ he => ?_) fun he => absurd (lt_of_entry he) (lt_irrefl 16)
  have hs := hentry he
  exact ⟨hs, made_congr hbuffers huse (h.made hs), blocks_congr hbuffers _, fun a ha =>
    hvfs ▸ (h.live hs ha).1⟩

end Held

/-! ## One step -/

section Step

variable {s s' : Files ι} {d pid fd : ℕ} {e : Entry ι} {c : Call t₀}

/-- A descriptor is filled with a new node. -/
theorem Held.store (h : Held t₀ s) {i : ℕ} (hsets : Sets s s' pid i (some e))
    (hlive : s.vfs.live ⊆ s'.vfs.live) (hmade : e.Made s')
    (hnew : ∀ a ∈ e.blocks s', a ∈ s'.vfs.live ∧ a ∉ s.vfs.live)
    (hold : ∀ {pid fd e}, s.entry pid fd = some e → e.Made s' ∧ e.blocks s' = e.blocks s) :
    Held t₀ s' := by
  refine h.of pid i (hlive h.rootAddr) (fun hi he => ?_) fun he => ?_
  · have hs := (hsets.2 _ _ hi).symm.trans he
    obtain ⟨hmade', hblocks⟩ := hold hs
    exact ⟨hs, hmade', hblocks, fun a ha => hlive (h.live hs ha).1⟩
  · obtain rfl := Option.some.inj (hsets.1.symm.trans he)
    exact ⟨hmade, hnew⟩

theorem held_open (himpl : t₀.root.impl = none) {now created : DirTree ι} (hnow : Later t₀ now)
    (hcreated : Later t₀ created) {path : CString} {flags : Word} (h : Held t₀ s) :
    Held t₀ (sysOpen d t₀ s pid now created path flags).1 := by
  obtain ⟨st, hlive, net, hkeeps, hopen⟩ := sysOpen_spec hnow hcreated himpl path flags
  have hkept {s' : Files ι} (hbuffers : s'.buffers = s.buffers) (hnet : s'.net = net) {pid fd e}
      (he : s.entry pid fd = some e) : e.Made s' ∧ e.blocks s' = e.blocks s :=
    ⟨made_congr hbuffers (fun k => by rw [hnet]; exact hkeeps.inUse k) (h.made he),
      blocks_congr hbuffers e⟩
  -- nothing is stored
  have hsame {s' : Files ι} (hbuffers : s'.buffers = s.buffers) (hnet : s'.net = net)
      (hentry : ∀ pid fd, s'.entry pid fd = s.entry pid fd)
      (hvfs : s.vfs.live ⊆ s'.vfs.live) : Held t₀ s' := by
    refine h.of 0 16 (hvfs h.rootAddr) (fun {pid fd e} _ he => ?_)
      fun he => absurd (lt_of_entry he) (lt_irrefl 16)
    have hs : s.entry pid fd = some e := (hentry pid fd).symm.trans he
    obtain ⟨hmade, hblocks⟩ := hkept hbuffers hnet hs
    exact ⟨hs, hmade, hblocks, fun a ha => hvfs (h.live hs ha).1⟩
  rcases hopen with heq | ⟨node, hmem, hfresh, hnone, heq⟩
  · rw [heq]
    exact hsame rfl rfl (fun _ _ => rfl) hlive
  · rw [heq]
    rcases openNode_spec t₀ { s with vfs := st, net := net } pid node with
      ⟨-, hclose⟩ | ⟨i, off, hfree, hstore⟩
    · -- the table is full, and the new node is closed again
      rw [hclose]
      refine hsame rfl rfl (fun _ _ => rfl) fun a ha => ?_
      exact (DirTree.vfsClose_working hmem hnone).2.2 a (hlive ha) fun heq => hfresh (heq ▸ ha)
    · rw [hstore]
      have hnew : ∀ a ∈ [node.addr], a ∈ st.live ∧ a ∉ s.vfs.live := by
        intro a ha
        exact List.mem_singleton.mp ha ▸ ⟨hmem, hfresh⟩
      refine h.store (e := .file node) (sets_setFds (freeFd_some hfree).1) hlive hnone hnew fun he => ?_
      refine hkept ?_ ?_ he
      all_goals rfl

theorem held_socket {domain type protocol : Word} (h : Held t₀ s) :
    Held t₀ (sysSocket s pid domain type protocol).1 := by
  rw [sysSocket]
  cases hcreate : Net.socketCreate s.net domain type protocol with
  | none => exact h
  | some r =>
    obtain ⟨net, k⟩ := r
    obtain ⟨hfree, -, huse, hother⟩ := Net.socketCreate_inUse hcreate
    obtain ⟨hk, hunused⟩ := Net.freeSocket_some hfree
    set s₁ : Files ι :=
      { s with
        vfs := s.vfs.kmalloc.1.kmalloc.1
        net := net
        buffers := s.buffers.set k (some s.vfs.next) } with hs₁
    have hlive : s.vfs.live ⊆ s₁.vfs.live := fun a ha =>
      Finset.mem_insert_of_mem (Finset.mem_insert_of_mem ha)
    have hbuffer : s₁.buffers.get k = some s.vfs.next := Table.get_set_self _ hk _
    -- the slot was free, so it is that of no descriptor
    have hkept {s' : Files ι} (hbuffers : s'.buffers = s₁.buffers) (hnet : s'.net = net) {pid fd e}
        (he : s.entry pid fd = some e) : e.Made s' ∧ e.blocks s' = e.blocks s := by
      cases e with
      | file node => exact ⟨h.made he, rfl⟩
      | socket addr j =>
        have hmade := h.made he
        have hj : j ≠ k := by
          rintro rfl
          exact absurd (hunused.symm.trans hmade.1) Bool.false_ne_true
        have hget : s'.buffers.get j = s.buffers.get j := by
          rw [hbuffers]
          exact Table.get_set_ne _ hj _
        rw [Entry.Made, Entry.blocks, Entry.blocks, hget, hnet, hother j hj]
        exact ⟨hmade, rfl⟩
    change Held t₀ (storeSocket s₁ pid (s.vfs.next + 1) k).1
    rcases storeSocket_spec s₁ pid (s.vfs.next + 1) k with ⟨-, heq⟩ | ⟨i, off, hfd, heq⟩
    · -- the table is full
      rw [heq]
      refine h.of 0 16 (hlive h.rootAddr) (fun _ he => ?_)
        fun he => absurd (lt_of_entry he) (lt_irrefl 16)
      obtain ⟨hmade, hblocks⟩ := hkept rfl rfl he
      exact ⟨he, hmade, hblocks, fun a ha => hlive (h.live he ha).1⟩
    · rw [heq]
      refine h.store (e := .socket (s.vfs.next + 1) k) (sets_setFds (freeFd_some hfd).1) hlive
        ⟨huse, s.vfs.next, hbuffer, by omega⟩ (fun a ha => ?_) (hkept rfl rfl)
      have hold (a : ℕ) (ha : s.vfs.next ≤ a) : a ∉ s.vfs.live := fun hmem =>
        absurd (s.vfs.live_lt hmem) (not_lt.mpr ha)
      have ha' : a = s.vfs.next + 1 ∨ a = s.vfs.next := by
        simpa [Entry.blocks, hbuffer] using ha
      rcases ha' with rfl | rfl
      · exact ⟨Finset.mem_insert_self _ _, hold _ (Nat.le_succ _)⟩
      · exact ⟨Finset.mem_insert_of_mem (Finset.mem_insert_self _ _), hold _ le_rfl⟩

/-- Closing frees the blocks of the descriptor, unless it holds a node of an ext2 disk. -/
theorem vfsClose_spec (h : Held t₀ s) (he : s.entry pid fd = some e)
    (hpafs : ∀ node, e = .file node → t₀.kind node.node.inode = .pafs) :
    (vfsClose t₀ s e).vfs.badFrees = s.vfs.badFrees ∧
      ∀ a, a ∈ (vfsClose t₀ s e).vfs.live ↔ a ∈ s.vfs.live ∧ a ∉ e.blocks s := by
  have hlive {a : ℕ} (ha : a ∈ e.blocks s) := h.live he ha
  have hmade := h.made he
  cases e with
  | file node =>
    obtain ⟨hmem, hroot⟩ := hlive List.mem_cons_self
    obtain ⟨hfree, hbad⟩ := VfsState.kfree_of_mem hmem
    have hclose : (vfsClose t₀ s (.file node)).vfs = s.vfs.kfree node.addr :=
      DirTree.vfsClose_pafs (hpafs node rfl) hroot hmade
    rw [hclose, hfree, hbad]
    refine ⟨rfl, fun a => ?_⟩
    rw [Finset.mem_erase, Entry.blocks, List.mem_singleton, and_comm]
  | socket addr k =>
    obtain ⟨-, b, hb, hne⟩ := hmade
    have hbmem : b ∈ s.vfs.live := (hlive (by simp [Entry.blocks, hb])).1
    have hamem : addr ∈ s.vfs.live := (hlive List.mem_cons_self).1
    -- the buffer first, then the node
    obtain ⟨hbfree, hbbad⟩ := VfsState.kfree_of_mem hbmem
    have hamem' : addr ∈ (s.vfs.kfree b).live := by
      rw [hbfree]
      exact Finset.mem_erase.mpr ⟨hne.symm, hamem⟩
    obtain ⟨hafree, habad⟩ := VfsState.kfree_of_mem hamem'
    have hclose : (vfsClose t₀ s (.socket addr k)).vfs = (s.vfs.kfree b).kfree addr := by
      simp [vfsClose, hb]
    rw [hclose, hafree, habad, hbfree, hbbad]
    refine ⟨rfl, fun a => ?_⟩
    simp only [Finset.mem_erase, Entry.blocks, hb, Option.toList_some, List.mem_cons, List.not_mem_nil]
    tauto

theorem vfsClose_fds (s : Files ι) (e : Entry ι) :
    (vfsClose t₀ s e).fds = s.fds ∧ (vfsClose t₀ s e).buffers = s.buffers ∧
      (vfsClose t₀ s e).count = s.count := by
  cases e <;> exact ⟨rfl, rfl, rfl⟩

/-- The tables after `sys_close`. -/
theorem sysClose_sets {w : Word} (he : s.entry? pid w = some e) :
    Sets s (sysClose t₀ s pid w).1 pid w.toNat none := by
  have hfds : (vfsClose t₀ s e).fds = s.fds := (vfsClose_fds s e).1
  have hsets : Sets (vfsClose t₀ s e) (sysClose t₀ s pid w).1 pid w.toNat none := by
    rw [sysClose, he]
    dsimp only
    rw [← hfds]
    exact sets_setFds (lt_of_entry (entry_of_checked he))
  refine ⟨hsets.1, fun pid' fd' hne => (hsets.2 pid' fd' hne).trans ?_⟩
  rw [Files.entry, Files.entry, hfds]

theorem held_close {w : Word} (h : Held t₀ s) (he : s.entry? pid w = some e)
    (hpafs : ∀ node, e = .file node → t₀.kind node.node.inode = .pafs) :
    Held t₀ (sysClose t₀ s pid w).1 := by
  have hsets : Sets s (sysClose t₀ s pid w).1 pid w.toNat none := sysClose_sets he
  have hentry := entry_of_checked he
  obtain ⟨-, hlive⟩ := vfsClose_spec h hentry hpafs
  have hvfs : (sysClose t₀ s pid w).1.vfs = (vfsClose t₀ s e).vfs := by rw [sysClose, he]; rfl
  have hnet : (sysClose t₀ s pid w).1.net = (vfsClose t₀ s e).net := by rw [sysClose, he]; rfl
  have hbuffers : (sysClose t₀ s pid w).1.buffers = s.buffers := by
    rw [sysClose, he]
    exact (vfsClose_fds s e).2.1
  refine h.of pid w.toNat ?_ (fun {pid' fd' e'} hi he' => ?_) fun he' => ?_
  · rw [hvfs, hlive]
    exact ⟨h.rootAddr, fun ha => (h.live hentry ha).2 rfl⟩
  · have hs := (hsets.2 _ _ hi).symm.trans he'
    refine ⟨hs, ?_, blocks_congr hbuffers _, fun a ha => ?_⟩
    · have hmade := h.made hs
      cases e' with
      | file _ => exact hmade
      | socket addr j =>
        rw [Entry.Made, hbuffers, hnet]
        refine ⟨?_, hmade.2⟩
        cases e with
        | file _ => exact hmade.1
        | socket addr' k =>
          -- two sockets with one slot would share its buffer
          have hjk : j ≠ k := by
            rintro rfl
            obtain ⟨-, b, hb, -⟩ := hmade
            exact hi (h.owner hs hentry (a := b) (by simp [Entry.blocks, hb]) (by simp [Entry.blocks, hb]))
          have hother := (Net.socketClose_inUse s.net k).2.2 j hjk
          exact (congrArg Net.Socket.inUse hother).trans hmade.1
    · rw [hvfs, hlive]
      exact ⟨(h.live hs ha).1, fun ha' => hi (h.owner hs hentry ha ha')⟩
  · rw [hsets.1] at he'
    cases he'

theorem step_of_happens (h : c.happens s) : step d t₀ s c = exec d t₀ s c := if_pos h

theorem step_of_not_happens (h : ¬c.happens s) : step d t₀ s c = s := if_neg h

/-- `sys_accept` that returns a node stores the entry of its descriptor again. -/
theorem sysAccept_store {w : Word} {addr k : ℕ} (hsocket : s.socket? pid w = some (addr, k))
    (haccepts : accepts s.net k = true) : sysAccept s pid w = storeSocket s pid addr k := by
  rw [sysAccept, hsocket]
  dsimp only
  rw [if_pos haccepts]

theorem Held.same (h : Held t₀ s) (hsame : Same s s') : Held t₀ s' :=
  h.of_entry hsame.vfs hsame.buffers hsame.net.inUse fun he => (hsame.entry _ _).symm.trans he

/-- **One step.** What a call keeps that neither accepts a connection nor closes a node of an ext2
disk. -/
theorem held_step (himpl : t₀.root.impl = none) (h : Held t₀ s) (hc : KeepsApart s c) :
    Held t₀ (step d t₀ s c) := by
  by_cases hhappens : c.happens s
  · rw [step_of_happens hhappens]
    have hkeeps := hc hhappens
    cases c with
    | createTask =>
      refine h.of_entry rfl rfl (fun _ => rfl) fun {pid fd e} he => ?_
      by_cases hpid : pid = s.count
      · subst hpid
        have hnew : (newFds : Fds ι).fdTable.get fd = some e := setFds_entry_self.symm.trans he
        rw [newFds_get] at hnew
        cases hnew
      · exact (setFds_entry_ne hpid).symm.trans he
    | openPath pid now created hnow hcreated path flags => exact held_open himpl hnow hcreated h
    | socket pid domain type protocol => exact held_socket h
    | accept pid w =>
      rw [exec]
      cases hsocket : s.socket? pid w with
      | none =>
        rw [sysAccept, hsocket]
        exact h
      | some r =>
        obtain ⟨addr, k⟩ := r
        cases haccepts : accepts s.net k with
        | false =>
          refine h.same (sysAccept_same fun addr' k' hs => ?_)
          obtain ⟨-, rfl⟩ := Prod.mk.inj (Option.some.inj (hsocket.symm.trans hs))
          exact haccepts
        | true =>
          -- there is no descriptor to store it in
          have hfull := hkeeps addr k hsocket haccepts
          rw [sysAccept_store hsocket haccepts]
          rcases storeSocket_spec s pid addr k with ⟨-, heq⟩ | ⟨i, off, hfree, -⟩
          · rw [heq]
            exact h
          · rw [hfull] at hfree
            cases hfree
    | close pid w =>
      rw [exec]
      cases he : s.entry? pid w with
      | none =>
        rw [sysClose, he]
        exact h
      | some e => exact held_close h he fun node hnode => hkeeps node (hnode ▸ he)
    | exit pid =>
      rw [exec, taskExit]
      split
      · exact h
      · exact h.of_entry rfl rfl (fun _ => rfl) fun he => he
    | _ => exact h.same (exec_same d trivial)
  · rw [step_of_not_happens hhappens]
    exact h

theorem closesOwn_step (himpl : t₀.root.impl = none) (h : Held t₀ s) (hc : KeepsApart s c) :
    ClosesOwn d s c := by
  rintro pid w e rfl hhappens he
  have hpafs : ∀ node, e = .file node → t₀.kind node.node.inode = .pafs := fun node hnode =>
    hc hhappens node (hnode ▸ he)
  have hheld := held_step (d := d) himpl h hc
  rw [step_of_happens hhappens, exec] at hheld ⊢
  have hentry := entry_of_checked he
  obtain ⟨hbad, hlive⟩ := vfsClose_spec h hentry hpafs
  have hvfs : (sysClose t₀ s pid w).1.vfs = (vfsClose t₀ s e).vfs := by rw [sysClose, he]; rfl
  refine ⟨by rw [hvfs, hbad], ?_, fun pid' fd' e' hne he' => ?_⟩
  · rw [hvfs, hlive]
    exact fun ha => ha.2 e.addr_mem_blocks
  · have hsets : Sets s (sysClose t₀ s pid w).1 pid w.toNat none := sysClose_sets he
    have hstays := (hsets.2 pid' fd' hne).trans he'
    exact ⟨hstays, hheld.usable hstays⟩

/-- A step that accepts a connection, or closes a node of an ext2 disk. -/
theorem not_keepsApart (h : Held t₀ s) (hc : ¬KeepsApart s c) :
    ¬(Apart (step d t₀ s c) ∧ ClosesOwn d s c) := by
  rintro ⟨hapart, hcloses⟩
  have hhappens : c.happens s := by
    by_contra hnot
    exact hc fun hhappens => absurd hhappens hnot
  rw [step_of_happens hhappens] at hapart
  cases c with
  | accept pid w =>
    refine hc fun _ addr k hsocket haccepts => ?_
    cases hfree : (s.fds pid).freeFd with
    | none => rfl
    | some i =>
      -- the entry of the descriptor and its copy
      exfalso
      have hentry := entry_of_checked (entry_of_socket hsocket)
      obtain ⟨hi, hnone⟩ := freeFd_some hfree
      have hne : w.toNat ≠ i := by
        rintro rfl
        have hnone' : s.entry pid w.toNat = none := hnone
        rw [hentry] at hnone'
        cases hnone'
      rw [exec, sysAccept_store hsocket haccepts] at hapart
      rcases storeSocket_spec s pid addr k with ⟨hfull, -⟩ | ⟨i', off, hfree', heq⟩
      · rw [hfree] at hfull
        cases hfull
      · obtain rfl := Option.some.inj (hfree.symm.trans hfree')
        have hsets : Sets s (storeSocket s pid addr k).1 pid i (some (.socket addr k)) := by
          rw [heq]
          exact sets_setFds hi
        have hkept := (hsets.2 pid w.toNat fun hi => hne hi.2).trans hentry
        exact hne (hapart.distinct hkept hsets.1 rfl).2
  | close pid w =>
    refine hc fun _ node he => ?_
    by_contra hkind
    have hext2 : t₀.kind node.node.inode = .ext2 := by
      cases hk : t₀.kind node.node.inode with
      | pafs => exact absurd hk hkind
      | ext2 => rfl
    obtain ⟨-, hfreed, -⟩ := hcloses pid w _ rfl hhappens he
    refine hfreed ?_
    have hvfs : (step d t₀ s (.close pid w)).vfs = s.vfs := by
      rw [step_of_happens hhappens, exec, sysClose, he]
      exact DirTree.vfsClose_ext2 hext2
    rw [hvfs]
    exact (h.live (entry_of_checked he) (Entry.addr_mem_blocks _)).1
  | _ => exact hc fun _ => trivial

end Step

/-- **Descriptors.** From boot, all descriptors hold distinct nodes that can be used, and every close
frees one node once, exactly as long as no connection is accepted into a free descriptor and no node of
an ext2 disk is closed. -/
theorem descriptors_apart (d : ℕ) {s : Files ι} (h : Boot t₀ s) (cs : List (Call t₀)) :
    Along (step d t₀) Apart s cs ∧ Steps (step d t₀) (ClosesOwn d) s cs ↔
      Steps (step d t₀) KeepsApart s cs :=
  along_and_steps_iff_of_invariant Held.apart
    (fun hheld hc => ⟨held_step h.impl hheld hc, closesOwn_step h.impl hheld hc⟩) not_keepsApart h.held

/-! ## A server -/

/-- The state at boot, with the kernel's task. -/
def bootFiles : Files ℕ where
  vfs := Vfs.rootOnly
  net := .init 1#32 fun _ => Net.newPcb
  buffers := Table.ofFn fun _ => none
  fds _ := newFds
  count := 1

theorem boot_bootFiles : Boot (Vfs.smallTree []) bootFiles where
  rootAddr := by decide
  impl := rfl
  entry _ := newFds_get
  unused := Net.init_inUse _ _

/-- A task opens two sockets and closes the first. -/
theorem descriptors_apart_two :
    Along (step 8 (Vfs.smallTree [])) Apart bootFiles
      [.createTask, .socket 1 2#32 sockStream 0#32, .socket 1 2#32 sockStream 0#32, .close 1 0#32] ∧
    Steps (step 8 (Vfs.smallTree [])) (ClosesOwn 8) bootFiles
      [.createTask, .socket 1 2#32 sockStream 0#32, .socket 1 2#32 sockStream 0#32, .close 1 0#32] := by
  refine (descriptors_apart 8 boot_bootFiles _).mpr
    ⟨fun _ => trivial, fun _ => trivial, fun _ => trivial, fun _ h he => ?_, trivial⟩
  have hsocket := he.symm.trans (by rfl : _ = some (Entry.socket 2 0))
  cases hsocket

/-- A task opens a socket, listens on port 80, and accepts the connection of a peer. -/
def acceptOne : List (Call (Vfs.smallTree [])) :=
  [.createTask, .socket 1 2#32 sockStream 0#32, .bind 1 0#32 80#16 0#32, .listen 1 0#32 4096#32,
    .packet (bareSegment 7#32 Net.tcpSyn), .packet (bareSegment 7#32 Net.tcpAck), .accept 1 0#32]

/-- The accepted connection has the node of the listener, and closing one frees that of the other. -/
theorem accepted_twice : Boot (Vfs.smallTree []) bootFiles ∧
    ¬Along (step 8 (Vfs.smallTree [])) Apart bootFiles acceptOne ∧
    ¬Steps (step 8 (Vfs.smallTree [])) (ClosesOwn 8) bootFiles (acceptOne ++ [.close 1 0#32]) := by
  have hnode : (acceptOne.foldl (step 8 (Vfs.smallTree [])) bootFiles).entry 1 0 =
      some (.socket 2 0) := by rfl
  have hcopy : (acceptOne.foldl (step 8 (Vfs.smallTree [])) bootFiles).entry 1 1 =
      some (.socket 2 0) := by rfl
  refine ⟨boot_bootFiles, ?_, fun h => ?_⟩
  · rintro ⟨-, -, -, -, -, -, -, h⟩
    exact absurd (h.distinct hnode hcopy rfl).2 (by decide)
  · obtain ⟨-, hclose, -⟩ := (steps_append).mp h
    obtain ⟨-, -, hother⟩ := hclose 1 0#32 (.socket 2 0) rfl (by decide +kernel) (by rfl)
    obtain ⟨-, husable, -⟩ := hother 1 1 (.socket 2 0) (by decide) hcopy
    have hfreed : 2 ∉ (step 8 (Vfs.smallTree []) (acceptOne.foldl (step 8 (Vfs.smallTree [])) bootFiles)
        (.close 1 0#32)).vfs.live := by decide +kernel
    exact hfreed husable

end PekerOS.Fd
