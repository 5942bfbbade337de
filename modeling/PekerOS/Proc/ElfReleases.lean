import PekerOS.Fs.Vfs.Frees
import PekerOS.Proc.ElfImage

/-!
# What the program loader releases

`elf_load` has four ways out. It frees the node that it has looked up with `kfree`, and the buffer, except
that it keeps the node if the file does not begin with the magic number. What the lookup has left on the
heap stays there. Three of the ways return -1, and they have mapped nothing. Only the last way maps pages; it
returns `e_entry`, and the caller takes an `e_entry` of -1 for a failure as well.

## Main definitions

* `Block`: what `kmalloc` gives for the file
* `Fails`: the call ends at one of the three `return -1`
* `Released`: the heap is as before, and no page has changed if the call fails
* `Releasable`: the condition for it

## Main results

* `elfLoad_cases`: the four ways out
* `live_iff`: the heap after a call
* `samePages_of_fails`, `InOrder.load`: the pages after a call
* `elf_released_iff`: **the loader releases everything** exactly under the condition
-/

namespace PekerOS.Elf

open Mm Vfs

variable {ι : Type}

/-! ## The buffer -/

/-- What `kmalloc` gives: a block of the heap, whose length is a multiple of 4, or a null pointer. -/
def Block (pd : ℕ) (s : Machine) (buffer : Word) (length : ℕ) : Prop :=
  buffer = 0#32 ∧ length ≤ kernelBase.toNat ∨ KernelBuffer pd s buffer ((length + 3) / 4 * 4)

/-- The first bytes in the buffer: those of the file, and what was there before behind a shorter file. -/
def MagicAt (s : Machine) (buffer : Word) (file : List Byte) : Prop :=
  ∀ i < 4, (file[i]?).or (s.readByte (buffer + BitVec.ofNat 32 i)) = elfMagic[i]?

section Buffer

variable {pd n length : ℕ} {s s₁ : Machine} {buffer v : Word} {file : List Byte}

theorem Block.plain (h : Block pd s buffer length) (hs : Sound pd s) {i : ℕ}
    (hi : i < (length + 3) / 4 * 4) {g : ℕ}
    (hg : translate s.cr3 s.mem (buffer + BitVec.ofNat 32 i) = some g) : ¬TableFrame pd s.mem g := by
  rcases h with ⟨rfl, hle⟩ | hbuf
  · have hbase : kernelBase.toNat = 3221225472 := rfl
    exact hs.plain_user (user_of_range (n := (length + 3) / 4 * 4) (by rw [BitVec.toNat_zero]; omega) hi) hg
  · obtain ⟨g', hg', -, hnot, -⟩ := hbuf.owned i hi
    obtain rfl := Option.some.inj (hg.symm.trans hg')
    exact hnot

theorem Block.separate (h : Block pd s buffer length) (hs : Sound pd s) {i j : ℕ}
    (hi : i < (length + 3) / 4 * 4)
    (hj : j < i) : ¬SameByte s (buffer + BitVec.ofNat 32 i) (buffer + BitVec.ofNat 32 j) := by
  rcases h with ⟨rfl, hle⟩ | hbuf
  · have hbase : kernelBase.toNat = 3221225472 := rfl
    have hend : (0#32).toNat + (length + 3) / 4 * 4 ≤ kernelBase.toNat := by
      rw [BitVec.toNat_zero]
      omega
    intro hsame
    have heq := congrArg BitVec.toNat
      (hs.eq_of_sameByte (user_of_range hend hi) (user_of_range hend (hj.trans hi)) hsame)
    rw [toNat_add_ofNat (n := (length + 3) / 4 * 4) (by omega) hi,
      toNat_add_ofNat (n := (length + 3) / 4 * 4) (by omega) (hj.trans hi)] at heq
    omega
  · exact hbuf.separate i hi j hj

/-- The file has been stored. -/
theorem Block.stored (h : Block pd s buffer length) (hs : Sound pd s) (hlen : file.length ≤ length)
    (hstore : storeBytes s buffer file = some s₁) :
    Written pd s s₁ (addresses buffer file.length) ∧
      ∀ i < file.length, s₁.readByte (buffer + BitVec.ofNat 32 i) = some (file.getD i 0#8) := by
  obtain ⟨-, hplain⟩ := fill_written hs (fun i hi g hg => h.plain hs (by omega) hg) hstore
  obtain ⟨s', hrun, hwritten, hread⟩ :=
    fill_runs (k := fun _ i => file[i]?) (f := fun i => file.getD i 0#8) hs hplain
    (fun i hi j hj => h.separate hs (by omega) hj) fun i hi _ _ => by
      rw [List.getD_eq_getElem?_getD, List.getElem?_eq_getElem hi, Option.getD_some]
  obtain rfl := Option.some.inj (hstore.symm.trans hrun)
  exact ⟨hwritten, hread⟩

theorem hasMagic_iff {cs : List Byte} :
    hasMagic s v cs = some true ↔ ∀ i (hi : i < cs.length),
      s.readByte (v + BitVec.ofNat 32 i) = some cs[i] := by
  refine ⟨fun h => ?_, hasMagic_eq⟩
  induction cs generalizing v with
  | nil => exact fun i hi => absurd hi (Nat.not_lt_zero i)
  | cons c cs ih =>
    rw [hasMagic] at h
    obtain ⟨b, hb, hrest⟩ := Option.bind_eq_some_iff.mp h
    by_cases hbc : b = c
    · rw [if_neg (not_not_intro hbc)] at hrest
      intro i hi
      cases i with
      | zero => rw [show v + BitVec.ofNat 32 0 = v from BitVec.add_zero v, hb, hbc, List.getElem_cons_zero]
      | succ i =>
        have hbyte := ih hrest i (Nat.lt_of_succ_lt_succ hi)
        rwa [BitVec.add_assoc, BitVec.add_comm 1#32, ← BitVec.ofNat_add] at hbyte
    · rw [if_pos hbc] at hrest
      cases hrest

/-- What `elf_load` compares with the magic number. -/
theorem Block.magic_iff (h : Block pd s buffer length) (hs : Sound pd s) (hlen : file.length ≤ length)
    (hpos : 0 < length) (hstore : storeBytes s buffer file = some s₁) :
    hasMagic s₁ buffer elfMagic = some true ↔ MagicAt s buffer file := by
  obtain ⟨hwritten, hread⟩ := h.stored hs hlen hstore
  have hbyte (i : ℕ) (hi : i < 4) : s₁.readByte (buffer + BitVec.ofNat 32 i) =
      (file[i]?).or (s.readByte (buffer + BitVec.ofNat 32 i)) := by
    by_cases hin : i < file.length
    · rw [hread i hin, List.getD_eq_getElem?_getD, List.getElem?_eq_getElem hin, Option.getD_some,
        Option.some_or]
    · rw [List.getElem?_eq_none (Nat.le_of_not_lt hin), Option.none_or]
      refine hwritten.other _ ?_
      rintro u ⟨j, hj, rfl⟩ ⟨f, hf, hf', hoff⟩
      exact h.separate hs (i := i) (j := j) (by omega) (by omega) ⟨f, hf', hf, hoff.symm⟩
  rw [hasMagic_iff]
  constructor
  · intro hmagic i hi
    rw [← hbyte i hi, hmagic i hi, List.getElem?_eq_getElem (show i < elfMagic.length from hi)]
  · intro hmagic i hi
    rw [hbyte i hi, hmagic i hi, List.getElem?_eq_getElem hi]

end Buffer

/-! ## The ways out -/

/-- `vfs_read` of the file gives something. -/
def Readable (t : DirTree ι) (node : Node ι) : Prop :=
  ¬(BitVec.ofNat 32 (fileBytes t node).length).toInt ≤ 0

/-- The call ends at one of the three `return -1`: nothing is found, nothing is read, or what has been read
does not begin with the magic number. -/
def Fails (t : DirTree ι) (d : ℕ) (buffer : Word) (st : VfsState) (s : Machine) (base : Option (Node ι))
    (path : CString) : Prop :=
  (t.vfsGetNodeByPath d st base path).2 = some none ∨
    ∃ h, (t.vfsGetNodeByPath d st base path).2 = some (some h) ∧
      (¬Readable t h.node ∨ ∃ s₁, storeBytes s buffer (fileBytes t h.node) = some s₁ ∧
        hasMagic s₁ buffer elfMagic = some false)

/-- The four ways out of `elf_load`. -/
inductive Exit (t : DirTree ι) (buffer : Word) (s : Machine) (r : Result ι) (st' : VfsState) (s' : Machine)
    (ret : Word) : Prop
  | missing (hnull : r.2 = some none) (hlive : st'.live = r.1.live) (hsame : s' = s) (hret : ret = -1#32)
  | unreadable (h : Handle ι) (hnode : r.2 = some (some h)) (hnot : ¬Readable t h.node)
      (hlive : st'.live = r.1.live.erase h.addr)
      (hstore : ∃ p, (h.node.length ≠ 0#32 → p = buffer) ∧ storeBytes s p (fileBytes t h.node) = some s')
      (hret : ret = -1#32)
  | invalid (h : Handle ι) (hnode : r.2 = some (some h)) (hread : Readable t h.node)
      (hlive : st'.live = r.1.live)
      (hstore : storeBytes s buffer (fileBytes t h.node) = some s')
      (hmagic : hasMagic s' buffer elfMagic = some false) (hret : ret = -1#32)
  | loaded (h : Handle ι) (hnode : r.2 = some (some h)) (hread : Readable t h.node)
      (hlive : st'.live = r.1.live.erase h.addr) (s₁ : Machine)
      (hstore : storeBytes s buffer (fileBytes t h.node) = some s₁)
      (hmagic : hasMagic s₁ buffer elfMagic = some true) (hload : loadImage s₁ buffer = some (s', ret))

section Exits

variable {t : DirTree ι} {d pd : ℕ} {st st' : VfsState} {base : Option (Node ι)} {path : CString}
  {s s' : Machine} {buffer ret : Word} {node : Node ι}

theorem fileBytes_length_le (t : DirTree ι) (node : Node ι) :
    (fileBytes t node).length ≤ node.length.toNat := by
  rw [fileBytes]
  split
  · split
    · exact Nat.zero_le _
    · exact List.length_take_le _ _
  · exact List.length_take_le _ _

/-- A file that is read is not empty. -/
theorem Readable.pos (h : Readable t node) : 0 < (fileBytes t node).length := by
  refine Nat.pos_of_ne_zero fun hzero => h ?_
  rw [hzero]
  decide

theorem Readable.length_ne (h : Readable t node) : node.length ≠ 0#32 := by
  intro heq
  have hpos := h.pos.trans_le (fileBytes_length_le t node)
  rw [heq] at hpos
  exact lt_irrefl 0 hpos

/-- The block of the buffer is freed again. -/
theorem kfreeBuffer_live (st : VfsState) (length buffer : Word) :
    (kfreeBuffer (kmallocBuffer st length buffer).1 (kmallocBuffer st length buffer).2).live = st.live := by
  rw [kmallocBuffer]
  split
  · rfl
  · change (st.kmalloc.1.kfree st.next).live = st.live
    rw [VfsState.kfree_live, VfsState.kmalloc_live, Finset.erase_insert VfsState.next_notMem]

/-- The node is freed before the buffer. -/
theorem kfreeBuffer_kfree_live (st : VfsState) (length buffer : Word) (a : ℕ) :
    (kfreeBuffer ((kmallocBuffer st length buffer).1.kfree a) (kmallocBuffer st length buffer).2).live =
      st.live.erase a := by
  rw [← kfreeBuffer_live st length buffer]
  cases hblock : (kmallocBuffer st length buffer).2 with
  | none => exact VfsState.kfree_live _ a
  | some b =>
    rw [kfreeBuffer, kfreeBuffer, VfsState.kfree_live, VfsState.kfree_live, VfsState.kfree_live,
      Finset.erase_right_comm]

theorem elfLoad_cases (hret : elfLoad t d buffer st s base path = some (st', s', ret)) :
    Exit t buffer s (t.vfsGetNodeByPath d st base path) st' s' ret := by
  rw [elfLoad] at hret
  split at hret
  · cases hret
  · next st₁ hlookup =>
    cases hret
    rw [hlookup]
    exact .missing rfl rfl rfl rfl
  · next st₁ h hlookup =>
    rw [hlookup]
    have hfreed := kfreeBuffer_live st₁ h.node.length buffer
    have hfreed' := kfreeBuffer_kfree_live st₁ h.node.length buffer h.addr
    rcases kmallocBuffer st₁ h.node.length buffer with ⟨st₂, block⟩
    dsimp only at hret hfreed hfreed'
    obtain ⟨s₁, hstore, hret⟩ := Option.bind_eq_some_iff.mp hret
    by_cases hread : Readable t h.node
    · rw [if_neg hread.length_ne] at hstore hret
      rw [if_neg hread] at hret
      obtain ⟨magic, hmagic, hret⟩ := Option.bind_eq_some_iff.mp hret
      cases magic with
      | false =>
        cases hret
        exact .invalid h rfl hread hfreed hstore hmagic rfl
      | true =>
        obtain ⟨⟨s₂, entry⟩, hload, hret⟩ := Option.bind_eq_some_iff.mp hret
        cases hret
        refine .loaded h rfl hread ?_ s₁ hstore hmagic hload
        rw [VfsState.kfree_live, hfreed]
    · rw [if_pos (not_not.mp hread)] at hret
      cases hret
      exact .unreadable h rfl hread hfreed' ⟨_, fun hne => if_neg hne, hstore⟩ rfl

/-- The comparison with the magic number, for a file that has been read. -/
theorem magic_iff {h : Handle ι} {s₁ : Machine} (hs : Sound pd s)
    (hbuf : Block pd s buffer h.node.length.toNat)
    (hread : Readable t h.node) (hstore : storeBytes s buffer (fileBytes t h.node) = some s₁) :
    hasMagic s₁ buffer elfMagic = some true ↔ MagicAt s buffer (fileBytes t h.node) :=
  hbuf.magic_iff hs (fileBytes_length_le t h.node)
    (hread.pos.trans_le (fileBytes_length_le t h.node)) hstore

/-- **The heap after a call** is as before if the walk was clean, and the file begins with the magic
number if it has been read. -/
theorem live_iff (hs : Sound pd s)
    (hbuf : ∀ h, (t.vfsGetNodeByPath d st base path).2 = some (some h) →
      Block pd s buffer h.node.length.toNat)
    (hroot : t.rootAddr ∈ st.live)
    (himpl : ∀ n, n = t.root ∨ base = some n → ∀ e, n.impl = some e → e ∈ st.live)
    (hret : elfLoad t d buffer st s base path = some (st', s', ret)) :
    st'.live = st.live ↔ t.CleanPath base path ∧
      ∀ h, (t.vfsGetNodeByPath d st base path).2 = some (some h) → Readable t h.node →
        MagicAt s buffer (fileBytes t h.node) := by
  cases elfLoad_cases hret with
  | missing hnull hlive =>
    rw [hlive, DirTree.null_iff hroot himpl hnull]
    refine ⟨fun hclean => ⟨hclean, fun h hh => ?_⟩, And.left⟩
    rw [hnull] at hh
    cases hh
  | unreadable h hnode hnot hlive =>
    rw [hlive, DirTree.freed_iff hroot himpl hnode]
    refine ⟨fun hclean => ⟨hclean, fun h' hh' hread => ?_⟩, And.left⟩
    obtain rfl := Option.some.inj (Option.some.inj (hnode.symm.trans hh'))
    exact absurd hread hnot
  | invalid h hnode hread hlive hstore hfalse =>
    rw [hlive]
    -- without the magic number the node stays
    refine iff_of_false (DirTree.live_ne_of_node hroot himpl hnode) fun hcond => ?_
    have htrue := (magic_iff hs (hbuf h hnode) hread hstore).mpr (hcond.2 h hnode hread)
    rw [hfalse] at htrue
    cases htrue
  | loaded h hnode hread hlive s₁ hstore htrue =>
    rw [hlive, DirTree.freed_iff hroot himpl hnode]
    refine ⟨fun hclean => ⟨hclean, fun h' hh' _ => ?_⟩, And.left⟩
    obtain rfl := Option.some.inj (Option.some.inj (hnode.symm.trans hh'))
    exact (magic_iff hs (hbuf h hnode) hread hstore).mp htrue

end Exits

/-! ## Pages -/

/-- No page is mapped otherwise. -/
def SamePages (s s' : Machine) : Prop := ∀ v, translate s'.cr3 s'.mem v = translate s.cr3 s.mem v

/-- The headers are inside the file, their segments are below the higher half, there are frames for the
pages, and the buffer is in memory of the kernel. -/
structure InOrder (pd : ℕ) (s : Machine) (buffer : Word) (file : List Byte) : Prop where
  header : 52 ≤ file.length
  headers : phoff file + 32 * phnum file ≤ file.length
  ok : ∀ seg ∈ segments file, seg.Ok
  frames : needed pd s ((segments file).flatMap Segment.pages) ≤ freeFrames s.pmm
  owned : ∀ i < file.length, KernelOwned pd s (buffer + BitVec.ofNat 32 i)

section Pages

variable {t : DirTree ι} {d pd : ℕ} {st st' : VfsState} {base : Option (Node ι)} {path : CString}
  {s s₁ s' : Machine} {buffer ret v : Word} {node : Node ι} {segs : List Segment} {file : List Byte}

/-- The pages that are mapped for the segments get frames that were free, and no other page changes. -/
theorem run_translate (h : Orderly pd s segs) (hrun : segs.foldlM (loadSegment buffer) s = some s')
    (v : Word) :
    ((∃ seg ∈ segs, seg.Maps (frameOf v)) → ∃ f, Returnable s.pmm f ∧ translate s'.cr3 s'.mem v = some f) ∧
      ((∀ seg ∈ segs, ¬seg.Maps (frameOf v)) → translate s'.cr3 s'.mem v = translate s.cr3 s.mem v) := by
  induction segs generalizing s with
  | nil =>
    obtain rfl := Option.some.inj hrun
    exact ⟨fun ⟨seg, hseg, _⟩ => absurd hseg List.not_mem_nil, fun _ => rfl⟩
  | cons seg segs ih =>
    rw [List.foldlM_cons] at hrun
    obtain ⟨s₁, hfirst, hrest⟩ := Option.bind_eq_some_iff.mp hrun
    obtain ⟨⟨s₂, hplaced⟩, hnext⟩ := h.step hfirst
    obtain ⟨hmapped, hother⟩ := ih hnext hrest
    refine ⟨fun hpage => ?_, fun hpage => ?_⟩
    · by_cases hlater : ∃ x ∈ segs, x.Maps (frameOf v)
      · obtain ⟨f, hf, htr⟩ := hmapped hlater
        exact ⟨f, hplaced.mapped.returnable f (hplaced.written.pmm ▸ hf), htr⟩
      · obtain ⟨x, hx, hmaps⟩ := hpage
        obtain rfl : x = seg := (List.mem_cons.mp hx).resolve_right fun hx => hlater ⟨x, hx, hmaps⟩
        obtain ⟨f, hf, htr⟩ := hplaced.mapped.page v hmaps
        have hsame := hother fun y hy hy' => hlater ⟨y, hy, hy'⟩
        exact ⟨f, hf, hsame.trans ((hplaced.written.translate v).trans htr)⟩
    · rw [hother fun x hx => hpage x (List.mem_cons_of_mem seg hx), hplaced.written.translate]
      exact hplaced.mapped.other v fun w hw heq => hpage seg List.mem_cons_self ⟨w, hw, heq⟩

/-- The segments change a page if there is one to map. -/
theorem samePages_iff (h : Orderly pd s segs) (hrun : segs.foldlM (loadSegment buffer) s = some s') :
    SamePages s s' ↔ ∀ seg ∈ segs, seg.pages = [] := by
  constructor
  · refine fun hsame seg hseg => List.eq_nil_iff_forall_not_mem.mpr fun v hv => ?_
    obtain ⟨f, hf, htr⟩ := (run_translate h hrun v).1 ⟨seg, hseg, v, hv, rfl⟩
    obtain ⟨hheld, -⟩ := h.sound.user v f ((h.ok seg hseg).pages_user v hv) ((hsame v).symm.trans htr)
    exact returnable_ne hf hheld rfl
  · refine fun hnil v => (run_translate h hrun v).2 fun seg hseg ⟨w, hw, _⟩ => ?_
    rw [hnil seg hseg] at hw
    exact absurd hw List.not_mem_nil

/-- The last way out, for headers in order. -/
theorem InOrder.load (h : InOrder pd s buffer file)
    (hwritten : Written pd s s₁ (addresses buffer file.length))
    (hread : ∀ i < file.length, s₁.readByte (buffer + BitVec.ofNat 32 i) = some (file.getD i 0#8))
    (hload : loadImage s₁ buffer = some (s', ret)) :
    ret = entry file ∧ (SamePages s s' ↔ ∀ seg ∈ segments file, seg.pages = []) := by
  have hord : Orderly pd s₁ (segments file) :=
    ⟨hwritten.sound, h.ok, by rw [hwritten.needed, hwritten.pmm]; exact h.frames⟩
  have hbuffer : Buffer pd s₁ buffer file := fun i hi => ⟨hwritten.kernelOwned (h.owned i hi), hread i hi⟩
  rw [loadImage_eq hbuffer h.header h.headers hord] at hload
  obtain ⟨s₂, hrun, heq⟩ := Option.map_eq_some_iff.mp hload
  obtain ⟨rfl, rfl⟩ := Prod.mk.inj heq
  refine ⟨rfl, ?_⟩
  rw [← samePages_iff hord hrun]
  exact ⟨fun hsame v => (hsame v).trans (hwritten.translate v).symm,
    fun hsame v => (hsame v).trans (hwritten.translate v)⟩

/-- The first three ways out change no page. -/
theorem samePages_of_fails (hs : Sound pd s)
    (hbuf : ∀ h, (t.vfsGetNodeByPath d st base path).2 = some (some h) →
      Block pd s buffer h.node.length.toNat)
    (hret : elfLoad t d buffer st s base path = some (st', s', ret))
    (hfails : Fails t d buffer st s base path) : ret = -1#32 ∧ SamePages s s' := by
  have hstored (h : Handle ι) (hnode : (t.vfsGetNodeByPath d st base path).2 = some (some h)) {s₁ : Machine}
      (hstore : storeBytes s buffer (fileBytes t h.node) = some s₁) : SamePages s s₁ :=
    ((hbuf h hnode).stored hs (fileBytes_length_le t h.node) hstore).1.translate
  cases elfLoad_cases hret with
  | missing _ _ hsame hret => exact ⟨hret, hsame ▸ fun _ => rfl⟩
  | unreadable h hnode _ _ hstore hret =>
    obtain ⟨p, hp, hstore⟩ := hstore
    refine ⟨hret, ?_⟩
    -- `vfs_read` of an empty file leaves the buffer alone
    by_cases hzero : h.node.length = 0#32
    · have hle := fileBytes_length_le t h.node
      rw [hzero, BitVec.toNat_zero, Nat.le_zero, List.length_eq_zero_iff] at hle
      rw [hle] at hstore
      obtain rfl := Option.some.inj hstore
      exact fun _ => rfl
    · exact hstored h hnode (hp hzero ▸ hstore)
  | invalid h hnode _ _ hstore _ hret => exact ⟨hret, hstored h hnode hstore⟩
  | loaded h hnode hread _ s₁ hstore htrue =>
    -- this is not one of them
    rcases hfails with hnull | ⟨h', hnode', hcase⟩
    · exact absurd (hnull.symm.trans hnode) (by simp)
    · obtain rfl := Option.some.inj (Option.some.inj (hnode.symm.trans hnode'))
      rcases hcase with hnot | ⟨s₂, hstore', hfalse⟩
      · exact absurd hread hnot
      · obtain rfl := Option.some.inj (hstore.symm.trans hstore')
        exact absurd (htrue.symm.trans hfalse) (by simp)

/-! ## What is released -/

/-- The heap is as before, and no page has changed if the call fails. -/
structure Released (t : DirTree ι) (d : ℕ) (buffer : Word) (st : VfsState) (s : Machine)
    (base : Option (Node ι)) (path : CString) (st' : VfsState) (s' : Machine) : Prop where
  live : st'.live = st.live
  pages : Fails t d buffer st s base path → SamePages s s'

/-- The walk is clean, and a file that is read begins with the magic number. -/
structure Releasable (t : DirTree ι) (d : ℕ) (buffer : Word) (st : VfsState) (s : Machine)
    (base : Option (Node ι)) (path : CString) : Prop where
  clean : t.CleanPath base path
  magic : ∀ h, (t.vfsGetNodeByPath d st base path).2 = some (some h) → Readable t h.node →
    MagicAt s buffer (fileBytes t h.node)

/-- **The loader releases everything** exactly under the condition. Where it fails it returns -1; the last way
out does so for an `e_entry` of -1, and there the pages are as before exactly if there is none to map. -/
theorem elf_released_iff (hs : Sound pd s)
    (hbuf : ∀ h, (t.vfsGetNodeByPath d st base path).2 = some (some h) →
      Block pd s buffer h.node.length.toNat)
    (hroot : t.rootAddr ∈ st.live)
    (himpl : ∀ n, n = t.root ∨ base = some n → ∀ e, n.impl = some e → e ∈ st.live)
    (hret : elfLoad t d buffer st s base path = some (st', s', ret)) :
    (Released t d buffer st s base path st' s' ↔ Releasable t d buffer st s base path) ∧
      (Fails t d buffer st s base path → ret = -1#32) ∧
      ∀ h, (t.vfsGetNodeByPath d st base path).2 = some (some h) → Readable t h.node →
        MagicAt s buffer (fileBytes t h.node) → InOrder pd s buffer (fileBytes t h.node) →
        ret = entry (fileBytes t h.node) ∧
          (SamePages s s' ↔ ∀ seg ∈ segments (fileBytes t h.node), seg.pages = []) := by
  have hlive := live_iff hs hbuf hroot himpl hret
  refine ⟨⟨fun hreleased => ?_, fun hcond => ?_⟩, fun hfails => ?_, fun h hnode hread hmagic hin => ?_⟩
  · obtain ⟨hclean, hmagic⟩ := hlive.mp hreleased.live
    exact ⟨hclean, hmagic⟩
  · exact ⟨hlive.mpr ⟨hcond.clean, hcond.magic⟩, fun hfails => (samePages_of_fails hs hbuf hret hfails).2⟩
  · exact (samePages_of_fails hs hbuf hret hfails).1
  · -- a file that begins with the magic number is loaded
    cases elfLoad_cases hret with
    | missing hnull => exact absurd (hnull.symm.trans hnode) (by simp)
    | unreadable h' hnode' hnot =>
      obtain rfl := Option.some.inj (Option.some.inj (hnode.symm.trans hnode'))
      exact absurd hread hnot
    | invalid h' hnode' _ _ hstore hfalse =>
      obtain rfl := Option.some.inj (Option.some.inj (hnode.symm.trans hnode'))
      have htrue := (magic_iff hs (hbuf h hnode) hread hstore).mpr hmagic
      exact absurd (hfalse.symm.trans htrue) (by simp)
    | loaded h' hnode' _ _ s₁ hstore _ hload =>
      obtain rfl := Option.some.inj (Option.some.inj (hnode.symm.trans hnode'))
      obtain ⟨hwritten, hbytes⟩ := (hbuf h hnode).stored hs (fileBytes_length_le t h.node) hstore
      exact hin.load hwritten hbytes hload

end Pages

/-! ### A program and a text -/

theorem magicAt_of_take {s : Machine} {buffer : Word} {file : List Byte} (h : file.take 4 = elfMagic) :
    MagicAt s buffer file := by
  intro i hi
  rw [← List.getElem?_take_of_lt hi, h, List.getElem?_eq_getElem (show i < elfMagic.length from hi),
    Option.some_or]

/-- The way out for a file that does not begin with the magic number. -/
theorem elfLoad_invalid {t : DirTree ι} {d : ℕ} {st st₁ : VfsState} {base : Option (Node ι)}
    {path : CString} {s s₁ : Machine} {buffer : Word} {h : Handle ι}
    (hlookup : t.vfsGetNodeByPath d st base path = (st₁, some (some h))) (hread : Readable t h.node)
    (hstore : storeBytes s buffer (fileBytes t h.node) = some s₁)
    (hmagic : hasMagic s₁ buffer elfMagic = some false) :
    ∃ st', elfLoad t d buffer st s base path = some (st', s₁, -1#32) := by
  rw [elfLoad, hlookup]
  dsimp only
  rw [if_neg hread.length_ne, hstore, Option.bind_eq_bind, Option.bind_some, if_neg hread, hmagic]
  exact ⟨_, rfl⟩

/-- The walk to the file is clean. -/
theorem clean_fileTree (bytes : List Byte) :
    (fileTree bytes).CleanPath none ⟨[slash, 97#8], by decide⟩ := by
  intro s hs
  obtain rfl := Option.some.inj hs
  refine ⟨rfl, rfl, fun res hres => ?_⟩
  obtain rfl := Option.some.inj hres
  exact ⟨show vfsFile &&& vfsSymlink = 0#32 by decide, trivial⟩

theorem block_fileTree {bytes : List Byte} (h : bytes.length ≤ 4096) :
    ∀ n, ((fileTree bytes).vfsGetNodeByPath 0 rootHeap none ⟨[slash, 97#8], by decide⟩).2 = some (some n) →
      Block 256 (oneTable true id) 0xC000A000#32 n.node.length.toNat := by
  intro n hn
  obtain ⟨st₁, hlookup⟩ := lookup_fileTree bytes
  rw [hlookup] at hn
  obtain rfl := Option.some.inj (Option.some.inj hn)
  rw [length_fileNode (by omega)]
  exact .inr (kernelBuffer_oneTable (by omega))

/-- The program with two segments is loaded, and only its image stays: its two pages. -/
theorem elf_released_small :
    let file := smallElf 0x08049100#32
    ∃ st' s',
      elfLoad (fileTree file) 0 0xC000A000#32 rootHeap (oneTable true id) none ⟨[slash, 97#8], by decide⟩ =
        some (st', s', entry file) ∧
      st'.live = rootHeap.live ∧ ¬SamePages (oneTable true id) s' := by
  intro file
  have hsegs : segments file = smallSegments 0x08049100#32 := by decide +kernel
  have hwell : WellFormed file := wellFormed_smallElf hsegs (by decide +kernel) (by decide) (by decide)
  have hlt : file.length < 2 ^ 32 := by decide +kernel
  have hbytes := fileBytes_fileTree hlt
  obtain ⟨hbuf, hframes⟩ := smallElf_ready hsegs (by decide +kernel)
  obtain ⟨st₁, hlookup⟩ := lookup_fileTree file
  obtain ⟨st', s₁, hord, hbuffer, -, -, hrun⟩ := elfLoad_eq sound_oneTable hlookup
    (length_fileNode hlt ▸ hbuf) (hbytes.symm ▸ hwell) (hbytes.symm ▸ hframes)
  rw [hbytes] at hord hbuffer hrun
  obtain ⟨s', hplaced, -⟩ := run_built hord hbuffer hwell.inside (hsegs ▸ covered_smallSegments (by decide))
  rw [hplaced, Option.map_some] at hrun
  have hmagic : MagicAt (oneTable true id) 0xC000A000#32 (fileBytes (fileTree file) (fileNode file).node) := by
    rw [hbytes]
    exact magicAt_of_take hwell.magic
  have hin : InOrder 256 (oneTable true id) 0xC000A000#32 file :=
    ⟨hwell.header, hwell.headers, hwell.ok, hframes, hbuf.owned⟩
  obtain ⟨hiff, -, hloaded⟩ := elf_released_iff sound_oneTable (block_fileTree (by decide +kernel)) (by decide)
    (fun n hn e he => by obtain rfl := hn.resolve_right (by simp); cases he) hrun
  have hfound : ((fileTree file).vfsGetNodeByPath 0 rootHeap none ⟨[slash, 97#8], by decide⟩).2 =
      some (some (fileNode file)) := by rw [hlookup]
  refine ⟨st', s', hrun, (hiff.mpr ⟨clean_fileTree file, fun h hh _ => ?_⟩).live, fun hsame => ?_⟩
  · obtain rfl := Option.some.inj (Option.some.inj (hfound.symm.trans hh))
    exact hmagic
  · have hread : Readable (fileTree file) (fileNode file).node := by
      rw [Readable, hbytes]
      decide +kernel
    have hpages := (hloaded (fileNode file) hfound hread hmagic (hbytes.symm ▸ hin)).2.mp hsame
    rw [hbytes, hsegs] at hpages
    exact absurd (hpages _ List.mem_cons_self) (by decide)

/-- A text file is no program, and its node stays on the heap. -/
theorem text_node_stays :
    let text := [97#8, 98#8, 99#8, 100#8]
    ∃ st' s',
      elfLoad (fileTree text) 0 0xC000A000#32 rootHeap (oneTable true id) none ⟨[slash, 97#8], by decide⟩ =
      some (st', s', -1#32) ∧ st'.live ≠ rootHeap.live := by
  intro text
  have hlt : text.length < 2 ^ 32 := by decide
  have hbytes : fileBytes (fileTree text) (fileNode text).node = text := fileBytes_fileTree hlt
  obtain ⟨st₁, hlookup⟩ := lookup_fileTree text
  obtain ⟨s₁, hstore, -, hbuffer⟩ :=
    (kernelBuffer_oneTable (n := 4) (by decide)).store sound_oneTable (show text.length ≤ 4 from le_rfl)
  have hread : Readable (fileTree text) (fileNode text).node := by
    rw [Readable, hbytes]
    decide
  have hmagic : hasMagic s₁ 0xC000A000#32 elfMagic = some false := by
    have hfirst : s₁.readByte 0xC000A000#32 = some 97#8 := (hbuffer 0 (by decide)).2
    rw [elfMagic, hasMagic, hfirst]
    rfl
  obtain ⟨st', hret⟩ := elfLoad_invalid hlookup hread (hbytes.symm ▸ hstore) hmagic
  refine ⟨st', s₁, hret, fun hlive => ?_⟩
  have hcond := (live_iff sound_oneTable (block_fileTree (by decide)) (by decide)
    (fun n hn e he => by obtain rfl := hn.resolve_right (by simp); cases he) hret).mp hlive
  have hfirst := hcond.2 (fileNode text) (by rw [hlookup]) hread 0 (by decide)
  rw [hbytes] at hfirst
  exact absurd hfirst (by decide)

end PekerOS.Elf
