import PekerOS.Mm.Windows

/-!
# What `paging_map_memory` changes

The processor finds a page through an entry of the directory and an entry of a table. As long as the
directory refers to tables in frames of their own, a store into one table changes one page, and a new
table, in a frame that nobody holds, changes none. The kernel makes these stores through the direct map,
so the pages that it maps must not be those through which it reaches its tables.

## Main definitions

* `lookup`: the two entries on the way to a page
* `PageTables pd s`: the tables are in distinct frames that are held, and the direct map reaches them
* `Mappable`: a window that leaves the kernel its tables, and frames for those it needs

## Main results

* `PageTables.mapPage`: one page is mapped and no other page changes
* `paging_map_exact`: exactly the pages of the window change
-/

namespace PekerOS.Mm

/-- The entries through which the processor finds a page: that of the directory and that of the table,
both present. -/
def lookup (pd : ℕ) (mem : ℕ → Table 1024 Entry) (v : Word) : Option (Entry × Entry) :=
  let pde := (mem pd).get (pdIdx v)
  let pte := (mem pde.frame).get (ptIdx v)
  if pde.present ∧ pte.present then some (pde, pte) else none

/-- The frame of the directory, or of a table that it refers to. -/
def TableFrame (pd : ℕ) (mem : ℕ → Table 1024 Entry) (f : ℕ) : Prop :=
  f = pd ∨ ∃ k < 1024, ((mem pd).get k).present = true ∧ ((mem pd).get k).frame = f

/-- The page tables of the kernel: the directory and the tables are in distinct frames, all of them
held, and the direct map reaches them. -/
structure PageTables (pd : ℕ) (s : Machine) : Prop where
  loaded : Loaded pd s
  frame_lt : ∀ f, TableFrame pd s.mem f → f < 1048576
  held : ∀ f, TableFrame pd s.mem f → bitmapTest s.pmm.frameBitmap f = true
  ne : ∀ k < 1024, ((s.mem pd).get k).present = true → ((s.mem pd).get k).frame ≠ pd
  inj : ∀ k < 1024, ∀ j < 1024, ((s.mem pd).get k).present = true →
    ((s.mem pd).get j).present = true → ((s.mem pd).get k).frame = ((s.mem pd).get j).frame → k = j
  reach : ∀ f, TableFrame pd s.mem f → translate s.cr3 s.mem (directAddr f) = some f

/-- Page `i` of a window. -/
def pageAddr (virt : Word) (i : ℕ) : Word := virt + BitVec.ofNat 32 i * pageSize

/-- The directory entries of the window that have no table yet. -/
def missing (pd : ℕ) (mem : ℕ → Table 1024 Entry) (virt : Word) (n : ℕ) : Finset ℕ :=
  (Finset.range 1024).filter fun k =>
    ((mem pd).get k).present = false ∧ ∃ i < n, pdIdx (pageAddr virt i) = k

/-- What the next calls of `alloc_frame` return. -/
def allocated (p : Pmm) : ℕ → List Word
  | 0 => []
  | n + 1 => (allocFrame p).2 :: allocated (allocFrame p).1 n

/-- No page of the window is the page through which the kernel reaches the frame. -/
def Spares (virt : Word) (n : ℕ) (direct : Word) : Prop :=
  ∀ i < n, frameOf (pageAddr virt i) ≠ frameOf direct

/-- The window spares the tables, those that are there and those that it needs; `alloc_frame` has frames
for these, and the direct map reaches them. -/
structure Mappable (pd : ℕ) (s : Machine) (virt : Word) (n : ℕ) : Prop where
  tables : ∀ f, TableFrame pd s.mem f → Spares virt n (directAddr f)
  new : ∀ addr ∈ allocated s.pmm (missing pd s.mem virt n).card, addr ≠ 0#32 ∧
    translate s.cr3 s.mem (addr + kernelBase) = some (frameOf addr) ∧ Spares virt n (addr + kernelBase)

section Lookup

variable {pd a k t : ℕ} {mem : ℕ → Table 1024 Entry} {v : Word}

theorem translate_eq_lookup (pd : ℕ) (mem : ℕ → Table 1024 Entry) (v : Word) :
    translate (.directory pd) mem v = (lookup pd mem v).map fun e => e.2.frame := by
  rw [translate, lookup]
  dsimp only
  cases hpde : ((mem pd).get (pdIdx v)).present with
  | false => simp
  | true => split <;> simp_all

theorem lookup_eq_some {pde pte : Entry} : lookup pd mem v = some (pde, pte) ↔
    (mem pd).get (pdIdx v) = pde ∧ pde.present = true ∧ (mem pde.frame).get (ptIdx v) = pte ∧
      pte.present = true := by
  rw [lookup]
  split
  · next h =>
    rw [Option.some_inj, Prod.mk.injEq]
    constructor
    · rintro ⟨rfl, rfl⟩
      exact ⟨rfl, h.1, rfl, h.2⟩
    · rintro ⟨rfl, -, rfl, -⟩
      exact ⟨rfl, rfl⟩
  · next h =>
    constructor
    · intro heq
      cases heq
    · rintro ⟨rfl, hpde, rfl, hpte⟩
      exact absurd ⟨hpde, hpte⟩ h

theorem lookup_of_absent (h : ((mem pd).get (pdIdx v)).present = false) : lookup pd mem v = none :=
  if_neg fun hp => by rw [h] at hp; cases hp.1

/-- A page is found in the same way if the entries on the way to it are the same. -/
theorem lookup_congr {mem' : ℕ → Table 1024 Entry}
    (hpde : (mem' pd).get (pdIdx v) = (mem pd).get (pdIdx v))
    (hpte : ((mem pd).get (pdIdx v)).present = true →
      (mem' ((mem pd).get (pdIdx v)).frame).get (ptIdx v) =
        (mem ((mem pd).get (pdIdx v)).frame).get (ptIdx v)) :
    lookup pd mem' v = lookup pd mem v := by
  cases hpresent : ((mem pd).get (pdIdx v)).present with
  | false => rw [lookup_of_absent hpresent, lookup_of_absent (hpde ▸ hpresent)]
  | true => rw [lookup, lookup, hpde, hpte hpresent]

theorem tableFrame_entry (hpresent : ((mem pd).get (pdIdx v)).present = true) :
    TableFrame pd mem ((mem pd).get (pdIdx v)).frame :=
  .inr ⟨pdIdx v, pdIdx_lt v, hpresent, rfl⟩

theorem entry_ne (ha : ¬TableFrame pd mem a) (hpresent : ((mem pd).get (pdIdx v)).present = true) :
    ((mem pd).get (pdIdx v)).frame ≠ a := by
  rintro rfl
  exact ha (tableFrame_entry hpresent)

/-- A store into a frame that is no table changes no page. -/
theorem lookup_update (ha : ¬TableFrame pd mem a) (m : Table 1024 Entry) :
    lookup pd (Function.update mem a m) v = lookup pd mem v := by
  refine lookup_congr ?_ fun hpresent => ?_
  · rw [Function.update_of_ne fun heq => ha (.inl heq.symm)]
  · rw [Function.update_of_ne (entry_ne ha hpresent)]

/-- A new table without pages changes none. -/
theorem lookup_linkMem (ha : ¬TableFrame pd mem a)
    (hne : ∀ j < 1024, ((mem pd).get j).present = true → ((mem pd).get j).frame ≠ pd) (hk : k < 1024)
    (habsent : ((mem pd).get k).present = false) {m : Table 1024 Entry}
    (hm : ∀ j < 1024, (m.get j).present = false) :
    lookup pd (linkMem mem a pd k m) v = lookup pd mem v := by
  have hapd : a ≠ pd := fun heq => ha (.inl heq)
  by_cases hv : pdIdx v = k
  · -- the page was not there, and it is not in the new table
    subst hv
    have hnew : linkMem mem a pd (pdIdx v) m a = m :=
      (Function.update_of_ne hapd _ _).trans (Function.update_self _ _ _)
    rw [lookup_of_absent habsent, lookup, linkMem_entry mem a pd hk m, Entry.point, hnew]
    refine if_neg fun hp => ?_
    have hpage := hm _ (ptIdx_lt v)
    rw [hp.2] at hpage
    cases hpage
  · refine lookup_congr ?_ fun hpresent => ?_
    · rw [linkMem, Function.update_self, Table.get_set_ne _ hv]
    · rw [linkMem, Function.update_of_ne (hne _ (pdIdx_lt v) hpresent),
        Function.update_of_ne (entry_ne ha hpresent)]

/-- A store into a table changes the page it is about. -/
theorem lookup_pageMem (p v' : Word)
    (hinj : ∀ j < 1024, ((mem pd).get j).present = true → ((mem pd).get j).frame = t → j = pdIdx v)
    (hpresent : ((mem pd).get (pdIdx v)).present = true) (ht : ((mem pd).get (pdIdx v)).frame = t)
    (hne : t ≠ pd) :
    lookup pd (pageMem mem t p v) v' =
      if frameOf v' = frameOf v then
        some ((mem pd).get (pdIdx v), Entry.point (frameOf p) ((mem t).get (ptIdx v)))
      else lookup pd mem v' := by
  have hpd : pageMem mem t p v pd = mem pd := Function.update_of_ne hne.symm _ _
  have htable : pageMem mem t p v t =
      (mem t).set (ptIdx v) (Entry.point (frameOf p) ((mem t).get (ptIdx v))) :=
    Function.update_self _ _ _
  have hlt := ptIdx_lt v
  have hlt' := ptIdx_lt v'
  split
  · next hpage =>
    rw [frameOf_eq_idx, frameOf_eq_idx] at hpage
    have hpdIdx : pdIdx v' = pdIdx v := by omega
    have hptIdx : ptIdx v' = ptIdx v := by omega
    rw [lookup, hpd, hpdIdx, hptIdx, ht, htable, Table.get_set_self _ hlt]
    exact if_pos ⟨hpresent, rfl⟩
  · next hpage =>
    refine lookup_congr (by rw [hpd]) fun hpresent' => ?_
    by_cases htab : ((mem pd).get (pdIdx v')).frame = t
    · -- the same table, so another entry of it
      have hpdIdx := hinj _ (pdIdx_lt v') hpresent' htab
      rw [frameOf_eq_idx, frameOf_eq_idx] at hpage
      rw [htab, htable, Table.get_set_ne _ fun heq => hpage (by omega)]
    · rw [pageMem, Function.update_of_ne htab]

end Lookup

section Tables

variable {pd a k t f : ℕ} {mem : ℕ → Table 1024 Entry} {p v : Word}

/-- The tables after a new one. -/
theorem tableFrame_linkMem (hk : k < 1024) (habsent : ((mem pd).get k).present = false)
    (m : Table 1024 Entry) :
    TableFrame pd (linkMem mem a pd k m) f ↔ f = a ∨ TableFrame pd mem f := by
  have hpd : linkMem mem a pd k m pd = (mem pd).set k (Entry.point a ((mem pd).get k)) :=
    Function.update_self _ _ _
  simp only [TableFrame, hpd]
  constructor
  · rintro (rfl | ⟨j, hj, hpresent, hframe⟩)
    · exact .inr (.inl rfl)
    · rw [Table.get_set _ hk] at hpresent hframe
      split at hframe
      · exact .inl hframe.symm
      · next hjk =>
        rw [if_neg hjk] at hpresent
        exact .inr (.inr ⟨j, hj, hpresent, hframe⟩)
  · rintro (rfl | rfl | ⟨j, hj, hpresent, hframe⟩)
    · exact .inr ⟨k, hk, by rw [Table.get_set_self _ hk]; rfl, by rw [Table.get_set_self _ hk]; rfl⟩
    · exact .inl rfl
    · have hjk : j ≠ k := by
        rintro rfl
        rw [habsent] at hpresent
        cases hpresent
      exact .inr ⟨j, hj, by rwa [Table.get_set_ne _ hjk], by rwa [Table.get_set_ne _ hjk]⟩

end Tables

namespace PageTables

variable {pd a k : ℕ} {s : Machine} {p v : Word}

/-- The kernel reaches a table while it fills a frame that is none. -/
theorem reach_update (h : PageTables pd s) {f : ℕ} (hf : translate s.cr3 s.mem (directAddr f) = some f)
    (ha : ¬TableFrame pd s.mem a) (m : Table 1024 Entry) :
    translate s.cr3 (Function.update s.mem a m) (directAddr f) = some f := by
  rw [h.loaded.cr3, translate_eq_lookup] at hf ⊢
  rwa [lookup_update ha]

/-- A clear frame is no table. -/
theorem notMem_of_clear (h : PageTables pd s) (hclear : Bitmap.test s.pmm.frameBitmap a = false) :
    ¬TableFrame pd s.mem a := by
  intro ha
  have hheld := h.held a ha
  rw [bitmapTest_eq, hclear] at hheld
  cases hheld

/-- A new table without pages, in a clear frame that the direct map reaches. -/
theorem link (h : PageTables pd s) (hk : k < 1024) (habsent : ((s.mem pd).get k).present = false)
    (ha : a < 1048576) (hclear : Bitmap.test s.pmm.frameBitmap a = false)
    (htr : translate s.cr3 s.mem (directAddr a) = some a) {m : Table 1024 Entry}
    (hm : ∀ j < 1024, (m.get j).present = false) :
    PageTables pd { s with pmm := takeFrame s.pmm a, mem := linkMem s.mem a pd k m } := by
  have hnot := h.notMem_of_clear hclear
  have hframes {f : ℕ} : TableFrame pd (linkMem s.mem a pd k m) f ↔ f = a ∨ TableFrame pd s.mem f :=
    tableFrame_linkMem hk habsent m
  have hpd : linkMem s.mem a pd k m pd = (s.mem pd).set k (Entry.point a ((s.mem pd).get k)) :=
    Function.update_self _ _ _
  -- an entry of the directory is the new one, or one that was there
  have hentry (j : ℕ) (hj : j < 1024)
      (hpresent : ((linkMem s.mem a pd k m pd).get j).present = true) :
      (j = k ∧ ((linkMem s.mem a pd k m pd).get j).frame = a) ∨
        (((s.mem pd).get j).present = true ∧
          ((linkMem s.mem a pd k m pd).get j).frame = ((s.mem pd).get j).frame ∧
          ((s.mem pd).get j).frame ≠ a) := by
    rw [hpd, Table.get_set _ hk] at hpresent ⊢
    by_cases hjk : j = k
    · rw [if_pos hjk]
      exact .inl ⟨hjk, rfl⟩
    · rw [if_neg hjk] at hpresent ⊢
      exact .inr ⟨hpresent, rfl, fun heq => hnot (.inr ⟨j, hj, hpresent, heq⟩)⟩
  refine ⟨⟨h.loaded.cr3, h.loaded.directory⟩, fun f hf => ?_, fun f hf => ?_,
    fun j hj hpresent => ?_, fun i hi j hj hi' hj' heq => ?_, fun f hf => ?_⟩
  · rcases hframes.mp hf with rfl | hf
    · exact ha
    · exact h.frame_lt f hf
  · rw [bitmapTest_eq]
    dsimp only
    rw [takeFrame_frameBitmap, Bitmap.test_set _ (by omega)]
    rcases hframes.mp hf with rfl | hf
    · rw [decide_eq_true rfl, Bool.true_or]
    · rw [← bitmapTest_eq, h.held f hf, Bool.or_true]
  · rcases hentry j hj hpresent with ⟨-, hframe⟩ | ⟨hold, hframe, -⟩
    · exact fun heq => hnot (.inl (hframe.symm.trans heq))
    · exact fun heq => h.ne j hj hold (hframe.symm.trans heq)
  · rcases hentry i hi hi' with ⟨rfl, hframe⟩ | ⟨hold, hframe, hne⟩ <;>
      rcases hentry j hj hj' with ⟨rfl, hframe'⟩ | ⟨hold', hframe', hne'⟩
    · rfl
    · exact absurd (hframe'.symm.trans (heq.symm.trans hframe)) hne'
    · exact absurd (hframe.symm.trans (heq.trans hframe')) hne
    · exact h.inj i hi j hj hold hold' (hframe.symm.trans (heq.trans hframe'))
  · have hsame : translate s.cr3 (linkMem s.mem a pd k m) (directAddr f) =
        translate s.cr3 s.mem (directAddr f) := by
      rw [h.loaded.cr3, translate_eq_lookup, translate_eq_lookup,
        lookup_linkMem hnot h.ne hk habsent hm]
    refine hsame.trans ?_
    rcases hframes.mp hf with rfl | hf
    · exact htr
    · exact h.reach f hf

/-- A page mapped through a table that is there, if the kernel does not reach its tables through it. -/
theorem page (h : PageTables pd s) (hpresent : ((s.mem pd).get (pdIdx v)).present = true)
    (hspare : ∀ f, TableFrame pd s.mem f → frameOf v ≠ frameOf (directAddr f)) :
    PageTables pd { s with mem := pageMem s.mem ((s.mem pd).get (pdIdx v)).frame p v } := by
  have hne := h.ne _ (pdIdx_lt v) hpresent
  have hpd : pageMem s.mem ((s.mem pd).get (pdIdx v)).frame p v pd = s.mem pd :=
    Function.update_of_ne hne.symm _ _
  have hframes {f : ℕ} : TableFrame pd (pageMem s.mem ((s.mem pd).get (pdIdx v)).frame p v) f ↔
      TableFrame pd s.mem f := by rw [TableFrame, TableFrame, hpd]
  refine ⟨⟨h.loaded.cr3, h.loaded.directory⟩, fun f hf => h.frame_lt f (hframes.mp hf),
    fun f hf => h.held f (hframes.mp hf), ?_, ?_, fun f hf => ?_⟩
  · dsimp only
    rw [hpd]
    exact h.ne
  · dsimp only
    rw [hpd]
    exact h.inj
  · have hf' := hframes.mp hf
    have hreach := h.reach f hf'
    have hlookup := lookup_pageMem p (directAddr f)
      (fun j hj hj' heq => h.inj j hj _ (pdIdx_lt v) hj' hpresent heq) hpresent rfl hne
    rw [h.loaded.cr3, translate_eq_lookup] at hreach ⊢
    dsimp only
    rwa [hlookup, if_neg fun heq => hspare f hf' heq.symm]

end PageTables

/-! ## One page -/

/-- The directory only grows: an entry is as it was, or it is new and grants write permission. -/
def Grown (pd : ℕ) (mem mem' : ℕ → Table 1024 Entry) : Prop :=
  ∀ k < 1024, (mem' pd).get k = (mem pd).get k ∨
    ((mem pd).get k).present = false ∧ ((mem' pd).get k).rw = true

theorem Grown.refl (pd : ℕ) (mem : ℕ → Table 1024 Entry) : Grown pd mem mem := fun _ _ => .inl rfl

theorem Grown.trans {pd : ℕ} {mem mem' mem'' : ℕ → Table 1024 Entry} (h : Grown pd mem mem')
    (h' : Grown pd mem' mem'') : Grown pd mem mem'' := by
  intro k hk
  rcases h k hk with heq | ⟨habsent, hrw⟩
  · rw [← heq]
    exact h' k hk
  · rcases h' k hk with heq' | ⟨-, hrw'⟩
    · exact .inr ⟨habsent, heq' ▸ hrw⟩
    · exact .inr ⟨habsent, hrw'⟩

/-- The state after a page has been mapped: no other page has changed. -/
structure PageMapped (pd : ℕ) (s s' : Machine) (p v : Word) : Prop where
  tables : PageTables pd s'
  grown : Grown pd s.mem s'.mem
  page : ∀ v', frameOf v' = frameOf v → ∃ e, lookup pd s'.mem v' = some e ∧
    e.2.frame = frameOf p ∧ e.2.rw = true
  other : ∀ v', frameOf v' ≠ frameOf v → lookup pd s'.mem v' = lookup pd s.mem v'

section Page

variable {pd : ℕ} {s : Machine} {p v : Word}

/-- A page whose table is there. -/
theorem PageTables.mapPage_present (h : PageTables pd s)
    (hpresent : ((s.mem pd).get (pdIdx v)).present = true)
    (hspare : ∀ f, TableFrame pd s.mem f → frameOf v ≠ frameOf (directAddr f)) :
    ∃ s', tableFor s (pdIdx v) = some (s, directAddr ((s.mem pd).get (pdIdx v)).frame) ∧
      editEntry s (directAddr ((s.mem pd).get (pdIdx v)).frame) (ptIdx v) (Entry.point (frameOf p)) =
        some s' ∧ s'.pmm = s.pmm ∧ s'.mem pd = s.mem pd ∧ PageMapped pd s s' p v ∧
      ∀ f, ¬TableFrame pd s.mem f → s'.mem f = s.mem f := by
  have hframe := tableFrame_entry hpresent
  have hne := h.ne _ (pdIdx_lt v) hpresent
  have hlookup (v' : Word) := lookup_pageMem p v'
    (fun j hj hj' heq => h.inj j hj _ (pdIdx_lt v) hj' hpresent heq) hpresent rfl hne
  have hsame : pageMem s.mem ((s.mem pd).get (pdIdx v)).frame p v pd = s.mem pd :=
    Function.update_of_ne hne.symm _ _
  refine ⟨_, ?_, editEntry_eq (h.reach _ hframe), rfl, hsame, ⟨h.page hpresent hspare,
    fun k _ => .inl (congrArg (fun t : Table 1024 Entry => t.get k) hsame), fun v' hv' => ?_,
    fun v' hv' => ?_⟩, fun f hf => ?_⟩
  · rw [tableFor, readEntry, h.loaded.directory, h.reach pd (.inl rfl)]
    simp only [Option.map_some, Option.bind_eq_bind, Option.bind_some, hpresent, if_true]
    rw [shiftLeft_add_kernelBase (h.frame_lt _ hframe)]
    rfl
  · exact ⟨_, (hlookup v').trans (if_pos hv'), rfl, rfl⟩
  · exact (hlookup v').trans (if_neg hv')
  · refine Function.update_of_ne ?_ _ _
    rintro rfl
    exact hf hframe

/-- The table that a page needs, made in the next frame of `alloc_frame`. -/
theorem PageTables.tableFor_absent (h : PageTables pd s) {k : ℕ} (hk : k < 1024)
    (habsent : ((s.mem pd).get k).present = false) (hne : (allocFrame s.pmm).2 ≠ 0#32)
    (htr : translate s.cr3 s.mem ((allocFrame s.pmm).2 + kernelBase) =
      some (frameOf (allocFrame s.pmm).2)) :
    ∃ s' a, tableFor s k = some (s', directAddr a) ∧ PageTables pd s' ∧
      s'.pmm = (allocFrame s.pmm).1 ∧ (allocFrame s.pmm).2 + kernelBase = directAddr a ∧
      s'.cr3 = s.cr3 ∧ (∀ f, TableFrame pd s'.mem f ↔ f = a ∨ TableFrame pd s.mem f) ∧
      (∀ v', lookup pd s'.mem v' = lookup pd s.mem v') ∧
      (s'.mem pd).get k = Entry.point a ((s.mem pd).get k) ∧
      (∀ j, j ≠ k → (s'.mem pd).get j = (s.mem pd).get j) ∧
      ∀ f, ¬TableFrame pd s'.mem f → s'.mem f = s.mem f := by
  rcases allocFrame_cases s.pmm with ⟨hnone, -⟩ | ⟨a, halt, hclear, -, halloc⟩
  · exact absurd (congrArg Prod.snd hnone) hne
  · have ha : a < 1048576 := by
      have := (searchLimit_le s.pmm).2
      omega
    rw [halloc, frameOf_frame ha] at htr
    rw [halloc]
    -- the new frame holds no table, so no lookup reads what is cleared
    have hnot := h.notMem_of_clear hclear
    have hm (j : ℕ) (hj : j < 1024) : ((Table.ofFn (n := 1024) fun j =>
        { (s.mem a).get j with present := false }).get j).present = false := by
      rw [Table.get_ofFn _ hj]
    have hpdt : translate s.cr3 s.mem (directAddr pd) = some pd := h.reach pd (.inl rfl)
    have hlink := linkTable_eq (s := { s with pmm := takeFrame s.pmm a }) (k := k)
      (h := fun _ e => { e with present := false }) ha (fun heq => hnot (.inl heq)) h.loaded.directory
      (h.reach_update htr hnot) (h.reach_update hpdt hnot)
    refine ⟨_, a, ?_, h.link hk habsent ha hclear htr hm, rfl, rfl, rfl,
      fun f => tableFrame_linkMem hk habsent _, fun v' => lookup_linkMem hnot h.ne hk habsent hm,
      linkMem_entry s.mem a pd hk _, fun j hj => ?_, fun f hf => ?_⟩
    · rw [tableFor, readEntry, h.loaded.directory, hpdt]
      simp only [Option.map_some, Option.bind_eq_bind, Option.bind_some, habsent,
        Bool.false_eq_true, if_false, halloc]
      rw [← h.loaded.directory, hlink]
      rfl
    · dsimp only
      rw [linkMem, Function.update_self, Table.get_set_ne _ hj]
    · dsimp only at hf ⊢
      rw [tableFrame_linkMem hk habsent, not_or] at hf
      rw [linkMem, Function.update_of_ne fun heq => hf.2 (.inl heq), Function.update_of_ne hf.1]

/-- The table of a page, and the frames that are left after it. -/
structure TableMade (pd : ℕ) (s s' : Machine) (v : Word) : Prop where
  pmm : s'.pmm = if ((s.mem pd).get (pdIdx v)).present then s.pmm else (allocFrame s.pmm).1
  present : ((s'.mem pd).get (pdIdx v)).present = true
  other : ∀ j < 1024, j ≠ pdIdx v → (s'.mem pd).get j = (s.mem pd).get j
  frames : ∀ f, TableFrame pd s'.mem f → TableFrame pd s.mem f ∨
    ((s.mem pd).get (pdIdx v)).present = false ∧ directAddr f = (allocFrame s.pmm).2 + kernelBase
  tables : ∀ f, TableFrame pd s.mem f → TableFrame pd s'.mem f
  content : ∀ f, ¬TableFrame pd s'.mem f → s'.mem f = s.mem f

/-- **One page** is mapped, in a table that is there or in a new one. -/
theorem PageTables.mapPage (h : PageTables pd s)
    (hspare : ∀ f, TableFrame pd s.mem f → frameOf v ≠ frameOf (directAddr f))
    (hnew : ((s.mem pd).get (pdIdx v)).present = false → (allocFrame s.pmm).2 ≠ 0#32 ∧
      translate s.cr3 s.mem ((allocFrame s.pmm).2 + kernelBase) =
        some (frameOf (allocFrame s.pmm).2) ∧
      frameOf v ≠ frameOf ((allocFrame s.pmm).2 + kernelBase)) :
    ∃ s', Mm.mapPage s p v = some s' ∧ PageMapped pd s s' p v ∧ TableMade pd s s' v := by
  cases hpresent : ((s.mem pd).get (pdIdx v)).present with
  --  true|the table is there, and only its entry is written
  | true =>
    obtain ⟨s', htable, hedit, hpmm, hsame, hmapped, hcontent⟩ :=
      h.mapPage_present (p := p) hpresent hspare
    have hframes (f : ℕ) : TableFrame pd s'.mem f ↔ TableFrame pd s.mem f := by
      rw [TableFrame, TableFrame, hsame]
    refine ⟨s', ?_, hmapped, ⟨?_, ?_, fun j _ _ => ?_, fun f hf => .inl ((hframes f).mp hf),
      fun f => (hframes f).mpr, fun f hf => hcontent f fun hf' => hf ((hframes f).mpr hf')⟩⟩
    · rw [Mm.mapPage, htable]
      exact hedit
    · rw [hpresent, hpmm, if_pos rfl]
    · rw [hsame, hpresent]
    · rw [hsame]
  | false =>
    -- a table is made first, after which the entry is present
    obtain ⟨hne, htr, hoff⟩ := hnew hpresent
    obtain ⟨s₁, a, htable, h₁, hpmm₁, haddr, -, hframes, hlookup, hentry, hother, hcontent₁⟩ :=
      h.tableFor_absent (pdIdx_lt v) hpresent hne htr
    have hpresent₁ : ((s₁.mem pd).get (pdIdx v)).present = true := by rw [hentry]; rfl
    -- the table that is new has its window elsewhere, too
    have hspare₁ (f : ℕ) (hf : TableFrame pd s₁.mem f) : frameOf v ≠ frameOf (directAddr f) := by
      rcases (hframes f).mp hf with rfl | hf
      · exact haddr ▸ hoff
      · exact hspare f hf
    obtain ⟨s', -, hedit, hpmm', hsame, hmapped, hcontent⟩ :=
      h₁.mapPage_present (p := p) hpresent₁ hspare₁
    have hframes' (f : ℕ) : TableFrame pd s'.mem f ↔ TableFrame pd s₁.mem f := by
      rw [TableFrame, TableFrame, hsame]
    -- no entry of the directory but this one changes
    have hgrown : Grown pd s.mem s₁.mem := by
      intro j _
      by_cases hj : j = pdIdx v
      · subst hj
        exact .inr ⟨hpresent, by rw [hentry]; rfl⟩
      · exact .inl (hother j hj)
    refine ⟨s', ?_, ⟨hmapped.tables, hgrown.trans hmapped.grown, hmapped.page, fun v' hv' => ?_⟩,
      ⟨?_, ?_, fun j _ hj => ?_, fun f hf => ?_, fun f hf => (hframes' f).mpr ((hframes f).mpr (.inr hf)),
        fun f hf => ?_⟩⟩
    · rw [Mm.mapPage, htable]
      have hframe : ((s₁.mem pd).get (pdIdx v)).frame = a := by rw [hentry]; rfl
      rw [hframe] at hedit
      exact hedit
    · exact (hmapped.other v' hv').trans (hlookup v')
    · rw [hpresent, hpmm', hpmm₁]
      rfl
    · rw [hsame, hpresent₁]
    · rw [hsame, hother j hj]
    · rcases (hframes f).mp ((hframes' f).mp hf) with rfl | hf
      · exact .inr ⟨hpresent, haddr.symm⟩
      · exact .inl hf
    · rw [hframes'] at hf
      rw [hcontent f hf, hcontent₁ f hf]

end Page

/-! ## The loop -/

section Loop

variable {pd n i : ℕ} {s s' : Machine} {p v virt : Word}

/-- A directory entry is no longer missing once it has a table. -/
theorem TableMade.missing (h : TableMade pd s s' v) :
    missing pd s'.mem virt n = (missing pd s.mem virt n).erase (pdIdx v) := by
  ext k
  simp only [Mm.missing, Finset.mem_erase, Finset.mem_filter, Finset.mem_range]
  constructor
  · rintro ⟨hk, habsent, hpage⟩
    have hne : k ≠ pdIdx v := by
      rintro rfl
      rw [h.present] at habsent
      cases habsent
    exact ⟨hne, hk, by rwa [← h.other k hk hne], hpage⟩
  · rintro ⟨hne, hk, habsent, hpage⟩
    exact ⟨hk, by rwa [h.other k hk hne], hpage⟩

/-- The frames for the tables that are still missing. -/
theorem TableMade.allocated (h : TableMade pd s s' v) (hv : ∃ i < n, pdIdx (pageAddr virt i) = pdIdx v) :
    ∀ addr ∈ allocated s'.pmm (Mm.missing pd s'.mem virt n).card,
      addr ∈ allocated s.pmm (Mm.missing pd s.mem virt n).card := by
  intro addr haddr
  rw [h.missing, h.pmm] at haddr
  cases hpresent : ((s.mem pd).get (pdIdx v)).present with
  | true =>
    have hnot : pdIdx v ∉ Mm.missing pd s.mem virt n := by simp [Mm.missing, hpresent]
    rwa [Finset.erase_eq_of_notMem hnot, hpresent, if_pos rfl] at haddr
  | false =>
    have hmem : pdIdx v ∈ Mm.missing pd s.mem virt n :=
      Finset.mem_filter.mpr ⟨Finset.mem_range.mpr (pdIdx_lt v), hpresent, hv⟩
    rw [← Finset.card_erase_add_one hmem]
    rw [hpresent, if_neg Bool.false_ne_true] at haddr
    exact List.mem_cons_of_mem _ haddr

/-- The frame for a table that is missing. -/
theorem Mappable.next (hm : Mappable pd s virt n) (hi : i < n)
    (habsent : ((s.mem pd).get (pdIdx (pageAddr virt i))).present = false) :
    (allocFrame s.pmm).2 ≠ 0#32 ∧
      translate s.cr3 s.mem ((allocFrame s.pmm).2 + kernelBase) =
        some (frameOf (allocFrame s.pmm).2) ∧
      Spares virt n ((allocFrame s.pmm).2 + kernelBase) := by
  have hmem : pdIdx (pageAddr virt i) ∈ missing pd s.mem virt n :=
    Finset.mem_filter.mpr ⟨Finset.mem_range.mpr (pdIdx_lt _), habsent, i, hi, rfl⟩
  refine hm.new _ ?_
  rw [← Finset.card_erase_add_one hmem]
  exact List.mem_cons_self

/-- **The loop invariant**: the window remains mappable while its pages are mapped. -/
theorem Mappable.mapPage (hm : Mappable pd s virt n) (h : PageTables pd s) (hi : i < n)
    (hmapped : PageMapped pd s s' p (pageAddr virt i)) (hmade : TableMade pd s s' (pageAddr virt i)) :
    Mappable pd s' virt n := by
  constructor
  · intro f hf
    rcases hmade.frames f hf with hold | ⟨habsent, haddr⟩
    · exact hm.tables f hold
    · exact haddr ▸ (hm.next hi habsent).2.2
  · intro addr haddr
    obtain ⟨hne, htr, hspare⟩ := hm.new addr (hmade.allocated ⟨i, hi, rfl⟩ addr haddr)
    refine ⟨hne, ?_, hspare⟩
    rw [h.loaded.cr3, translate_eq_lookup] at htr
    rwa [hmapped.tables.loaded.cr3, translate_eq_lookup, hmapped.other _ (hspare i hi).symm]

/-- The pages of a window, one after another. -/
theorem frameOf_pageAddr (virt : Word) (hi : i < 1048576) :
    frameOf (pageAddr virt i) = (frameOf virt + i) % 1048576 := by
  have hlt := virt.isLt
  rw [pageAddr, frameOf_eq, frameOf_eq, BitVec.toNat_add, toNat_frame hi]
  omega

/-- **The run of the loop.** The first `c` pages lead where the call says, all others where they did. -/
theorem Mappable.run {c : ℕ} (phys : Word) (hm : Mappable pd s virt n) (h : PageTables pd s)
    (hn : n < 1048576) (hc : c ≤ n) :
    ∃ s', (List.range c).foldlM (fun s i => Mm.mapPage s (pageAddr phys i) (pageAddr virt i)) s = some s' ∧
      PageTables pd s' ∧ Mappable pd s' virt n ∧ Grown pd s.mem s'.mem ∧
      (∀ i < c, ∀ v, frameOf v = frameOf (pageAddr virt i) → ∃ e, lookup pd s'.mem v = some e ∧
        e.2.frame = frameOf (pageAddr phys i) ∧ e.2.rw = true) ∧
      ∀ v, (∀ i < c, frameOf v ≠ frameOf (pageAddr virt i)) → lookup pd s'.mem v = lookup pd s.mem v := by
  induction c with
  | zero => exact ⟨s, rfl, h, hm, .refl _ _, fun i hi => absurd hi (by omega), fun v _ => rfl⟩
  | succ c ih =>
    obtain ⟨s₁, hrun, h₁, hm₁, hgrown, hpages, hothers⟩ := ih (by omega)
    obtain ⟨s₂, hpage, hmapped, hmade⟩ := h₁.mapPage (p := pageAddr phys c)
      (fun f hf => hm₁.tables f hf c (by omega)) fun habsent =>
        ⟨(hm₁.next (by omega) habsent).1, (hm₁.next (by omega) habsent).2.1,
          (hm₁.next (by omega) habsent).2.2 c (by omega)⟩
    refine ⟨s₂, ?_, hmapped.tables, hm₁.mapPage h₁ (by omega) hmapped hmade, hgrown.trans hmapped.grown,
      fun i hi v hv => ?_, fun v hv => ?_⟩
    · rw [List.range_succ, List.foldlM_append, hrun]
      -- the last round is `map_page` of the last page
      simp [hpage]
    · by_cases hlast : i = c
      · subst hlast
        exact hmapped.page v hv
      · -- the pages of a window are distinct
        have hne : frameOf v ≠ frameOf (pageAddr virt c) := by
          rw [hv, frameOf_pageAddr _ (by omega), frameOf_pageAddr _ (by omega)]
          omega
        rw [hmapped.other v hne]
        exact hpages i (by omega) v hv
    · rw [hmapped.other v (hv c (by omega)), hothers v fun i hi => hv i (by omega)]

end Loop

/-! ## The function -/

/-- The page of an address that is `j` pages and less than one more above an aligned one. -/
theorem frameOf_eq_pageAddr {v virt : Word} (hvirt : virt.toNat % 4096 = 0) :
    frameOf v = frameOf (pageAddr virt ((v - virt).toNat / 4096)) := by
  have hlt := virt.isLt
  have hlt' := v.isLt
  have hsub := (v - virt).isLt
  rw [frameOf_pageAddr _ (by omega), frameOf_eq, frameOf_eq, BitVec.toNat_sub]
  omega

theorem numPages_eq {size : Word} (hsize : size.toNat ≤ 2 ^ 32 - 4096) :
    (numPages size).toNat = (size.toNat + 4095) / 4096 := by
  have hpage : pageSize.toNat = 4096 := rfl
  have hone : (1#32).toNat = 1 := rfl
  rw [numPages, BitVec.toNat_udiv, BitVec.toNat_sub, BitVec.toNat_add, hpage, hone]
  omega

theorem physOf_eq_lookup {pd : ℕ} {s : Machine} (h : Loaded pd s) (v : Word) :
    physOf s v = (lookup pd s.mem v).map fun e => e.2.frame * 4096 + v.toNat % 4096 := by
  rw [physOf, h.cr3, translate_eq_lookup, Option.map_map]
  rfl

/-- The address that a page of a window leads to. -/
theorem frameOf_pageAddr_phys {v phys virt : Word} (hphys : phys.toNat % 4096 = 0)
    (hvirt : virt.toNat % 4096 = 0) :
    frameOf (pageAddr phys ((v - virt).toNat / 4096)) * 4096 + v.toNat % 4096 =
      (phys + (v - virt)).toNat := by
  have hlt := virt.isLt
  have hlt' := v.isLt
  have hlt'' := phys.isLt
  have hsub := (v - virt).isLt
  rw [frameOf_pageAddr _ (by omega), frameOf_eq, BitVec.toNat_add, BitVec.toNat_sub]
  omega

/-- **`paging_map_memory` maps exactly the pages of the window.** They lead to `phys` plus their
distance from `virt`, and the entry of the table grants write permission, as does that of the directory
unless there was one that does not; no other page changes. -/
theorem paging_map_exact {pd : ℕ} {s : Machine} (h : PageTables pd s) (phys virt size : Word)
    (hphys : phys.toNat % 4096 = 0) (hvirt : virt.toNat % 4096 = 0) (hsize : size.toNat ≤ 2 ^ 32 - 4096)
    (hm : Mappable pd s virt ((size.toNat + 4095) / 4096)) :
    ∃ s', pagingMapMemory s phys virt size = some s' ∧ PageTables pd s' ∧
      (∀ v : Word, (v - virt).toNat / 4096 < (size.toNat + 4095) / 4096 →
        physOf s' v = some (phys + (v - virt)).toNat ∧
        ∃ pde pte, lookup pd s'.mem v = some (pde, pte) ∧ pte.rw = true ∧
          (pde.rw = true ∨ ((s.mem pd).get (pdIdx v)).present = true ∧ pde = (s.mem pd).get (pdIdx v))) ∧
      ∀ v : Word, (size.toNat + 4095) / 4096 ≤ (v - virt).toNat / 4096 →
        lookup pd s'.mem v = lookup pd s.mem v ∧ physOf s' v = physOf s v := by
  obtain ⟨s', hrun, h', -, hgrown, hpages, hothers⟩ := hm.run phys h (by omega) le_rfl
  have hcr3 : frameOf (s'.kernelDirectory - kernelBase) = pd := by
    rw [h'.loaded.directory, frameOf_directAddr_sub (h'.frame_lt pd (.inl rfl))]
  -- the directory is loaded again
  have hend : PageTables pd { s' with cr3 := .directory pd } := by
    have hreach := h'.reach
    rw [h'.loaded.cr3] at hreach
    exact ⟨⟨rfl, h'.loaded.directory⟩, h'.frame_lt, h'.held, h'.ne, h'.inj, hreach⟩
  refine ⟨_, ?_, hend, fun v hv => ?_, fun v hv => ?_⟩
  · rw [pagingMapMemory, numPages_eq hsize, ← hcr3]
    exact congrArg (Option.bind · _) hrun
  · obtain ⟨⟨pde, pte⟩, hlookup, hframe, hrw⟩ := hpages _ hv v (frameOf_eq_pageAddr hvirt)
    refine ⟨?_, pde, pte, hlookup, hrw, ?_⟩
    · rw [physOf_eq_lookup hend.loaded, ← frameOf_pageAddr_phys hphys hvirt, ← hframe]
      exact congrArg _ hlookup
    · have hpde : pde = (s'.mem pd).get (pdIdx v) := (lookup_eq_some.mp hlookup).1.symm
      rcases hgrown _ (pdIdx_lt v) with heq | ⟨-, hrw'⟩
      · have hpresent : pde.present = true := (lookup_eq_some.mp hlookup).2.1
        rw [hpde, heq] at hpresent
        exact .inr ⟨hpresent, hpde.trans heq⟩
      · exact .inl (hpde ▸ hrw')
  · have hsame : lookup pd s'.mem v = lookup pd s.mem v := by
      refine hothers v fun i hi heq => ?_
      rw [frameOf_eq_pageAddr hvirt, frameOf_pageAddr _ (by omega), frameOf_pageAddr _ (by omega)] at heq
      omega
    refine ⟨hsame, ?_⟩
    rw [physOf_eq_lookup hend.loaded, physOf_eq_lookup h.loaded, ← hsame]

/-! ### A machine with one table -/

/-- A machine with one table, in frame 257, for the first 4 MB of the direct map; the next frame that
`alloc_frame` returns is frame 300. -/
def oneTable (rw : Bool) (page : ℕ → ℕ) : Machine where
  mem f :=
    if f = 256 then Table.ofFn fun k => ⟨decide (k = 768), rw, false, 0, 257⟩
    else if f = 257 then Table.ofFn fun j => ⟨true, true, true, 0, page j⟩
    else Table.ofFn fun _ => default
  cr3 := .directory 256
  kernelDirectory := 0xC0100000#32
  pmm := ⟨Table.ofFn fun i => if i < 37 then 0xFF#8 else if i = 37 then 0x0F#8 else 0#8, 1024#32,
    300#32, 4096#32⟩

theorem allocFrame_oneTable (rw : Bool) (page : ℕ → ℕ) :
    allocFrame (oneTable rw page).pmm = (takeFrame (oneTable rw page).pmm 300, 0x12C000#32) := by
  have hmarked : ∀ g < 300, Bitmap.test (oneTable rw page).pmm.frameBitmap g = true := by
    show ∀ g < 300, Bitmap.test (oneTable true id).pmm.frameBitmap g = true
    decide +kernel
  have hclear : Bitmap.test (oneTable rw page).pmm.frameBitmap 300 = false := by
    show Bitmap.test (oneTable true id).pmm.frameBitmap 300 = false
    decide +kernel
  rcases allocFrame_cases (oneTable rw page).pmm with ⟨-, hall⟩ | ⟨f, -, hf, hfirst, halloc⟩
  · have hmarked' := hall 300 (show 300 < (searchLimit (oneTable true id).pmm).toNat by decide)
    rw [hclear] at hmarked'
    cases hmarked'
  · have hge : 300 ≤ f := by
      by_contra hlt
      rw [hmarked f (by omega)] at hf
      cases hf
    have hle : f ≤ 300 := by
      by_contra hgt
      rw [hfirst 300 (by omega)] at hclear
      cases hclear
    obtain rfl : f = 300 := le_antisymm hle hge
    exact halloc

section OneTable

variable {rw : Bool} {page : ℕ → ℕ}

theorem oneTable_directory {k : ℕ} (hk : k < 1024) :
    ((oneTable rw page).mem 256).get k = ⟨decide (k = 768), rw, false, 0, 257⟩ :=
  Table.get_ofFn (fun k => (⟨decide (k = 768), rw, false, 0, 257⟩ : Entry)) hk

theorem oneTable_page {j : ℕ} (hj : j < 1024) :
    ((oneTable rw page).mem 257).get j = ⟨true, true, true, 0, page j⟩ :=
  Table.get_ofFn (fun j => (⟨true, true, true, 0, page j⟩ : Entry)) hj

theorem translate_oneTable {v : Word} (hv : pdIdx v = 768) :
    translate (.directory 256) (oneTable rw page).mem v = some (page (ptIdx v)) := by
  rw [translate, hv, oneTable_directory (by decide)]
  simp [oneTable_page (ptIdx_lt v)]

theorem tableFrame_oneTable {f : ℕ} (hf : TableFrame 256 (oneTable rw page).mem f) : f = 256 ∨ f = 257 := by
  rcases hf with rfl | ⟨k, hk, -, hframe⟩
  · exact .inl rfl
  · rw [oneTable_directory hk] at hframe
    exact .inr hframe.symm

theorem pageTables_oneTable (hpd : page 256 = 256) (hpt : page 257 = 257) :
    PageTables 256 (oneTable rw page) := by
  have hentry (k : ℕ) (hk : k < 1024) (hpresent : (((oneTable rw page).mem 256).get k).present = true) :
      k = 768 := by
    rw [oneTable_directory hk] at hpresent
    exact of_decide_eq_true hpresent
  refine ⟨⟨rfl, show 0xC0100000#32 = directAddr 256 by decide⟩, fun f hf => ?_, fun f hf => ?_,
    fun k hk _ => ?_, fun k hk j hj hk' hj' _ => (hentry k hk hk').trans (hentry j hj hj').symm,
    fun f hf => ?_⟩
  · rcases tableFrame_oneTable hf with rfl | rfl <;> decide
  · show bitmapTest (oneTable true id).pmm.frameBitmap f = true
    rcases tableFrame_oneTable hf with rfl | rfl <;> decide +kernel
  · rw [oneTable_directory hk]
    exact show 257 ≠ 256 by decide
  · rcases tableFrame_oneTable hf with rfl | rfl
    · exact (translate_oneTable (by decide)).trans (congrArg some hpd)
    · exact (translate_oneTable (by decide)).trans (congrArg some hpt)

end OneTable

/-- Two pages in a new table. -/
theorem paging_map_exact_oneTable :
    PageTables 256 (oneTable true id) ∧ (0xFEBC0000#32).toNat % 4096 = 0 ∧
      (0x40000000#32).toNat % 4096 = 0 ∧ (8192#32).toNat ≤ 2 ^ 32 - 4096 ∧
      Mappable 256 (oneTable true id) 0x40000000#32 2 ∧
      ∃ s', pagingMapMemory (oneTable true id) 0xFEBC0000#32 0x40000000#32 8192#32 = some s' ∧
        physOf s' 0x40001234#32 = some 0xFEBC1234 ∧ physOf s' 0x40002000#32 = none := by
  have h : PageTables 256 (oneTable true id) := pageTables_oneTable rfl rfl
  have hmissing : missing 256 (oneTable true id).mem 0x40000000#32 2 = {256} := by
    ext k
    simp only [missing, Finset.mem_filter, Finset.mem_range, Finset.mem_singleton]
    constructor
    · rintro ⟨-, -, i, hi, rfl⟩
      interval_cases i <;> decide
    · rintro rfl
      exact ⟨by decide, by decide +kernel, 0, by decide, by decide⟩
  have hm : Mappable 256 (oneTable true id) 0x40000000#32 2 := by
    refine ⟨fun f hf => ?_, fun addr haddr => ?_⟩
    · rcases tableFrame_oneTable hf with rfl | rfl <;> (unfold Spares; decide)
    · rw [hmissing, Finset.card_singleton, allocated, allocated, allocFrame_oneTable,
        List.mem_singleton] at haddr
      subst haddr
      exact ⟨by decide, translate_oneTable (by decide), by unfold Spares; decide⟩
  obtain ⟨s', hmap, -, hpages, hothers⟩ := paging_map_exact h 0xFEBC0000#32 0x40000000#32 8192#32
    (by decide) (by decide) (by decide) hm
  refine ⟨h, by decide, by decide, by decide, hm, s', hmap, (hpages _ (by decide)).1, ?_⟩
  rw [(hothers _ (by decide)).2]
  decide +kernel

/-! ### Where the condition is needed -/

theorem pagingMapMemory_one {s s' : Machine} {phys virt : Word} (h : mapPage s phys virt = some s') :
    pagingMapMemory s phys virt 4096#32 =
      some { s' with cr3 := .directory (frameOf (s'.kernelDirectory - kernelBase)) } := by
  have hone : (numPages 4096#32).toNat = 1 := by decide
  have hzero (w : Word) : w + BitVec.ofNat 32 0 * pageSize = w := by simp
  rw [pagingMapMemory, hone]
  simp only [List.range_one, List.foldlM_cons, List.foldlM_nil, hzero, h]
  rfl

/-- The direct map, except that frame 300 is not where it should be. -/
def away : ℕ → ℕ := fun j => if j = 300 then 301 else j

/-- The new table: what is cleared is frame 301, and the directory refers to frame 300. -/
def awayTable : Machine :=
  let s := oneTable true away
  { s with
    pmm := takeFrame s.pmm 300
    mem := Function.update (Function.update s.mem 301 (Table.ofFn fun j =>
      { (s.mem 301).get j with present := false })) 256
      ((s.mem 256).set 256 (Entry.point 300 ((s.mem 256).get 256))) }

theorem tableFor_away : tableFor (oneTable true away) 256 = some (awayTable, directAddr 300) := by
  have hread : readEntry (oneTable true away) (oneTable true away).kernelDirectory 256 =
      some ⟨false, true, false, 0, 257⟩ := by decide +kernel
  have hbase : 0x12C000#32 + kernelBase = directAddr 300 := by decide
  have htr (m : Table 1024 Entry) {v : Word} (hv : pdIdx v = 768) :
      translate (.directory 256) (Function.update (oneTable true away).mem 301 m) v =
        some (away (ptIdx v)) := by
    rw [translate_eq_lookup, lookup_update, ← translate_eq_lookup, translate_oneTable hv]
    intro hf
    rcases tableFrame_oneTable hf with h | h <;> cases h
  rw [tableFor, hread]
  simp only [Option.bind_eq_bind, Option.bind_some, Bool.false_eq_true, if_false, allocFrame_oneTable]
  rw [linkTable, hbase, editTable_eq fun m => htr m (by decide)]
  simp only [Option.bind_eq_bind, Option.bind_some]
  rw [editEntry_eq (f := 256)]
  · rfl
  · exact htr _ (by decide)

/-- The page is written to frame 301 as well. -/
def awayMapped : Machine :=
  { awayTable with
    mem := Function.update awayTable.mem 301
      ((awayTable.mem 301).set 0 (Entry.point 0xFEBC0 ((awayTable.mem 301).get 0))) }

theorem mapPage_away :
    mapPage (oneTable true away) 0xFEBC0000#32 0x40000000#32 = some awayMapped := by
  have hpd : pdIdx 0x40000000#32 = 256 := by decide
  have htr : translate awayTable.cr3 awayTable.mem (directAddr 300) = some 301 := by decide +kernel
  rw [mapPage, hpd, tableFor_away]
  exact editEntry_eq htr

/-- The frame of a new table is reached at the address where the direct map should have it: on a machine
where the page leads elsewhere, the table is filled elsewhere and the page is not mapped. And a directory
entry that grants no write permission is left as it is. -/
theorem paging_map_inexact :
    (PageTables 256 (oneTable true away) ∧
      (allocFrame (oneTable true away).pmm).2 + kernelBase = directAddr 300 ∧
      (∀ f ∈ [256, 257, 300], Spares 0x40000000#32 1 (directAddr f)) ∧
      ∃ s', pagingMapMemory (oneTable true away) 0xFEBC0000#32 0x40000000#32 4096#32 = some s' ∧
        physOf s' 0x40000000#32 = none) ∧
    PageTables 256 (oneTable false id) ∧ (∀ f ∈ [256, 257], Spares 0xC0200000#32 1 (directAddr f)) ∧
      ∃ s' pde pte, pagingMapMemory (oneTable false id) 0xFEBC0000#32 0xC0200000#32 4096#32 = some s' ∧
        lookup 256 s'.mem 0xC0200000#32 = some (pde, pte) ∧ pde.rw = false := by
  constructor
  · refine ⟨pageTables_oneTable rfl rfl, by rw [allocFrame_oneTable]; decide, by unfold Spares; decide, _,
      pagingMapMemory_one mapPage_away, ?_⟩
    decide +kernel
  · have h : PageTables 256 (oneTable false id) := pageTables_oneTable rfl rfl
    have hpresent : (((oneTable false id).mem 256).get (pdIdx 0xC0200000#32)).present = true := by
      rw [oneTable_directory (pdIdx_lt _)]
      decide
    obtain ⟨s', hmap, hmapped, -⟩ := h.mapPage (p := 0xFEBC0000#32) (v := 0xC0200000#32)
      (fun f hf => by rcases tableFrame_oneTable hf with rfl | rfl <;> decide)
      fun habsent => by rw [hpresent] at habsent; cases habsent
    obtain ⟨⟨pde, pte⟩, hlookup, -⟩ := hmapped.page _ rfl
    refine ⟨h, by unfold Spares; decide, _, pde, pte, pagingMapMemory_one hmap, hlookup, ?_⟩
    rw [← (lookup_eq_some.mp hlookup).1]
    rcases hmapped.grown _ (pdIdx_lt 0xC0200000#32) with heq | ⟨habsent, -⟩
    · rw [heq, oneTable_directory (pdIdx_lt _)]
    · rw [hpresent] at habsent
      cases habsent

end PekerOS.Mm
