import PekerOS.Mm.HigherHalf

/-!
# Pages of user programs

`sys_sbrk` and `elf_load` map pages below the higher half in one way: `alloc_frame` gives a frame, and
`paging_map_memory` maps the page to it, with a second frame if there is no page table yet. As long as the
kernel has the frames, every such page gets a frame of its own, and no other page changes.

## Main definitions

* `mapFrame`: a frame is taken and mapped
* `Sound pd s`: the page tables, the direct map of the free frames, and the frames of user pages
* `freeFrames`, `needed`: the frames that there are, and those that mapping some pages takes

## Main results

* `initPaging_sound`: `init_paging` leaves a sound machine
* `Sound.mapFrame`: one page is mapped to a frame that was free
* `Sound.mapFrames`: many pages are
-/

namespace PekerOS.Mm

/-- A round of the loops of `sys_sbrk` and of `elf_load`: `alloc_frame`, and `paging_map_memory` of the one
page to the frame. -/
def mapFrame (s : Machine) (virt : Word) : Option Machine :=
  let (pmm, frame) := allocFrame s.pmm
  pagingMapMemory { s with pmm := pmm } frame virt 4096#32

theorem mapFrame_eq_step (s : Machine) (virt : Word) :
    mapFrame s virt = s.step (.map .allocFrame virt 4096#32) := rfl

/-! ## Frames -/

/-- The number of frames that `alloc_frame` can return. -/
def freeFrames (p : Pmm) : ℕ := Bitmap.clearCount p.frameBitmap 0 (searchLimit p).toNat

/-- `alloc_frame` has returned frame `f`. -/
structure Took (p p' : Pmm) (f : ℕ) : Prop where
  alloc : allocFrame p = (p', BitVec.ofNat 32 f * frameSize)
  returnable : Returnable p f
  test : ∀ g, bitmapTest p'.frameBitmap g = (decide (g = f) || bitmapTest p.frameBitmap g)
  limit : searchLimit p' = searchLimit p
  free : freeFrames p' + 1 = freeFrames p

section Frames

variable {p p' : Pmm} {f g : ℕ}

theorem took_of_free (hp : 0 < freeFrames p) : ∃ p' f, Took p p' f := by
  rcases allocFrame_cases p with ⟨-, hall⟩ | ⟨f, hf, hclear, -, halloc⟩
  · have hnone := Bitmap.clearCount_eq_zero.mpr fun b (_ : 0 ≤ b) hb => hall b hb
    rw [freeFrames, hnone] at hp
    exact absurd hp (lt_irrefl 0)
  · have hlt := (searchLimit_le p).2
    refine ⟨takeFrame p f, f, halloc, ⟨hf, by rwa [bitmapTest_eq]⟩, fun g => ?_, rfl, ?_⟩
    · rw [bitmapTest_eq, bitmapTest_eq, takeFrame_frameBitmap, Bitmap.test_set _ (by omega)]
    · exact Bitmap.clearCount_set (by omega) (Bitmap.mem_clearBits.mpr ⟨⟨Nat.zero_le f, hf⟩, hclear⟩)

theorem Returnable.lt (h : Returnable p f) : f < 262144 := h.1.trans_le (searchLimit_le p).2

theorem Took.frameOf (h : Took p p' f) : frameOf (allocFrame p).2 = f := by
  rw [h.alloc]
  exact frameOf_frame (h.returnable.lt.trans (by decide))

theorem Took.held (h : Took p p' f) (hg : bitmapTest p.frameBitmap g = true) :
    bitmapTest p'.frameBitmap g = true := by
  rw [h.test, hg, Bool.or_true]

theorem Took.held_self (h : Took p p' f) : bitmapTest p'.frameBitmap f = true := by
  rw [h.test, decide_eq_true rfl, Bool.true_or]

/-- What is free afterwards was free, and it is another frame. -/
theorem Took.returnable_of (h : Took p p' f) (hg : Returnable p' g) : Returnable p g ∧ g ≠ f := by
  have hclear := hg.2
  rw [h.test, Bool.or_eq_false_iff, decide_eq_false_iff_not] at hclear
  exact ⟨⟨h.limit ▸ hg.1, hclear.2⟩, hclear.1⟩

theorem returnable_ne (hf : Returnable p f) (hg : bitmapTest p.frameBitmap g = true) : g ≠ f := by
  rintro rfl
  rw [hf.2] at hg
  cases hg

end Frames

/-! ## Sound machines -/

/-- The memory management in order: the kernel reaches its page tables and the frames for new ones, frame 0
is taken, and the pages below the higher half have frames of their own. -/
structure Sound (pd : ℕ) (s : Machine) : Prop where
  tables : PageTables pd s
  table_lt : ∀ f, TableFrame pd s.mem f → f < 262144
  direct : ∀ f, Returnable s.pmm f → translate s.cr3 s.mem (directAddr f) = some f
  zero : bitmapTest s.pmm.frameBitmap 0 = true
  user : ∀ v f, v < kernelBase → translate s.cr3 s.mem v = some f →
    bitmapTest s.pmm.frameBitmap f = true ∧ ¬TableFrame pd s.mem f
  user_inj : ∀ v v' f, v < kernelBase → v' < kernelBase → translate s.cr3 s.mem v = some f →
    translate s.cr3 s.mem v' = some f → frameOf v = frameOf v'

/-- The directory entries of some pages that have no table yet. -/
def missingTables (pd : ℕ) (mem : ℕ → Table 1024 Entry) (vs : List Word) : Finset ℕ :=
  (Finset.range 1024).filter fun k => ((mem pd).get k).present = false ∧ ∃ v ∈ vs, pdIdx v = k

/-- The frames that mapping the pages takes: one for each, and those for the tables. -/
def needed (pd : ℕ) (s : Machine) (vs : List Word) : ℕ := vs.length + (missingTables pd s.mem vs).card

/-- A page below the higher half is not in the direct map. -/
theorem frameOf_ne_directAddr {v : Word} {f : ℕ} (hv : v < kernelBase) (hf : f < 262144) :
    frameOf v ≠ frameOf (directAddr f) := by
  have hbase : kernelBase.toNat = 3221225472 := rfl
  rw [BitVec.lt_def, hbase] at hv
  rw [frameOf_eq, frameOf_directAddr hf]
  omega

/-- A page is mapped to frame `f`, which was free, and no other page changes. -/
structure FrameMapped (pd : ℕ) (s s' : Machine) (v : Word) (f : ℕ) : Prop where
  sound : Sound pd s'
  alloc : (allocFrame s.pmm).2 = BitVec.ofNat 32 f * frameSize
  returnable : Returnable s.pmm f
  page : ∀ v', frameOf v' = frameOf v → translate s'.cr3 s'.mem v' = some f
  other : ∀ v', frameOf v' ≠ frameOf v → translate s'.cr3 s'.mem v' = translate s.cr3 s.mem v'
  held : ∀ g, bitmapTest s.pmm.frameBitmap g = true → bitmapTest s'.pmm.frameBitmap g = true
  limit : searchLimit s'.pmm = searchLimit s.pmm
  free : freeFrames s'.pmm + (if ((s.mem pd).get (pdIdx v)).present then 1 else 2) = freeFrames s.pmm
  present : ((s'.mem pd).get (pdIdx v)).present = true
  entry : ∀ j < 1024, j ≠ pdIdx v → (s'.mem pd).get j = (s.mem pd).get j
  table : ∀ g, TableFrame pd s'.mem g → TableFrame pd s.mem g ∨ Returnable s.pmm g
  tables : ∀ g, TableFrame pd s.mem g → TableFrame pd s'.mem g
  content : ∀ g, ¬TableFrame pd s'.mem g → s'.mem g = s.mem g

section Sound

variable {pd : ℕ} {s s' : Machine} {p' : Pmm} {v : Word} {f : ℕ} {vs : List Word}

/-- The page tables do not depend on the frames that are taken. -/
theorem Sound.took (h : Sound pd s) (ht : Took s.pmm p' f) : PageTables pd { s with pmm := p' } :=
  ⟨⟨h.tables.loaded.cr3, h.tables.loaded.directory⟩, h.tables.frame_lt,
    fun g hg => ht.held (h.tables.held g hg), h.tables.ne, h.tables.inj, h.tables.reach⟩

/-- A frame that is taken is not frame 0. -/
theorem Sound.took_ne_zero (h : Sound pd s) (hf : Returnable s.pmm f) :
    BitVec.ofNat 32 f * frameSize ≠ 0#32 := by
  have hne : (0 : ℕ) ≠ f := returnable_ne hf h.zero
  have hlt := hf.lt
  intro heq
  have hnat := congrArg BitVec.toNat heq
  rw [toNat_frame (by omega)] at hnat
  change f * 4096 = 0 at hnat
  omega

/-- The directory is loaded already. -/
theorem pagingMapMemory_loaded {phys : Word} (h : mapPage s phys v = some s') (hl : Loaded pd s')
    (hpd : pd < 1048576) : pagingMapMemory s phys v 4096#32 = some s' := by
  have hcr3 : Cr3.directory (frameOf (s'.kernelDirectory - kernelBase)) = s'.cr3 := by
    rw [hl.directory, frameOf_directAddr_sub hpd, hl.cr3]
  rw [pagingMapMemory_one h, hcr3]

/-- What the table of a page takes: nothing, or a frame that was free. -/
theorem TableMade.took (h : TableMade pd s s' v)
    (hroom : (if ((s.mem pd).get (pdIdx v)).present then 0 else 1) ≤ freeFrames s.pmm)
    (hlt : ∀ g, TableFrame pd s'.mem g → g < 1048576) :
    (∀ g, bitmapTest s.pmm.frameBitmap g = true → bitmapTest s'.pmm.frameBitmap g = true) ∧
      searchLimit s'.pmm = searchLimit s.pmm ∧
      freeFrames s'.pmm + (if ((s.mem pd).get (pdIdx v)).present then 0 else 1) = freeFrames s.pmm ∧
      (∀ g, Returnable s'.pmm g → Returnable s.pmm g) ∧
      ∀ g, TableFrame pd s'.mem g → TableFrame pd s.mem g ∨ Returnable s.pmm g := by
  have hpmm := h.pmm
  -- a new page table takes one frame, a table that is there none
  cases hpresent : ((s.mem pd).get (pdIdx v)).present with
  | true =>
    rw [hpresent, if_pos rfl] at hpmm
    rw [hpmm, if_pos rfl]
    refine ⟨fun _ hg => hg, rfl, rfl, fun _ hg => hg, fun g hg => ?_⟩
    rcases h.frames g hg with hold | ⟨habsent, -⟩
    · exact .inl hold
    · rw [hpresent] at habsent
      cases habsent
  | false =>
    rw [hpresent, if_neg Bool.false_ne_true] at hroom
    obtain ⟨p', f, ht⟩ := took_of_free hroom
    rw [hpresent, if_neg Bool.false_ne_true, ht.alloc] at hpmm
    replace hpmm : s'.pmm = p' := hpmm
    rw [hpmm, if_neg Bool.false_ne_true]
    refine ⟨fun _ hg => ht.held hg, ht.limit, ht.free, fun _ hg => (ht.returnable_of hg).1, fun g hg => ?_⟩
    rcases h.frames g hg with hold | ⟨-, haddr⟩
    · exact .inl hold
    · -- the new table is in the frame just taken
      rw [ht.alloc] at haddr
      have hframe := frameOf_directAddr_sub (hlt g hg)
      rw [haddr, BitVec.add_sub_cancel, frameOf_frame (ht.returnable.lt.trans (by decide))] at hframe
      exact .inr (hframe ▸ ht.returnable)

/-- **One page** below the higher half is mapped to a frame that was free. -/
theorem Sound.mapFrame (h : Sound pd s) (hv : v < kernelBase)
    (hroom : (if ((s.mem pd).get (pdIdx v)).present then 1 else 2) ≤ freeFrames s.pmm) :
    ∃ s' f, Mm.mapFrame s v = some s' ∧ FrameMapped pd s s' v f := by
  obtain ⟨p₁, f, ht⟩ := took_of_free (p := s.pmm) (by split at hroom <;> omega)
  have hfree := ht.free
  have hpage : frameOf (BitVec.ofNat 32 f * frameSize) = f :=
    frameOf_frame (ht.returnable.lt.trans (by decide))
  have hcost : (if ((s.mem pd).get (pdIdx v)).present then 1 else 2) =
      (if ((s.mem pd).get (pdIdx v)).present then 0 else 1) + 1 := by split <;> rfl
  have hroom' : (if ((s.mem pd).get (pdIdx v)).present then 0 else 1) ≤ freeFrames p₁ := by omega
  obtain ⟨s', hmap, hmapped, hmade⟩ := (h.took ht).mapPage (p := BitVec.ofNat 32 f * frameSize)
    (fun g hg => frameOf_ne_directAddr hv (h.table_lt g hg)) fun habsent => by
      -- the frame for the table that is missing
      change ((s.mem pd).get (pdIdx v)).present = false at habsent
      rw [habsent, if_neg Bool.false_ne_true] at hroom'
      obtain ⟨p₂, g, ht₂⟩ := took_of_free hroom'
      obtain ⟨hg, -⟩ := ht.returnable_of ht₂.returnable
      dsimp only
      rw [ht₂.alloc]
      refine ⟨h.took_ne_zero hg, ?_, frameOf_ne_directAddr hv hg.lt⟩
      rw [frameOf_frame (hg.lt.trans (by decide))]
      exact h.direct g hg
  obtain ⟨hheld, hlimit, hused, hreturn, htable⟩ := hmade.took hroom' hmapped.tables.frame_lt
  dsimp only at hheld hlimit hused hreturn htable
  have hl := hmapped.tables.loaded
  have htr (v' : Word) : translate s'.cr3 s'.mem v' = (lookup pd s'.mem v').map fun e => e.2.frame := by
    rw [hl.cr3, translate_eq_lookup]
  have hself (v' : Word) (hv' : frameOf v' = frameOf v) : translate s'.cr3 s'.mem v' = some f := by
    obtain ⟨e, he, hframe, -⟩ := hmapped.page v' hv'
    rw [htr, he, Option.map_some, hframe, hpage]
  have hother (v' : Word) (hv' : frameOf v' ≠ frameOf v) :
      translate s'.cr3 s'.mem v' = translate s.cr3 s.mem v' := by
    rw [htr, hmapped.other v' hv', h.tables.loaded.cr3, translate_eq_lookup]
  -- a frame that was held is no new table
  have hno (g : ℕ) (hg : bitmapTest p₁.frameBitmap g = true) (hold : ¬TableFrame pd s.mem g) :
      ¬TableFrame pd s'.mem g := by
    intro hgt
    rcases htable g hgt with hgt | hret
    · exact hold hgt
    · exact returnable_ne hret hg rfl
  have huser (v' : Word) (g : ℕ) (hv' : v' < kernelBase) (hg : translate s'.cr3 s'.mem v' = some g) :
      frameOf v' = frameOf v ∧ g = f ∨
        translate s.cr3 s.mem v' = some g ∧ bitmapTest s.pmm.frameBitmap g = true := by
    by_cases heq : frameOf v' = frameOf v
    · exact .inl ⟨heq, (Option.some.inj ((hself v' heq).symm.trans hg)).symm⟩
    · have hold := (hother v' heq).symm.trans hg
      exact .inr ⟨hold, (h.user v' g hv' hold).1⟩
  refine ⟨s', f, ?_, ⟨hmapped.tables, fun g hg => ?_, fun g hg => ?_, ?_, fun v' g hv' hg => ?_,
    fun v' v'' g hv' hv'' hg hg' => ?_⟩, by rw [ht.alloc], ht.returnable, hself, hother,
    fun g hg => hheld g (ht.held hg), hlimit.trans ht.limit, ?_, hmade.present, hmade.other,
    fun g hg => ?_, hmade.tables, hmade.content⟩
  · rw [Mm.mapFrame, ht.alloc]
    exact pagingMapMemory_loaded hmap hl (h.tables.frame_lt pd (.inl rfl))
  · rcases htable g hg with hold | hret
    · exact h.table_lt g hold
    · exact hret.lt
  · obtain ⟨hret, -⟩ := ht.returnable_of (hreturn g hg)
    rw [hother _ (frameOf_ne_directAddr hv hret.lt).symm]
    exact h.direct g hret
  · exact hheld 0 (ht.held h.zero)
  · rcases huser v' g hv' hg with ⟨-, rfl⟩ | ⟨hold, hheld'⟩
    · refine ⟨hheld g ht.held_self, hno g ht.held_self (h.tables.notMem_of_clear ?_)⟩
      rw [← bitmapTest_eq]
      exact ht.returnable.2
    · exact ⟨hheld g (ht.held hheld'), hno g (ht.held hheld') (h.user v' g hv' hold).2⟩
  · rcases huser v' g hv' hg with ⟨heq, rfl⟩ | ⟨hold, hheld'⟩ <;>
      rcases huser v'' g hv'' hg' with ⟨heq', hf⟩ | ⟨hold', hheld''⟩
    · exact heq.trans heq'.symm
    · exact absurd rfl (returnable_ne ht.returnable hheld'')
    · exact absurd hf (returnable_ne ht.returnable hheld')
    · exact h.user_inj v' v'' g hv' hv'' hold hold'
  · omega
  · exact (htable g hg).imp_right fun hret => (ht.returnable_of hret).1

theorem needed_le (pd : ℕ) (s : Machine) (vs : List Word) : needed pd s vs ≤ 2 * vs.length := by
  have hsub : missingTables pd s.mem vs ⊆ (vs.map pdIdx).toFinset := by
    intro k hk
    obtain ⟨-, -, v, hv, hvk⟩ := Finset.mem_filter.mp hk
    exact List.mem_toFinset.mpr (List.mem_map.mpr ⟨v, hv, hvk⟩)
  have hcard := (Finset.card_le_card hsub).trans (List.toFinset_card_le _)
  rw [List.length_map] at hcard
  rw [needed]
  omega

/-- The frames for the pages that are left. -/
theorem FrameMapped.needed (h : FrameMapped pd s s' v f)
    (hroom : Mm.needed pd s (v :: vs) ≤ freeFrames s.pmm) : Mm.needed pd s' vs ≤ freeFrames s'.pmm := by
  have hfree := h.free
  have hsub : missingTables pd s'.mem vs ⊆ (missingTables pd s.mem (v :: vs)).erase (pdIdx v) := by
    intro k hk
    obtain ⟨hlt, habsent, w, hw, hwk⟩ := Finset.mem_filter.mp hk
    have hne : k ≠ pdIdx v := by
      rintro rfl
      rw [h.present] at habsent
      cases habsent
    rw [h.entry k (Finset.mem_range.mp hlt) hne] at habsent
    exact Finset.mem_erase.mpr ⟨hne,
      Finset.mem_filter.mpr ⟨hlt, habsent, w, List.mem_cons_of_mem v hw, hwk⟩⟩
  have hcard := Finset.card_le_card hsub
  rw [Mm.needed, List.length_cons] at hroom
  rw [Mm.needed]
  cases hpresent : ((s.mem pd).get (pdIdx v)).present with
  | true =>
    have := Finset.card_erase_le (s := missingTables pd s.mem (v :: vs)) (a := pdIdx v)
    rw [hpresent, if_pos rfl] at hfree
    omega
  | false =>
    have hmem : pdIdx v ∈ missingTables pd s.mem (v :: vs) :=
      Finset.mem_filter.mpr ⟨Finset.mem_range.mpr (pdIdx_lt v), hpresent, v, List.mem_cons_self, rfl⟩
    have := Finset.card_erase_add_one hmem
    rw [hpresent, if_neg Bool.false_ne_true] at hfree
    omega

/-- There are frames for the first page. -/
theorem needed_first (hroom : needed pd s (v :: vs) ≤ freeFrames s.pmm) :
    (if ((s.mem pd).get (pdIdx v)).present then 1 else 2) ≤ freeFrames s.pmm := by
  rw [needed, List.length_cons] at hroom
  cases hpresent : ((s.mem pd).get (pdIdx v)).present with
  | true =>
    rw [if_pos rfl]
    omega
  | false =>
    have hmem : pdIdx v ∈ missingTables pd s.mem (v :: vs) :=
      Finset.mem_filter.mpr ⟨Finset.mem_range.mpr (pdIdx_lt v), hpresent, v, List.mem_cons_self, rfl⟩
    have := Finset.card_pos.mpr ⟨_, hmem⟩
    rw [if_neg Bool.false_ne_true]
    omega

theorem FrameMapped.returnable_of (h : FrameMapped pd s s' v f) {g : ℕ} (hg : Returnable s'.pmm g) :
    Returnable s.pmm g := by
  refine ⟨h.limit ▸ hg.1, ?_⟩
  by_contra hheld
  have := h.held g (by simpa using hheld)
  rw [hg.2] at this
  cases this

/-- Some pages are mapped to frames that were free, and no other page changes. -/
structure FramesMapped (pd : ℕ) (s s' : Machine) (vs : List Word) : Prop where
  sound : Sound pd s'
  page : ∀ v, (∃ w ∈ vs, frameOf w = frameOf v) →
    ∃ f, Returnable s.pmm f ∧ translate s'.cr3 s'.mem v = some f
  other : ∀ v, (∀ w ∈ vs, frameOf w ≠ frameOf v) → translate s'.cr3 s'.mem v = translate s.cr3 s.mem v
  returnable : ∀ g, Returnable s'.pmm g → Returnable s.pmm g
  held : ∀ g, bitmapTest s.pmm.frameBitmap g = true → bitmapTest s'.pmm.frameBitmap g = true
  table : ∀ g, TableFrame pd s'.mem g → TableFrame pd s.mem g ∨ Returnable s.pmm g
  tables : ∀ g, TableFrame pd s.mem g → TableFrame pd s'.mem g
  content : ∀ g, ¬TableFrame pd s'.mem g → s'.mem g = s.mem g

/-- **Many pages**, with frames left for others. -/
theorem Sound.mapFrames {ws : List Word} (h : Sound pd s) (hvs : ∀ v ∈ vs, v < kernelBase)
    (hroom : needed pd s (vs ++ ws) ≤ freeFrames s.pmm) :
    ∃ s', vs.foldlM Mm.mapFrame s = some s' ∧ FramesMapped pd s s' vs ∧
      needed pd s' ws ≤ freeFrames s'.pmm := by
  induction vs generalizing s with
  | nil =>
    exact ⟨s, rfl, ⟨h, fun v ⟨w, hw, _⟩ => absurd hw List.not_mem_nil, fun _ _ => rfl, fun _ hg => hg,
      fun _ hg => hg, fun _ hg => .inl hg, fun _ hg => hg, fun _ _ => rfl⟩, hroom⟩
  | cons v vs ih =>
    obtain ⟨s₁, f, hmap, hmapped⟩ := h.mapFrame (hvs v List.mem_cons_self) (needed_first hroom)
    -- the frames left suffice for the pages still to come
    obtain ⟨s', hrun, hrest, hleft⟩ := ih hmapped.sound (fun w hw => hvs w (List.mem_cons_of_mem v hw))
      (hmapped.needed hroom)
    refine ⟨s', ?_, ⟨hrest.sound, fun w hw => ?_, fun w hw => ?_,
      fun g hg => hmapped.returnable_of (hrest.returnable g hg),
      fun g hg => hrest.held g (hmapped.held g hg),
      fun g hg => ?_, fun g hg => hrest.tables g (hmapped.tables g hg), fun g hg => ?_⟩, hleft⟩
    · rw [List.foldlM_cons, hmap]
      exact hrun
    · by_cases hlater : ∃ x ∈ vs, frameOf x = frameOf w
      · obtain ⟨g, hg, htr⟩ := hrest.page w hlater
        exact ⟨g, hmapped.returnable_of hg, htr⟩
      · -- the page is the first one, and not mapped again
        obtain ⟨x, hx, heq⟩ := hw
        rcases List.mem_cons.mp hx with rfl | hx
        · refine ⟨f, hmapped.returnable, ?_⟩
          rw [hrest.other w fun y hy hyw => hlater ⟨y, hy, hyw⟩, hmapped.page w heq.symm]
        · exact absurd ⟨x, hx, heq⟩ hlater
    · rw [hrest.other w fun x hx => hw x (List.mem_cons_of_mem v hx),
        hmapped.other w (hw v List.mem_cons_self).symm]
    · rcases hrest.table g hg with hold | hret
      · exact hmapped.table g hold
      · exact .inr (hmapped.returnable_of hret)
    · rw [hrest.content g hg, hmapped.content g fun hold => hg (hrest.tables g hold)]

end Sound

/-! ## After `init_paging` -/

/-- `init_paging` leaves a sound machine. -/
theorem initPaging_sound {s : Machine} {sec : Sections} (h : Booted s)
    (hcount : directTables s.pmm + 1 ≤
      Bitmap.clearCount s.pmm.frameBitmap 0 (min (searchLimit s.pmm).toNat 131072)) :
    ∃ s' pd, initPaging sec s = some s' ∧ Sound pd s' := by
  obtain ⟨s', pd, hinit, hhalf, htables, hkept⟩ := @initPaging_higherHalf _ sec h hcount
  -- no page below the higher half is mapped
  have hnone (v : Word) (hv : v < kernelBase) : translate s'.cr3 s'.mem v = none := by
    rw [htables.loaded.cr3, translate_eq_lookup, hhalf.other v fun f hf => ?_, Option.map_none]
    exact frameOf_ne_directAddr hv (by omega)
  refine ⟨s', pd, hinit, htables, fun f hf => ?_, fun f hf => ?_, ?_, fun v f hv hf => ?_,
    fun v v' f hv _ hf _ => ?_⟩
  · by_contra hge
    have hlt := htables.frame_lt f hf
    have hreach := htables.reach f hf
    rw [hnone _ ?_] at hreach
    · cases hreach
    · rw [BitVec.lt_def, directAddr, BitVec.toNat_add, toNat_frame hlt]
      change (f * 4096 + 3221225472) % 2 ^ 32 < 3221225472
      omega
  · have hlimit := h.limit
    have hf' := hf.1
    rw [searchLimit, hkept.1, ← searchLimit] at hf'
    have hphys := (hhalf.page f (by omega)).1
    have hoff : (directAddr f).toNat % 4096 = 0 := by
      rw [toNat_directAddr hf.lt]
      omega
    rw [physOf, hoff] at hphys
    obtain ⟨g, hg, heq⟩ := Option.map_eq_some_iff.mp hphys
    rw [hg, show g = f by omega]
  · rw [bitmapTest_eq]
    exact hkept.2 0 h.zero
  · rw [hnone v hv] at hf
    cases hf
  · rw [hnone v hv] at hf
    cases hf

/-- The machine with one table has no user pages. -/
theorem oneTable_user {v : Word} (hv : v < kernelBase) :
    translate (.directory 256) (oneTable true id).mem v = none := by
  rw [BitVec.lt_def] at hv
  change v.toNat < 3221225472 at hv
  have hne : pdIdx v ≠ 768 := by
    rw [pdIdx_eq]
    omega
  rw [translate_eq_lookup, lookup_of_absent, Option.map_none]
  rw [oneTable_directory (pdIdx_lt v)]
  exact decide_eq_false hne

theorem sound_oneTable : Sound 256 (oneTable true id) := by
  refine ⟨pageTables_oneTable rfl rfl, fun f hf => ?_, fun f hf => ?_, by decide +kernel,
    fun v f hv hf => ?_, fun v v' f hv _ hf _ => ?_⟩
  · rcases tableFrame_oneTable hf with rfl | rfl <;> decide
  · have hlt : f < 1024 := hf.1
    refine (translate_oneTable ?_).trans (congrArg some ?_)
    · rw [pdIdx_directAddr (by omega)]
      omega
    · rw [id, ptIdx_directAddr (by omega)]
      omega
  · exact absurd (hf.symm.trans (oneTable_user hv)) nofun
  · exact absurd (hf.symm.trans (oneTable_user hv)) nofun

end PekerOS.Mm
