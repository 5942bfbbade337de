import PekerOS.Mm.BootMap
import PekerOS.Mm.PageMap
import PekerOS.Mm.PagingRuns

/-!
# The map that `init_paging` builds

`init_paging` fills the directory and the tables while the tables of `boot.s` are still in use, and these
map 512 MB. So it is not enough that `alloc_frame` has frames for the tables, which it takes from the
first gigabyte: the first of them, as many as there are tables, must lie below 512 MB. If they do, the
map is the one that the loops describe, page by page.

## Main definitions

* `Readonly sec v`: the pages that are write-protected
* `HigherHalf sec n pd s`: the first `n` frames are mapped at `0xC0000000`, and nothing else is

## Main results

* `initPaging_higherHalf`, `initPaging_faults`: what `init_paging` does with and without such frames
* `higher_half_iff`: it builds the map if and only if there are such frames
-/

namespace PekerOS.Mm

/-- An address in the text or in the read-only data. -/
def Readonly (sec : Sections) (v : Word) : Prop :=
  sec.textStart ≤ v ∧ v < sec.textEnd ∨ sec.rodataStart ≤ v ∧ v < sec.rodataEnd

instance (sec : Sections) (v : Word) : Decidable (Readonly sec v) :=
  inferInstanceAs (Decidable (_ ∨ _))

/-- The higher half maps the first `n` frames, the text and the read-only data for reading, and no other
page is mapped; each table is referred to once. -/
structure HigherHalf (sec : Sections) (n pd : ℕ) (s : Machine) : Prop where
  cr3 : s.cr3 = .directory pd
  page : ∀ f < n, physOf s (directAddr f) = some (f * 4096) ∧
    ∃ pde pte, lookup pd s.mem (directAddr f) = some (pde, pte) ∧ pde.rw = true ∧
      (pte.rw = false ↔ Readonly sec (directAddr f))
  other : ∀ v, (∀ f < n, frameOf v ≠ frameOf (directAddr f)) → lookup pd s.mem v = none
  tables : ∀ k < 1024, ∀ j < 1024, ((s.mem pd).get k).present = true →
    ((s.mem pd).get j).present = true → ((s.mem pd).get k).frame = ((s.mem pd).get j).frame → k = j

section Finished

variable {p₀ : Pmm} {b m pd : ℕ} {T : ℕ → ℕ} {s : Machine} {sec : Sections} {total : Word}

/-- What `init_paging` computes for an entry. -/
theorem directEntry_eq (sec : Sections) (total : Word) {i j : ℕ} (e : Entry) (hi : i < 256)
    (hj : j < 1024) :
    directEntry sec total i j e =
      if i * 1024 + j < total.toNat then
        { e with
          present := true, rw := !decide (Readonly sec (directAddr (i * 1024 + j))), user := true,
          frame := i * 1024 + j }
      else { e with present := false } := by
  have hidx : BitVec.ofNat 32 i * 1024#32 + BitVec.ofNat 32 j = BitVec.ofNat 32 (i * 1024 + j) := by
    apply BitVec.eq_of_toNat_eq
    simp only [BitVec.toNat_add, BitVec.toNat_mul, BitVec.toNat_ofNat]
    omega
  have hnat : (BitVec.ofNat 32 (i * 1024 + j)).toNat = i * 1024 + j := by
    rw [BitVec.toNat_ofNat]
    omega
  rw [directEntry, hidx]
  refine if_congr (by rw [BitVec.lt_def, hnat]) ?_ rfl
  rw [hnat, Nat.mod_eq_of_lt (by omega)]
  rfl

theorem frameOf_directAddr {f : ℕ} (hf : f < 262144) : frameOf (directAddr f) = 786432 + f := by
  rw [frameOf_eq, toNat_directAddr hf]
  omega

/-- An entry of the directory that is present is that of a table. -/
theorem Building.table_of_present (hB : Building p₀ b total.toNat m T pd s) {k : ℕ} (hk : k < 1024)
    (hpresent : ((s.mem pd).get k).present = true) :
    768 ≤ k ∧ k - 768 < m ∧ ((s.mem pd).get k).frame = T (k - 768) := by
  have hrange : 768 ≤ k ∧ k < 768 + m := by
    by_contra hout
    rw [hB.absent k hk (by omega)] at hpresent
    cases hpresent
  have hframe := (hB.pde (k - 768) (by omega)).2
  rw [show 768 + (k - 768) = k by omega] at hframe
  exact ⟨hrange.1, by omega, hframe⟩

/-- **The finished tables** are the higher half. -/
theorem Building.higherHalf (hB : Building p₀ b total.toNat m T pd s) (hF : Filled sec total m T pd s)
    {n : ℕ} (hn : n = min total.toNat 262144) (hm : m = (n + 1023) / 1024) :
    HigherHalf sec n pd { s with cr3 := .directory pd } := by
  -- what the table filled in phase two has in each entry
  have hentry {i j : ℕ} (hi : i < m) (hj : j < 1024) : ∃ e : Entry, (s.mem (T i)).get j =
      if i * 1024 + j < total.toNat then
        { e with
          present := true, rw := !decide (Readonly sec (directAddr (i * 1024 + j))), user := true,
          frame := i * 1024 + j }
      else { e with present := false } := by
    obtain ⟨e, he⟩ := hF.entry i hi j hj
    exact ⟨e, he.trans (directEntry_eq sec total e (by omega) hj)⟩
  refine ⟨rfl, fun f hf => ?_, fun v hv => ?_, fun k hk j hj hpresent hpresent' heq => ?_⟩
  · -- frame `f` is entry `f % 1024` of table `f / 1024`
    have hpde := hB.pde (f / 1024) (by omega)
    obtain ⟨e, he⟩ := hentry (i := f / 1024) (j := f % 1024) (by omega) (Nat.mod_lt _ (by decide))
    rw [show f / 1024 * 1024 + f % 1024 = f by omega, if_pos (by omega)] at he
    have hlookup : lookup pd s.mem (directAddr f) =
        some ((s.mem pd).get (768 + f / 1024), (s.mem (T (f / 1024))).get (f % 1024)) := by
      refine lookup_eq_some.mpr ⟨?_, hpde.1, ?_, by rw [he]⟩
      · rw [pdIdx_directAddr (by omega)]
      · rw [ptIdx_directAddr (by omega), hpde.2]
    refine ⟨?_, _, _, hlookup, hF.writable _ (by omega), by simp [he]⟩
    have hoff : (directAddr f).toNat % 4096 = 0 := by
      rw [toNat_directAddr (by omega)]
      omega
    rw [physOf, translate_eq_lookup]
    dsimp only
    rw [hlookup, hoff, Option.map_some, Option.map_some, he, Nat.add_zero]
  · -- an address of no frame has no table, or an entry that is not present
    cases hpresent : ((s.mem pd).get (pdIdx v)).present with
    | false => exact lookup_of_absent hpresent
    | true =>
      obtain ⟨hlo, hi, hframe⟩ := hB.table_of_present (pdIdx_lt v) hpresent
      obtain ⟨e, he⟩ := hentry hi (ptIdx_lt v)
      rw [if_neg] at he
      · refine if_neg fun hp => ?_
        have hpte := hp.2
        dsimp only at hpte
        rw [hframe, he] at hpte
        cases hpte
      · -- otherwise the page is that of a frame
        intro hlt
        have hlt' := ptIdx_lt v
        refine hv ((pdIdx v - 768) * 1024 + ptIdx v) (by omega) ?_
        rw [frameOf_directAddr (by omega), frameOf_eq_idx]
        omega
  · -- two directory entries never share a table
    obtain ⟨hk', hi, hframe⟩ := hB.table_of_present hk hpresent
    obtain ⟨hj', hi', hframe'⟩ := hB.table_of_present hj hpresent'
    have := hB.table_inj _ hi _ hi' (hframe.symm.trans (heq.trans hframe'))
    omega

/-- They are the page tables that `paging_map_memory` starts from. -/
theorem Building.pageTables (hB : Building p₀ b total.toNat m T pd s) {n : ℕ}
    (h : HigherHalf sec n pd { s with cr3 := .directory pd }) (hb : b ≤ min n 131072) :
    PageTables pd { s with cr3 := .directory pd } := by
  have hframe {f : ℕ} (hf : TableFrame pd s.mem f) : f < b ∧ bitmapTest s.pmm.frameBitmap f = true := by
    rw [bitmapTest_eq]
    rcases hf with rfl | ⟨k, hk, hpresent, rfl⟩
    · exact ⟨hB.pd_lt.1, hB.kept.pd_marked⟩
    · obtain ⟨-, hi, hT⟩ := hB.table_of_present hk hpresent
      exact hT ▸ ⟨hB.table_lt _ hi, hB.kept.table_marked _ hi⟩
  refine ⟨⟨rfl, hB.directory⟩, fun f hf => ?_, fun f hf => (hframe hf).2, fun k hk hpresent => ?_,
    h.tables, fun f hf => ?_⟩
  · have := (hframe hf).1
    omega
  · obtain ⟨-, hi, hT⟩ := hB.table_of_present hk hpresent
    exact hT ▸ hB.table_ne _ hi
  · have hlt := (hframe hf).1
    have hphys := (h.page f (by omega)).1
    have hoff : (directAddr f).toNat % 4096 = 0 := by
      rw [toNat_directAddr (by omega)]
      omega
    rw [physOf, hoff] at hphys
    obtain ⟨g, hg, heq⟩ := Option.map_eq_some_iff.mp hphys
    rw [hg, show g = f by omega]

end Finished

section Init

variable {s : Machine} {sec : Sections}

/-- The state that `init_pmm` leaves for `init_paging`, with `boot.s` in use. -/
structure Booted (s : Machine) : Prop where
  cr3 : s.cr3 = .boot
  kb : s.pmm.totalMemoryKb.toNat < 4194304
  total : s.pmm.totalFrames.toNat = s.pmm.totalMemoryKb.toNat / 4
  zero : Bitmap.test s.pmm.frameBitmap 0 = true

theorem Booted.limit (h : Booted s) :
    (searchLimit s.pmm).toNat = min (s.pmm.totalMemoryKb.toNat / 4) 262144 := by
  rw [searchLimit_eq, h.total]

/-- With frames for its tables below 512 MB, `init_paging` builds the map. -/
theorem initPaging_higherHalf (h : Booted s) (hcount : directTables s.pmm + 1 ≤
      Bitmap.clearCount s.pmm.frameBitmap 0 (min (searchLimit s.pmm).toNat 131072)) :
    ∃ s' pd, initPaging sec s = some s' ∧
      HigherHalf sec (min (s.pmm.totalMemoryKb.toNat / 4) 262144) pd s' ∧ PageTables pd s' ∧
      s'.pmm.totalFrames = s.pmm.totalFrames ∧
      ∀ f, Bitmap.test s.pmm.frameBitmap f = true → Bitmap.test s'.pmm.frameBitmap f = true := by
  have hframes := pagingFrames_eq h.kb
  have hlimit := h.limit
  rcases initPaging_cases sec h.cr3 h.total h.kb h.zero (min_le_left _ _) hcount with
    ⟨-, hlt⟩ | ⟨s', T, pd, hinit, hB, hF⟩
  · omega
  · have hhalf := hB.higherHalf hF (by rw [hframes]) (by rw [directTables, h.limit])
    exact ⟨_, pd, hinit, hhalf, hB.pageTables hhalf (by omega), hB.kept.total, hB.kept.mono⟩

/-- A round whose table would be past the map of `boot.s`. -/
theorem Building.fault (sec : Sections) {p₀ : Pmm} {b m pd : ℕ} {T : ℕ → ℕ} {total : Word}
    (hB : Building p₀ b total.toNat m T pd s) (hb : b ≤ (searchLimit p₀).toNat)
    (hsome : 0 < Bitmap.clearCount s.pmm.frameBitmap 0 b)
    (hnone : Bitmap.clearCount s.pmm.frameBitmap 0 (min b 131072) = 0) :
    directTable sec total s m = none := by
  have hlimit : searchLimit s.pmm = searchLimit p₀ := by rw [searchLimit, searchLimit, hB.kept.total]
  have hsearch := (searchLimit_le p₀).2
  obtain ⟨a, hab, hclear, halloc⟩ := allocFrame_below (p := s.pmm) (hlimit ▸ hb) hsome
  have ha : 131072 ≤ a := by
    by_contra hlt
    rw [Bitmap.clearCount_eq_zero.mp hnone a (Nat.zero_le a) (by omega)] at hclear
    cases hclear
  have htr : translate s.cr3 s.mem (directAddr a) = none := by
    rw [hB.cr3, translate_boot _ (by omega), if_neg (by omega)]
  have hfault := editTable_fault (s := { s with pmm := takeFrame s.pmm a })
    (h := directEntry sec total m) htr
  rw [directAddr] at hfault
  rw [directTable, halloc]
  dsimp only
  rw [linkTable, hfault]
  rfl

/-- A loop that stops early. -/
theorem foldlM_range_none {α : Type*} {f : α → ℕ → Option α} {s s' : α} {n k : ℕ}
    (hrun : (List.range n).foldlM f s = some s') (hstop : f s' n = none) (hn : n < k) :
    (List.range k).foldlM f s = none := by
  induction k with
  | zero => exact absurd hn (Nat.not_lt_zero n)
  | succ k ih =>
    rw [List.range_succ, List.foldlM_append]
    rcases Nat.lt_succ_iff_lt_or_eq.mp hn with hlt | rfl
    · rw [ih hlt]
      rfl
    · rw [hrun]
      simp [hstop]

/-- Without, it takes one past 512 MB and faults. -/
theorem initPaging_faults (h : Booted s) (hframes : directTables s.pmm + 1 ≤
      Bitmap.clearCount s.pmm.frameBitmap 0 (searchLimit s.pmm).toNat)
    (hcount : Bitmap.clearCount s.pmm.frameBitmap 0 (min (searchLimit s.pmm).toNat 131072) <
      directTables s.pmm + 1) :
    initPaging sec s = none := by
  have hlimit := h.limit
  have hsearch := searchLimit_le s.pmm
  obtain ⟨a, ha, hclear, halloc⟩ := allocFrame_below (p := s.pmm) le_rfl (by omega)
  obtain ⟨s₁, ⟨hfault, -⟩ | ⟨hboot, hinit, hB, hF⟩⟩ :=
    initPaging_start sec h.cr3 h.total h.kb h.zero ha hclear halloc
  · exact hfault
  · -- the run goes on until the frames below 512 MB are used up
    have hlow := hB (min (searchLimit s.pmm).toNat 131072) (by omega)
    have hall := hB (searchLimit s.pmm).toNat ha
    have hone := hlow.count
    obtain ⟨n, hn⟩ : ∃ n, Bitmap.clearCount s.pmm.frameBitmap 0 (min (searchLimit s.pmm).toNat 131072) =
        n + 1 := ⟨_, hone.symm⟩
    have hn256 : n ≤ 256 := by
      rw [directTables] at hcount
      omega
    have hmore : n + 1 ≤ Bitmap.clearCount s.pmm.frameBitmap 0 (searchLimit s.pmm).toNat := by omega
    rcases hlow.run hF h.zero (min_le_left _ _) hn256 hn.ge with ⟨-, hlt⟩ | ⟨s', T, hrun, hlow', -⟩
    · omega
    · rcases hall.run hF h.zero le_rfl hn256 hmore with ⟨hfault, -⟩ | ⟨s'', T', hrun', hall', -⟩
      · rw [hrun] at hfault
        cases hfault
      · obtain rfl := Option.some.inj (hrun.symm.trans hrun')
        have hused := hlow'.count
        have hleft := hall'.count
        have hround := hall'.fault sec le_rfl (by omega) (by omega)
        rw [hinit, foldlM_range_none hrun hround (by omega)]
        rfl

end Init

/-- **`init_paging` builds exactly the higher half** if and only if the frames for its tables lie below
512 MB. -/
theorem higher_half_iff {image : KernelImage} {mbi : MultibootInfo} {mem : Word → Word} {fuel : ℕ}
    (sec : Sections) {s : Machine} (hpmm : initPmm image mbi mem fuel = some s.pmm)
    (hboot : s.cr3 = .boot) (hkb : s.pmm.totalMemoryKb.toNat < 4194304)
    (hframes : directTables s.pmm + 1 ≤
      Bitmap.clearCount s.pmm.frameBitmap 0 (searchLimit s.pmm).toNat) :
    (∃ s' pd, initPaging sec s = some s' ∧
      HigherHalf sec (min (s.pmm.totalMemoryKb.toNat / 4) 262144) pd s') ↔
      directTables s.pmm + 1 ≤
        Bitmap.clearCount s.pmm.frameBitmap 0 (min (searchLimit s.pmm).toNat 131072) := by
  obtain ⟨htotal, hkb'⟩ := initPmm_totals hpmm
  have hcount := Bitmap.clearCount_le s.pmm.frameBitmap 0 (searchLimit s.pmm).toNat
  have hsearch := searchLimit_le s.pmm
  have hbooted : Booted s := ⟨hboot, hkb, by rw [htotal, hkb', frameCount_eq (hkb' ▸ hkb)],
    (HoldInv.init hpmm).reserved 0 (show 0 < s.pmm.totalFrames.toNat by omega) (.inl (by decide))⟩
  constructor
  · rintro ⟨s', pd, hinit, -⟩
    by_contra hlow
    rw [initPaging_faults hbooted hframes (not_le.mp hlow)] at hinit
    cases hinit
  · intro hlow
    obtain ⟨s', pd, hinit, hhalf, -⟩ := initPaging_higherHalf hbooted hlow
    exact ⟨s', pd, hinit, hhalf⟩

/-- With 512 MB, frame 512 is mapped. -/
theorem higher_half_large : ∃ s s' pd, initPaging ⟨0xC0100000#32, 0xC0101000#32, 0#32, 0#32⟩ s = some s' ∧
    HigherHalf ⟨0xC0100000#32, 0xC0101000#32, 0#32, 0#32⟩ 131072 pd s' := by
  obtain ⟨p, hpmm, htotal, hkb, hclear⟩ := initPmm_large
  have hlimit : (searchLimit p).toNat = 131072 := by rw [searchLimit_eq, htotal]; rfl
  have htables : directTables p = 128 := by rw [directTables, hlimit]
  have hcount := clearCount_large hclear le_rfl
  have hiff := higher_half_iff (s := largeMachine p) ⟨0xC0100000#32, 0xC0101000#32, 0#32, 0#32⟩ hpmm rfl
    (show p.totalMemoryKb.toNat < 4194304 by rw [hkb]; decide)
    (show directTables p + 1 ≤ Bitmap.clearCount p.frameBitmap 0 (searchLimit p).toNat by
      rw [hlimit]; omega)
  obtain ⟨s', pd, hinit, hhalf⟩ := hiff.mpr (show directTables p + 1 ≤
    Bitmap.clearCount p.frameBitmap 0 (min (searchLimit p).toNat 131072) by
      rw [hlimit, min_self]; omega)
  have hn : min (p.totalMemoryKb.toNat / 4) 262144 = 131072 := by rw [hkb]; decide
  exact ⟨largeMachine p, s', pd, hinit, hn ▸ hhalf⟩

/-- The kernel's frame, and 256 MB from 512 MB on. -/
def highMap : Word → Word := fun addr =>
  [20#32, 0x100000#32, 0#32, 0x1000#32, 0#32, 1#32, 20#32, 0x20000000#32, 0#32, 0x10000000#32, 0#32,
    1#32].getD ((addr - 0xC0001000#32) / 4#32).toNat 0#32

def highInfo : MultibootInfo := ⟨mbFlagMem ||| mbFlagMmap, 0#32, 785408#32, 48#32, 0x1000#32⟩

theorem bootMap_high : BootMap highInfo highMap [0xC0001000#32, 0xC0001018#32] where
  tiles := @MapTiles.cons _ _ 0xC0001000#32 _ (by decide)
    (@MapTiles.cons _ _ 0xC0001018#32 _ (by decide) .nil)
  inside := by decide
  low := by
    intro addr haddr _ _
    rcases List.mem_pair.mp haddr with rfl | rfl
    · exact ⟨by decide, by decide +kernel⟩
    · exact ⟨by decide, by decide +kernel⟩

/-- All free memory is past 512 MB: `init_paging` faults on the frame for its directory. -/
theorem higher_half_faults : ∃ p, initPmm smallImage highInfo highMap 3 = some p ∧
    p.totalMemoryKb.toNat < 4194304 ∧
    directTables p + 1 ≤ Bitmap.clearCount p.frameBitmap 0 (searchLimit p).toNat ∧
    ∀ sec mem, initPaging sec ⟨mem, .boot, 0#32, p⟩ = none := by
  obtain ⟨p, hinit, htotal, hkb, hclear⟩ := initPmm_bitmap smallImage (fun _ => bootMap_high)
    (show [0xC0001000#32, 0xC0001018#32].length < 3 by decide)
  have hflag : highInfo.flags &&& mbFlagMmap ≠ 0#32 := by decide
  have hframes : (frameCount highInfo).toNat = 196608 := by decide
  have hlimit : (searchLimit p).toNat = 196608 := by rw [searchLimit_eq, htotal, hframes]; rfl
  have htables : directTables p = 192 := by rw [directTables, hlimit]
  have hkb' : p.totalMemoryKb.toNat = 786432 := by rw [hkb]; decide
  -- below 512 MB the boot loader offers the frame of the kernel alone
  have hlow : Bitmap.clearCount p.frameBitmap 0 131072 = 0 := by
    refine Bitmap.clearCount_eq_zero.mpr fun f _ hf => ?_
    by_contra hne
    obtain ⟨hge, himage, -, huse⟩ := (hclear f (by omega)).mp (by simpa using hne)
    rw [Usable, if_pos hflag] at huse
    obtain ⟨addr, haddr, -, hlo, hhi⟩ := huse
    rcases List.mem_pair.mp haddr with rfl | rfl
    · have hend : entryBase highMap 0xC0001000#32 + entryLength highMap 0xC0001000#32 = 257 * 4096 := by
        decide +kernel
      obtain rfl : f = 256 := by omega
      exact himage (by decide +kernel)
    · have hbase : entryBase highMap 0xC0001018#32 = 131072 * 4096 := by decide +kernel
      omega
  have hhigh : 65536 ≤ Bitmap.clearCount p.frameBitmap 0 196608 := by
    rw [show 65536 = (Finset.Ico 131072 196608).card by rw [Nat.card_Ico]]
    refine Finset.card_le_card fun f hf => ?_
    obtain ⟨hlo, hhi⟩ := Finset.mem_Ico.mp hf
    refine Bitmap.mem_clearBits.mpr ⟨⟨Nat.zero_le f, hhi⟩, (hclear f (by omega)).mpr ⟨by omega, ?_, ?_, ?_⟩⟩
    · rw [mem_kernelFrames]
      have hstop : (smallImage.stop - kernelBase).toNat = 257 * 4096 := by decide
      omega
    · omega
    · have hbase : entryBase highMap 0xC0001018#32 = 131072 * 4096 := by decide +kernel
      have hlength : entryLength highMap 0xC0001018#32 = 65536 * 4096 := by decide +kernel
      rw [Usable, if_pos hflag]
      exact ⟨0xC0001018#32, by decide, by decide, by omega, by omega⟩
  have hframes' : directTables p + 1 ≤ Bitmap.clearCount p.frameBitmap 0 (searchLimit p).toNat := by
    rw [hlimit]
    omega
  refine ⟨p, hinit, by omega, hframes', fun sec mem => ?_⟩
  have hbooted : Booted ⟨mem, .boot, 0#32, p⟩ := by
    refine ⟨rfl, show p.totalMemoryKb.toNat < 4194304 by omega, ?_, ?_⟩
    · show p.totalFrames.toNat = p.totalMemoryKb.toNat / 4
      rw [htotal, hframes, hkb']
    · show Bitmap.test p.frameBitmap 0 = true
      simpa using Bitmap.clearCount_eq_zero.mp hlow 0 le_rfl (by decide)
  refine initPaging_faults hbooted hframes' ?_
  show Bitmap.clearCount p.frameBitmap 0 (min (searchLimit p).toNat 131072) < directTables p + 1
  rw [hlimit]
  show Bitmap.clearCount p.frameBitmap 0 131072 < directTables p + 1
  omega

end PekerOS.Mm
