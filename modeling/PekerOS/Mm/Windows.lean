import PekerOS.Mm.DirectMap

/-!
# Windows of drivers

A driver maps its windows within the 4 MB of one directory entry. As long as the kernel reaches its
tables through pages outside them, such a call does not fault, and afterwards the pages of the window
lead where the call says; the other pages lead where they did, so a later window takes over the pages
that it shares with an earlier one.

## Main definitions

* `physOf`: the physical address of a virtual one
* `Region`: the page tables, as seen by a driver that maps within directory entry `k`

## Main results

* `Region.window`: where the pages lead after a call of `paging_map_memory`
-/

namespace PekerOS.Mm

/-- The physical address that a virtual one is translated to. -/
def physOf (s : Machine) (v : Word) : Option ℕ :=
  (translate s.cr3 s.mem v).map fun f => f * 4096 + v.toNat % 4096

/-- The frames in `D` are mapped directly, the page tables are among them, and a new table for
directory entry `k` would be as well. -/
structure Region (D : ℕ → Prop) (n : ℕ) (T : ℕ → ℕ) (pd k : ℕ) (s : Machine) : Prop where
  loaded : Loaded pd s
  mapped : Mapped D n T pd s.mem
  kept : Kept s.pmm n T pd s.pmm
  table : ((s.mem pd).get k).present = false → ∀ f, f = 0 ∨ Returnable s.pmm f → D f

section Addresses

variable {v : Word} {i : ℕ}

/-- A later page of the same directory entry. -/
theorem idx_add_page (hi : ptIdx v + i < 1024) :
    pdIdx (v + BitVec.ofNat 32 i * pageSize) = pdIdx v ∧
      ptIdx (v + BitVec.ofNat 32 i * pageSize) = ptIdx v + i := by
  have hlt := v.isLt
  rw [ptIdx_eq] at hi
  have hv : (v + BitVec.ofNat 32 i * pageSize).toNat = v.toNat + i * 4096 := by
    rw [BitVec.toNat_add, toNat_frame (by omega)]
    exact Nat.mod_eq_of_lt (by omega)
  rw [pdIdx_eq, pdIdx_eq, ptIdx_eq, ptIdx_eq, hv]
  omega

end Addresses

section Kept

variable {p₀ p p' : Pmm} {n pd f : ℕ} {T : ℕ → ℕ}

/-- A later bitmap as the one to start from. -/
theorem Kept.self (h : Kept p₀ n T pd p) : Kept p n T pd p :=
  ⟨h.bound, rfl, fun _ hf => hf, h.pd_ne_zero, h.pd_marked, h.table_ne_zero, h.table_marked⟩

theorem Kept.trans (h : Kept p₀ n T pd p) (h' : Kept p n T pd p') : Kept p₀ n T pd p' :=
  ⟨h'.bound, h'.total.trans h.total, fun f hf => h'.mono f (h.mono f hf), h'.pd_ne_zero, h'.pd_marked,
    h'.table_ne_zero, h'.table_marked⟩

theorem Kept.returnable (h : Kept p₀ n T pd p) (hf : Returnable p f) : Returnable p₀ f := by
  have hlimit : searchLimit p = searchLimit p₀ := by rw [searchLimit, searchLimit, h.total]
  refine ⟨hlimit ▸ hf.1, ?_⟩
  have hclear := hf.2
  rw [bitmapTest_eq] at hclear ⊢
  by_contra hset
  rw [h.mono f (by simpa using hset)] at hclear
  cases hclear

end Kept

/-- The address of a block of `n` frames. -/
structure Aligned (phys : Word) (n : ℕ) : Prop where
  aligned : phys.toNat % 4096 = 0
  below : frameOf phys + n ≤ 1048576

/-- The frames of a block, one after another. -/
theorem frameOf_add_page {phys : Word} {n j : ℕ} (h : Aligned phys n) (hj : j < n) :
    frameOf (phys + BitVec.ofNat 32 j * pageSize) = frameOf phys + j := by
  have hlt := phys.isLt
  have hbelow := h.below
  rw [frameOf_eq] at hbelow
  rw [frameOf_eq, frameOf_eq, BitVec.toNat_add, toNat_frame (by omega)]
  omega

/-- A block of frames from `alloc_contiguous_frames`, which is at frame 0 if there was none. -/
structure Block (p p' : Pmm) (phys : Word) (n : ℕ) : Prop extends Aligned phys n where
  clear : ∀ j < n, frameOf phys = 0 ∨ Bitmap.test p.frameBitmap (frameOf phys + j) = false
  marked : ∀ j < n, frameOf phys = 0 ∨ Bitmap.test p'.frameBitmap (frameOf phys + j) = true

/-- Frames that were clear while others were marked. -/
theorem Block.frame_ne {p p' : Pmm} {phys : Word} {n j f : ℕ} (h : Block p p' phys n) (hj : j < n)
    (hf : Bitmap.test p.frameBitmap f = true) (hzero : frameOf phys = 0 → j ≠ f) :
    frameOf phys + j ≠ f := by
  rintro rfl
  rcases h.clear j hj with h0 | hclear
  · exact hzero h0 (by rw [h0, Nat.zero_add])
  · rw [hf] at hclear
    cases hclear

theorem Kept.block {p : Pmm} {n pd : ℕ} {T : ℕ → ℕ} (hk : Kept p n T pd p) {count : Word}
    (hcount : count.toNat ≤ 1048576) :
    Kept p n T pd (allocContiguousFrames p count).1 ∧
      Block p (allocContiguousFrames p count).1 (allocContiguousFrames p count).2 count.toNat := by
  have hcases : allocContiguousFrames p count = (p, 0#32) ∨ Taken p (allocContiguousFrames p count).1
      (allocContiguousFrames p count).2 count.toNat := allocContiguousFrames_cases hk.bound
  refine ⟨hk.request hcases, ?_⟩
  rcases hcases with hnone | htaken
  · rw [hnone]
    have hzero : frameOf 0#32 = 0 := by decide
    exact ⟨⟨rfl, by rwa [hzero, Nat.zero_add]⟩, fun _ _ => .inl hzero, fun _ _ => .inl hzero⟩
  · have hbelow := htaken.below
    have hbound := hk.bound
    rw [← frameOf_eq] at hbelow
    refine ⟨⟨htaken.aligned, by omega⟩, fun j hj => .inr ?_, fun j hj => .inr ?_⟩
    · exact htaken.clear _ (by rw [← frameOf_eq]; omega) (by rw [← frameOf_eq]; omega)
    · rw [htaken.test hk.bound, Bool.or_eq_true, decide_eq_true_eq, mem_frameRange, ← frameOf_eq]
      exact .inl ⟨by omega, by omega⟩

namespace Region

variable {D : ℕ → Prop} {n pd k : ℕ} {T : ℕ → ℕ} {s : Machine} {p v : Word}

/-- The state of the frame allocator may move on. -/
theorem withPmm (h : Region D n T pd k s) {p : Pmm} (hp : Kept s.pmm n T pd p) :
    Region D n T pd k { s with pmm := p } :=
  ⟨⟨h.loaded.cr3, h.loaded.directory⟩, h.mapped, hp.self, fun hpresent f hf =>
    h.table hpresent f (hf.imp_right hp.returnable)⟩

/-- One page, which is not the direct page of a frame in `D`. -/
theorem page (h : Region D n T pd k s) (hv : pdIdx v = k)
    (hD : ∀ f, D f → k * 1024 + ptIdx v ≠ 786432 + f) :
    ∃ s', mapPage s p v = some s' ∧ Region D n T pd k s' ∧ Kept s.pmm n T pd s'.pmm ∧
      ∀ v', pdIdx v' = k → translate s'.cr3 s'.mem v' =
        if ptIdx v' = ptIdx v then some (frameOf p) else translate s.cr3 s.mem v' := by
  subst hv
  have hbase : frameOf kernelBase = 786432 := by decide
  obtain ⟨s', hmap, hl, hm, hk, hpresent, htr⟩ := mapPage_spec (p := p) h.table h.loaded h.mapped h.kept
    fun f hf heq => absurd heq (by rw [frameOf_eq_idx, hbase]; exact hD f hf)
  refine ⟨s', hmap, ⟨hl, hm, hk.self, fun habsent => ?_⟩, hk, fun v' hv' => ?_⟩
  · rw [hpresent] at habsent
    cases habsent
  · rw [hl.cr3, h.loaded.cr3]
    exact htr v' hv'

/-- **A window.** Its pages lead to the frames from `phys` on, and all others where they did. -/
theorem window (h : Region D n T pd k s) (phys virt size : Word) (hv : pdIdx virt = k)
    (hfits : ptIdx virt + (numPages size).toNat ≤ 1024)
    (hD : ∀ f, D f → ∀ i < (numPages size).toNat, k * 1024 + (ptIdx virt + i) ≠ 786432 + f) :
    ∃ s', pagingMapMemory s phys virt size = some s' ∧ Region D n T pd k s' ∧
      Kept s.pmm n T pd s'.pmm ∧
      ∀ v, pdIdx v = k → translate s'.cr3 s'.mem v =
        if ptIdx virt ≤ ptIdx v ∧ ptIdx v < ptIdx virt + (numPages size).toNat then
          some (frameOf (phys + BitVec.ofNat 32 (ptIdx v - ptIdx virt) * pageSize))
        else translate s.cr3 s.mem v := by
  -- by induction on the number of pages mapped so far
  have key (c : ℕ) (hc : c ≤ (numPages size).toNat) :
      ∃ s', (List.range c).foldlM (fun s i => mapPage s (phys + BitVec.ofNat 32 i * pageSize)
        (virt + BitVec.ofNat 32 i * pageSize)) s = some s' ∧ Region D n T pd k s' ∧
        Kept s.pmm n T pd s'.pmm ∧
        ∀ v, pdIdx v = k → translate s'.cr3 s'.mem v =
          if ptIdx virt ≤ ptIdx v ∧ ptIdx v < ptIdx virt + c then
            some (frameOf (phys + BitVec.ofNat 32 (ptIdx v - ptIdx virt) * pageSize))
          else translate s.cr3 s.mem v := by
    induction c with
    | zero => exact ⟨s, rfl, h, h.kept, fun v _ => by rw [if_neg (by omega)]⟩
    | succ c ih =>
      obtain ⟨s₁, hrun, h₁, hk₁, htr₁⟩ := ih (by omega)
      obtain ⟨hpd, hpt⟩ := idx_add_page (v := virt) (i := c) (by omega)
      obtain ⟨s₂, hpage, h₂, hk₂, htr₂⟩ := h₁.page (p := phys + BitVec.ofNat 32 c * pageSize)
        (hpd.trans hv) fun f hf => by rw [hpt]; exact hD f hf c (by omega)
      refine ⟨s₂, ?_, h₂, hk₁.trans hk₂, fun v hvk => ?_⟩
      · rw [List.range_succ, List.foldlM_append, hrun]
        simp [hpage]
      · rw [htr₂ v hvk, htr₁ v hvk, hpt]
        by_cases hlast : ptIdx v = ptIdx virt + c
        · rw [if_pos hlast, if_pos (by omega), hlast, Nat.add_sub_cancel_left]
        · rw [if_neg hlast]
          exact if_congr (by omega) rfl rfl
  obtain ⟨s', hrun, h', hk', htr'⟩ := key _ le_rfl
  have hlt := (h'.mapped.bound pd h'.mapped.pd_mem).1
  have hcr3 : frameOf (s'.kernelDirectory - kernelBase) = pd := by
    rw [h'.loaded.directory, frameOf_directAddr_sub (by omega)]
  refine ⟨{ s' with cr3 := .directory pd }, ?_, ⟨⟨rfl, h'.loaded.directory⟩, h'.mapped, h'.kept, h'.table⟩,
    hk', fun v hvk => ?_⟩
  · rw [pagingMapMemory, hrun, ← hcr3]
    rfl
  · rw [← htr' v hvk, h'.loaded.cr3]

end Region

end PekerOS.Mm
