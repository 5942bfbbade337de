import PekerOS.Mm.Frames

/-!
# The memory map

What `init_pmm` makes of the boot loader's information. The map is a sequence of entries of different
sizes; an entry releases the frames that lie inside it as a whole, and what it releases does not depend
on the order of the entries or on how they overlap. Frames of the first megabyte and of the kernel image
are taken back, and no frame from `total_frames` on is ever released.

## Main definitions

* `MapTiles`, `BootMap`: the entries follow one another up to the end of the map
* `Usable`: the frames the boot loader offers

## Main results

* `mmapWalk_eq`: the walk releases the frames of all entries
* `init_pmm_exact`: the frames that are free afterwards
-/

namespace PekerOS.Mm

/-- The addresses of the entries between two addresses. The size of an entry does not count its first
field, and there are at least five further ones. -/
inductive MapTiles (mem : Word → Word) (stop : ℕ) : ℕ → List Word → Prop
  | nil : MapTiles mem stop stop []
  | cons {addr : Word} {addrs : List Word} : 20 ≤ (mmapEntry mem addr).size.toNat →
      MapTiles mem stop (addr.toNat + ((mmapEntry mem addr).size.toNat + 4)) addrs →
      MapTiles mem stop addr.toNat (addr :: addrs)

/-- Where an entry's memory begins, as a number of 64 bits. -/
def entryBase (mem : Word → Word) (addr : Word) : ℕ :=
  (mmapEntry mem addr).baseAddrHigh.toNat * 2 ^ 32 + (mmapEntry mem addr).baseAddrLow.toNat

/-- Its length; `init_pmm` does not read `length_high`, at offset 16. -/
def entryLength (mem : Word → Word) (addr : Word) : ℕ :=
  (mem (addr + 16#32)).toNat * 2 ^ 32 + (mmapEntry mem addr).lengthLow.toNat

/-- The boot loader's map: its entries tile it, it ends before the address space does, and memory that
starts below 4 GB is available only up to `0xFFFFF000`. -/
structure BootMap (mbi : MultibootInfo) (mem : Word → Word) (addrs : List Word) : Prop where
  tiles : MapTiles mem ((mbi.mmapAddr + kernelBase).toNat + mbi.mmapLength.toNat)
    (mbi.mmapAddr + kernelBase).toNat addrs
  inside : (mbi.mmapAddr + kernelBase).toNat + mbi.mmapLength.toNat < 2 ^ 32
  low : ∀ addr ∈ addrs, (mmapEntry mem addr).type = mmapTypeAvailable →
    (mmapEntry mem addr).baseAddrHigh = 0#32 →
      mem (addr + 16#32) = 0#32 ∧ entryBase mem addr + entryLength mem addr ≤ 0xFFFFF000

/-- The frame lies in an available entry of the map as a whole; without a map, in the memory above the
first megabyte. -/
def Usable (mbi : MultibootInfo) (mem : Word → Word) (addrs : List Word) (f : ℕ) : Prop :=
  if mbi.flags &&& mbFlagMmap ≠ 0#32 then
    ∃ addr ∈ addrs, (mmapEntry mem addr).type = mmapTypeAvailable ∧
      entryBase mem addr ≤ f * 4096 ∧ (f + 1) * 4096 ≤ entryBase mem addr + entryLength mem addr
  else f < 256 + mbi.memUpper.toNat / 4

section Walk

variable {mem : Word → Word} {total addr : Word} {addrs : List Word} {mbi : MultibootInfo} {f : ℕ}

theorem MapTiles.le {stop o : ℕ} (h : MapTiles mem stop o addrs) : o ≤ stop := by
  induction h with
  | nil => exact le_rfl
  | cons _ _ ih => omega

/-- **The walk** releases the frames of one entry after the other. -/
theorem mmapWalk_eq {stop : Word} {fuel : ℕ} {m : Table 131072 Byte}
    (h : MapTiles mem stop.toNat addr.toNat addrs) (hfuel : addrs.length < fuel) :
    mmapWalk mem total stop fuel addr m =
      some ((addrs.flatMap fun a => mmapFrames total (mmapEntry mem a)).foldl Bitmap.clear m) := by
  generalize ho : addr.toNat = o at h
  induction h generalizing addr fuel m with
  | nil =>
    obtain ⟨n, rfl⟩ : ∃ n, fuel = n + 1 := ⟨fuel - 1, by omega⟩
    rw [mmapWalk, if_neg (by rw [BitVec.lt_def]; omega)]
    rfl
  | @cons a addrs hsize htail ih =>
    obtain rfl : addr = a := BitVec.eq_of_toNat_eq ho
    rw [List.length_cons] at hfuel
    obtain ⟨n, rfl⟩ : ∃ n, fuel = n + 1 := ⟨fuel - 1, by omega⟩
    -- the next entry is at a higher address, so neither its address nor its size has wrapped
    have hle := htail.le
    have hstop := stop.isLt
    have hnext : (addr + ((mmapEntry mem addr).size + 4#32)).toNat =
        addr.toNat + ((mmapEntry mem addr).size.toNat + 4) := by
      simp only [BitVec.toNat_add, BitVec.toNat_ofNat]
      omega
    rw [mmapWalk, if_pos (by rw [BitVec.lt_def]; omega)]
    dsimp only
    rw [ih (by omega) hnext, List.flatMap_cons, List.foldl_append]

/-- The frames that an entry releases: those that lie inside it. -/
theorem mem_mmapFrames (h : (mmapEntry mem addr).type = mmapTypeAvailable →
      (mmapEntry mem addr).baseAddrHigh = 0#32 →
        mem (addr + 16#32) = 0#32 ∧ entryBase mem addr + entryLength mem addr ≤ 0xFFFFF000)
    (htotal : total.toNat ≤ 1048576) :
    f ∈ mmapFrames total (mmapEntry mem addr) ↔ f < total.toNat ∧
      (mmapEntry mem addr).type = mmapTypeAvailable ∧ entryBase mem addr ≤ f * 4096 ∧
        (f + 1) * 4096 ≤ entryBase mem addr + entryLength mem addr := by
  rw [mmapFrames]
  split
  · next hentry =>
    obtain ⟨htype, hhigh⟩ := hentry
    obtain ⟨hlength, hend⟩ := h htype hhigh
    rw [entryBase, entryLength, hhigh, hlength] at hend ⊢
    simp only [BitVec.toNat_ofNat, Nat.zero_mod, Nat.zero_mul, Nat.zero_add] at hend ⊢
    -- neither end wraps when it is rounded
    have hstart : (((mmapEntry mem addr).baseAddrLow + frameSize - 1#32) / frameSize).toNat =
        ((mmapEntry mem addr).baseAddrLow.toNat + 4095) / 4096 := by
      simp only [BitVec.toNat_udiv, BitVec.toNat_sub, BitVec.toNat_add, BitVec.toNat_ofNat,
        Nat.reducePow, Nat.reduceMod]
      omega
    have hstop : (((mmapEntry mem addr).baseAddrLow + (mmapEntry mem addr).lengthLow) / frameSize).toNat =
        ((mmapEntry mem addr).baseAddrLow.toNat + (mmapEntry mem addr).lengthLow.toNat) / 4096 := by
      simp only [BitVec.toNat_udiv, BitVec.toNat_add, BitVec.toNat_ofNat, Nat.reducePow, Nat.reduceMod]
      omega
    rw [mem_frames, hstart, hstop]
    constructor
    · rintro ⟨hlo, hhi, hf⟩
      exact ⟨hf, htype, by omega, by omega⟩
    · rintro ⟨hf, -, hlo, hhi⟩
      exact ⟨by omega, by omega, hf⟩
  · next hentry =>
    refine iff_of_false List.not_mem_nil ?_
    rintro ⟨hf, htype, hlo, -⟩
    -- memory from 4 GB on has no frame below `total_frames`
    have hhigh : 0 < (mmapEntry mem addr).baseAddrHigh.toNat :=
      Nat.pos_of_ne_zero fun h0 => hentry ⟨htype, BitVec.eq_of_toNat_eq h0⟩
    rw [entryBase] at hlo
    omega

/-- What is released before the reserved frames are taken back. -/
theorem releaseUsable_spec {fuel : ℕ} (hmap : mbi.flags &&& mbFlagMmap ≠ 0#32 → BootMap mbi mem addrs)
    (hfuel : addrs.length < fuel) (htotal : total.toNat ≤ 1048576) (m : Table 131072 Byte) :
    ∃ m', releaseUsable mbi mem fuel total m = some m' ∧ ∀ f, 256 ≤ f →
      (Bitmap.test m' f = false ↔
        f < total.toNat ∧ Usable mbi mem addrs f ∨ Bitmap.test m f = false) := by
  rw [releaseUsable]
  split
  · next hflag =>
    -- the memory map: each usable region is released
    have hboot := hmap hflag
    have hstop : (mbi.mmapAddr + kernelBase + mbi.mmapLength).toNat =
        (mbi.mmapAddr + kernelBase).toNat + mbi.mmapLength.toNat := by
      rw [BitVec.toNat_add]
      exact Nat.mod_eq_of_lt hboot.inside
    have hmem (a : Word) (ha : a ∈ addrs) (f : ℕ) := mem_mmapFrames (f := f) (hboot.low a ha) htotal
    have htiles := hboot.tiles
    rw [← hstop] at htiles
    refine ⟨_, mmapWalk_eq htiles hfuel, fun f _ => ?_⟩
    rw [Bitmap.test_foldl_clear _ fun b hb => ?_, Bool.and_eq_false_iff, decide_eq_false_iff_not,
      not_not, List.mem_flatMap, Usable, if_pos hflag]
    · refine or_congr ?_ Iff.rfl
      constructor
      · rintro ⟨a, ha, hf⟩
        obtain ⟨hlt, hin⟩ := (hmem a ha f).mp hf
        exact ⟨hlt, a, ha, hin⟩
      · rintro ⟨hlt, a, ha, hin⟩
        exact ⟨a, ha, (hmem a ha f).mpr ⟨hlt, hin⟩⟩
    · obtain ⟨a, ha, hf⟩ := List.mem_flatMap.mp hb
      have hlt := ((hmem a ha b).mp hf).1
      omega
  · next hflag =>
    -- without a map what lies above 1 MiB is released
    have hstart : (0x100000#32 / frameSize).toNat = 256 := by decide
    have hstop : (0x100000#32 / frameSize + mbi.memUpper / 4#32).toNat = 256 + mbi.memUpper.toNat / 4 := by
      have hlt := mbi.memUpper.isLt
      rw [BitVec.toNat_add, hstart, BitVec.toNat_udiv]
      show (256 + mbi.memUpper.toNat / 4) % 2 ^ 32 = 256 + mbi.memUpper.toNat / 4
      omega
    refine ⟨_, rfl, fun f hf => ?_⟩
    rw [Bitmap.test_foldl_clear _ fun b hb => ?_, Bool.and_eq_false_iff, decide_eq_false_iff_not,
      not_not, mem_frames, hstart, hstop, Usable, if_neg hflag]
    · exact or_congr ⟨fun h => ⟨h.2.2, h.2.1⟩, fun h => ⟨hf, h.2, h.1⟩⟩ Iff.rfl
    · have hlt := (mem_frames.mp hb).2.2
      omega

end Walk

/-- The bitmap of `init_pmm`: what is released, less what is taken back. -/
theorem initPmm_bitmap (image : KernelImage) {mbi : MultibootInfo} {mem : Word → Word}
    {addrs : List Word} (hmap : mbi.flags &&& mbFlagMmap ≠ 0#32 → BootMap mbi mem addrs) {fuel : ℕ}
    (hfuel : addrs.length < fuel) :
    ∃ p, initPmm image mbi mem fuel = some p ∧ p.totalFrames = frameCount mbi ∧
      p.totalMemoryKb = memoryKb mbi ∧ ∀ f < 1048576, (Bitmap.test p.frameBitmap f = false ↔
        256 ≤ f ∧ f ∉ kernelFrames image (frameCount mbi) ∧
          f < (frameCount mbi).toNat ∧ Usable mbi mem addrs f) := by
  have hb := frameCount_le mbi
  obtain ⟨m, hrelease, hm⟩ := releaseUsable_spec hmap hfuel hb (Table.ofFn fun _ => 0xFF#8)
  have hfull (f : ℕ) (hf : f < 1048576) :
      Bitmap.test (Table.ofFn fun _ => 0xFF#8 : Table 131072 Byte) f = true := by
    have hbits : ∀ i < 8, (0xFF#8).getLsbD i = true := by decide
    rw [Bitmap.test_eq, Table.get_ofFn _ (by omega)]
    exact hbits _ (Nat.mod_lt f (by decide))
  rw [initPmm, hrelease]
  refine ⟨_, rfl, rfl, rfl, fun f hf => ?_⟩
  dsimp only
  rw [Bitmap.test_foldl_set _ fun b hb' => ?_, Bitmap.test_foldl_set _ fun b hb' => ?_,
    Bool.or_eq_false_iff, Bool.or_eq_false_iff, decide_eq_false_iff_not, decide_eq_false_iff_not,
    List.mem_range]
  · constructor
    · rintro ⟨himage, hlow, hclear⟩
      rcases (hm f (by omega)).mp hclear with hfree | hset
      · exact ⟨by omega, himage, hfree⟩
      · rw [hfull f hf] at hset
        cases hset
    · rintro ⟨hlow, himage, hfree⟩
      exact ⟨himage, by omega, (hm f hlow).mpr (.inl hfree)⟩
  · have := List.mem_range.mp hb'
    omega
  · have := (mem_kernelFrames.mp hb').2
    omega

/-- **The free frames**: whatever the memory map, after `init_pmm` a frame is free if and only if it lies
below `total_frames`, above the first megabyte and outside the kernel image, and the boot loader offers
it. In particular no frame from `total_frames` on is free. -/
theorem init_pmm_exact (image : KernelImage) {mbi : MultibootInfo} {mem : Word → Word}
    {addrs : List Word} (hmap : mbi.flags &&& mbFlagMmap ≠ 0#32 → BootMap mbi mem addrs) {fuel : ℕ}
    (hfuel : addrs.length < fuel) :
    ∃ p, initPmm image mbi mem fuel = some p ∧ p.totalFrames = frameCount mbi ∧ ∀ f < 1048576,
      (bitmapTest p.frameBitmap f = false ↔
        f < (frameCount mbi).toNat ∧ ¬Reserved image f ∧ Usable mbi mem addrs f) := by
  obtain ⟨p, hinit, htotal, -, hbitmap⟩ := initPmm_bitmap image hmap hfuel
  refine ⟨p, hinit, htotal, fun f hf => ?_⟩
  rw [bitmapTest_eq, hbitmap f hf, mem_kernelFrames]
  constructor
  · rintro ⟨hlow, himage, hlt, huse⟩
    exact ⟨hlt, fun hres => hres.elim (fun h => absurd h (by omega)) fun h => himage ⟨h, hlt⟩, huse⟩
  · rintro ⟨hlt, hres, huse⟩
    have hlow : ¬f < 256 := fun h => hres (.inl h)
    exact ⟨by omega, fun h => hres (.inr h.1), hlt, huse⟩

/-- A map of two entries at physical address `0x1000`: conventional memory, and 15 MB from 1 MB on. -/
def smallMap : Word → Word := fun addr =>
  [20#32, 0#32, 0#32, 0x9FC00#32, 0#32, 1#32, 20#32, 0x100000#32, 0#32, 0xF00000#32, 0#32, 1#32].getD
    ((addr - 0xC0001000#32) / 4#32).toNat 0#32

def smallMapInfo : MultibootInfo := ⟨mbFlagMem ||| mbFlagMmap, 0#32, 15360#32, 48#32, 0x1000#32⟩

theorem bootMap_small : BootMap smallMapInfo smallMap [0xC0001000#32, 0xC0001018#32] where
  tiles := @MapTiles.cons _ _ 0xC0001000#32 _ (by decide)
    (@MapTiles.cons _ _ 0xC0001018#32 _ (by decide) .nil)
  inside := by decide
  low := by
    intro addr haddr _ _
    rcases List.mem_pair.mp haddr with rfl | rfl
    · exact ⟨by decide, by decide +kernel⟩
    · exact ⟨by decide, by decide +kernel⟩

/-- The frame behind the image is free; the last frame of conventional memory is not. -/
theorem init_pmm_exact_small : ∃ p, initPmm smallImage smallMapInfo smallMap 3 = some p ∧
    bitmapTest p.frameBitmap 257 = false ∧ bitmapTest p.frameBitmap 158 ≠ false := by
  obtain ⟨p, hinit, -, hfree⟩ := init_pmm_exact smallImage (fun _ => bootMap_small)
    (show [0xC0001000#32, 0xC0001018#32].length < 3 by decide)
  refine ⟨p, hinit, (hfree 257 (by decide)).mpr ⟨by decide, ?_, ?_⟩, fun h => ?_⟩
  · rintro (h | h)
    · exact absurd h (by decide)
    · exact absurd h (by decide)
  · have hflag : smallMapInfo.flags &&& mbFlagMmap ≠ 0#32 := by decide
    rw [Usable, if_pos hflag]
    exact ⟨0xC0001018#32, by decide, by decide, by decide, by decide⟩
  · exact ((hfree 158 (by decide)).mp h).2.1 (.inl (by decide))

end PekerOS.Mm
