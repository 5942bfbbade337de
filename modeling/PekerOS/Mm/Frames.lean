import PekerOS.Mm.Pmm

/-!
# Frame ownership and accounting

A call of the frame allocator either changes nothing and returns 0 or marks a run of clear frames and
returns the address of the first. From this one description of a call follow both results: no frame
is handed out twice, and the counter of used frames is the number of set bits.

## Main definitions

* `Taken p p' addr n`: `n` clear frames from `addr` on have been marked
* `Fits p n start`, `Grants p count start`: a run of clear frames, and that it is handed out
* `Holding`, `Holding.step`: the frames in the hands of callers, kept beside the bitmap
* `Delivered`: what a call promises about the frames it returns
* `Accounted`: the counters agree with the bitmap

## Main results

* `allocFrame_cases`, `allocContiguousFrames_cases`, `freeFrame_cases`: what a call can do
* `first_fit`: `alloc_contiguous_frames` finds the first run, and every run
* `frames_owned`: frames are never handed out while held, and never from the reserved regions
* `frames_accounted`: the counters are right after every sequence of calls
-/

namespace PekerOS.Mm

section Bits

variable (m : Table 131072 Byte)

/-- `bitmap_test` shifts the bit down where the other test shifts a mask up. -/
theorem bitmapTest_eq (f : ℕ) : bitmapTest m f = Bitmap.test m f := by
  rw [bitmapTest, Bitmap.test_eq, BitVec.and_one_eq_setWidth_ofBool_getLsbD,
    BitVec.getLsbD_ushiftRight, Nat.add_zero]
  cases (m.get (f / 8)).getLsbD (f % 8) <;> rfl

/-- Counting one by one counts the set bits; below `2 ^ 32` the counter does not wrap. -/
theorem toNat_count {n : ℕ} (hn : n < 2 ^ 32) :
    ((List.range n).foldl (fun c f => if bitmapTest m f then c + 1#32 else c) 0#32).toNat =
      ((Finset.range n).filter fun f => Bitmap.test m f).card := by
  induction n with
  | zero => rfl
  | succ n ih =>
    have hcard : ((Finset.range n).filter fun f => Bitmap.test m f).card ≤ n := by
      simpa using Finset.card_filter_le (Finset.range n) fun f => Bitmap.test m f
    rw [List.range_succ, List.foldl_append, List.foldl_cons, List.foldl_nil, bitmapTest_eq,
      Finset.range_add_one, Finset.filter_insert]
    have ih := ih (by omega)
    split
    · rw [Finset.card_insert_of_notMem (by simp), BitVec.toNat_add, ih]
      exact Nat.mod_eq_of_lt (by simp only [BitVec.toNat_ofNat]; omega)
    · exact ih

theorem card_used_add_clearCount (n : ℕ) :
    ((Finset.range n).filter fun f => Bitmap.test m f).card + Bitmap.clearCount m 0 n = n := by
  rw [Bitmap.clearCount, Bitmap.clearBits, ← Finset.range_eq_Ico]
  simpa using Finset.card_filter_add_card_filter_not (s := Finset.range n)
    fun f => Bitmap.test m f = true

end Bits

/-! ## What a call does -/

/-- `n` frames from `addr` on were clear, lie below `total_frames`, and are now marked. -/
structure Taken (p p' : Pmm) (addr : Word) (n : ℕ) : Prop where
  pos : 0 < n
  aligned : addr.toNat % 4096 = 0
  below : addr.toNat / 4096 + n ≤ p.totalFrames.toNat
  clear : ∀ f, addr.toNat / 4096 ≤ f → f < addr.toNat / 4096 + n →
    Bitmap.test p.frameBitmap f = false
  result : p' = (List.range' (addr.toNat / 4096) n).foldl takeFrame p

section Calls

variable {p p' : Pmm} {addr : Word} {n : ℕ}

@[simp] theorem takeFrame_totalFrames (p : Pmm) (f : ℕ) :
    (takeFrame p f).totalFrames = p.totalFrames := rfl

@[simp] theorem takeFrame_frameBitmap (p : Pmm) (f : ℕ) :
    (takeFrame p f).frameBitmap = Bitmap.set p.frameBitmap f := rfl

theorem foldl_takeFrame_totalFrames (p : Pmm) (fs : List ℕ) :
    (fs.foldl takeFrame p).totalFrames = p.totalFrames := by
  induction fs generalizing p with
  | nil => rfl
  | cons f fs ih => rw [List.foldl_cons, ih, takeFrame_totalFrames]

theorem foldl_takeFrame_frameBitmap (p : Pmm) (fs : List ℕ) :
    (fs.foldl takeFrame p).frameBitmap = fs.foldl Bitmap.set p.frameBitmap := by
  induction fs generalizing p with
  | nil => rfl
  | cons f fs ih => rw [List.foldl_cons, ih, takeFrame_frameBitmap, List.foldl_cons]

theorem searchLimit_le (p : Pmm) :
    (searchLimit p).toNat ≤ p.totalFrames.toNat ∧ (searchLimit p).toNat ≤ 262144 := by
  rw [searchLimit]
  split
  · next h => exact ⟨le_of_lt (BitVec.lt_def.mp h), le_rfl⟩
  · next h => exact ⟨le_rfl, BitVec.le_def.mp (BitVec.not_lt.mp h)⟩

/-- The address of a frame below `MAX_FRAMES` is a 32-bit number. -/
theorem toNat_frame {f : ℕ} (hf : f < 1048576) : (BitVec.ofNat 32 f * frameSize).toNat = f * 4096 := by
  rw [BitVec.toNat_mul, BitVec.toNat_ofNat, BitVec.toNat_ofNat, Nat.mod_eq_of_lt (by omega : f < 2 ^ 32)]
  exact Nat.mod_eq_of_lt (by omega)

theorem taken_of_clear {f : ℕ} (hp : p.totalFrames.toNat ≤ 1048576) (hn : 0 < n)
    (hf : f + n ≤ p.totalFrames.toNat)
    (hclear : ∀ g, f ≤ g → g < f + n → Bitmap.test p.frameBitmap g = false) :
    Taken p ((List.range' f n).foldl takeFrame p) (BitVec.ofNat 32 f * frameSize) n := by
  have haddr := toNat_frame (show f < 1048576 by omega)
  have hdiv : f * 4096 / 4096 = f := Nat.mul_div_cancel f (by decide)
  refine ⟨hn, ?_, ?_, ?_, ?_⟩
  · rw [haddr, Nat.mul_mod_left]
  · rwa [haddr, hdiv]
  · rwa [haddr, hdiv]
  · rw [haddr, hdiv]

/-- `alloc_frame` takes the first clear frame below its limit. -/
theorem allocFrame_cases (p : Pmm) :
    (allocFrame p = (p, 0#32) ∧
      ∀ f < (searchLimit p).toNat, Bitmap.test p.frameBitmap f = true) ∨
    ∃ f < (searchLimit p).toNat, Bitmap.test p.frameBitmap f = false ∧
      (∀ g < f, Bitmap.test p.frameBitmap g = true) ∧
      allocFrame p = (takeFrame p f, BitVec.ofNat 32 f * frameSize) := by
  rw [allocFrame]
  cases hfind : (List.range (searchLimit p).toNat).find? fun f => !bitmapTest p.frameBitmap f with
  | none =>
    left
    refine ⟨rfl, fun f hf => ?_⟩
    have := List.find?_eq_none.mp hfind f (List.mem_range.mpr hf)
    simpa [bitmapTest_eq] using this
  | some f =>
    right
    obtain ⟨hclear, hmem, hfirst⟩ := List.find?_range_eq_some.mp hfind
    refine ⟨f, List.mem_range.mp hmem, ?_, fun g hg => ?_, rfl⟩
    · simpa [bitmapTest_eq] using hclear
    · simpa [bitmapTest_eq] using hfirst g hg

theorem allocFrame_outcome (hp : p.totalFrames.toNat ≤ 1048576) :
    allocFrame p = (p, 0#32) ∨ Taken p (allocFrame p).1 (allocFrame p).2 1 := by
  rcases allocFrame_cases p with ⟨h, -⟩ | ⟨f, hf, hclear, -, h⟩
  · exact .inl h
  · right
    rw [h]
    refine taken_of_clear hp one_pos ?_ fun g hlo hhi => ?_
    · have := (searchLimit_le p).1
      omega
    · rwa [show g = f by omega]

/-- The frames `start … start + n - 1` lie below `total_frames` and are clear. -/
structure Fits (p : Pmm) (n start : ℕ) : Prop where
  below : start + n ≤ p.totalFrames.toNat
  clear : ∀ g, start ≤ g → g < start + n → bitmapTest p.frameBitmap g = false

/-- The invariant of the search: the last `current_count` frames before `f` are clear, `start_frame` is
the first of them, and no run that is long enough starts further down. -/
theorem contiguousLoop_spec {count : Word} {k f start : ℕ} {current : Word}
    (hp : p.totalFrames.toNat ≤ 1048576) (hk : f + k = p.totalFrames.toNat)
    (hcurrent : current.toNat ≤ f) (hstart : current ≠ 0#32 → start + current.toNat = f)
    (hclear : ∀ g, f - current.toNat ≤ g → g < f → bitmapTest p.frameBitmap g = false)
    (hmin : count ≠ 0#32 → current.toNat < count.toNat ∧
      ∀ s, Fits p count.toNat s → f ≤ s + current.toNat) :
    (contiguousLoop p count (List.range' f k) current start = (p, 0#32) ∧
        (count ≠ 0#32 → ∀ s, ¬Fits p count.toNat s)) ∨
      ∃ s, 0 < count.toNat ∧ Fits p count.toNat s ∧ (∀ s', Fits p count.toNat s' → s ≤ s') ∧
        contiguousLoop p count (List.range' f k) current start =
          ((List.range' s count.toNat).foldl takeFrame p, BitVec.ofNat 32 s * frameSize) := by
  induction k generalizing f current start with
  | zero =>
    refine .inl ⟨rfl, fun hcount s hfits => ?_⟩
    obtain ⟨hshort, hfirst⟩ := hmin hcount
    have hbelow := hfits.below
    have hs := hfirst s hfits
    omega
  | succ k ih =>
    rw [List.range'_succ, contiguousLoop]
    cases htest : bitmapTest p.frameBitmap f with
    | true =>
      refine ih (by omega) (by simp) (fun h => absurd rfl h) (fun g hlo hhi => ?_) fun hcount => ?_
      · simp only [BitVec.toNat_ofNat, Nat.zero_mod, Nat.sub_zero] at hlo
        omega
      · obtain ⟨hshort, hfirst⟩ := hmin hcount
        simp only [BitVec.toNat_ofNat, Nat.zero_mod, Nat.add_zero]
        refine ⟨by omega, fun s hfits => ?_⟩
        -- a run that starts at `f` or before contains `f`
        have hs := hfirst s hfits
        by_contra hle
        rw [hfits.clear f (by omega) (by omega)] at htest
        cases htest
    | false =>
      have hnext : (current + 1#32).toNat = current.toNat + 1 := by
        rw [BitVec.toNat_add]
        exact Nat.mod_eq_of_lt (by simp only [BitVec.toNat_ofNat]; omega)
      -- the run of clear frames now ends at `f`
      have hrun : (if current = 0#32 then f else start) + (current.toNat + 1) = f + 1 := by
        split
        · next hzero => rw [hzero]; rfl
        · next hzero => rw [← hstart hzero]; omega
      have hclear' : ∀ g, f + 1 - (current.toNat + 1) ≤ g → g < f + 1 →
          bitmapTest p.frameBitmap g = false := by
        intro g hlo hhi
        rcases Nat.lt_succ_iff_lt_or_eq.mp hhi with hlt | rfl
        · exact hclear g (by omega) hlt
        · exact htest
      simp only [Bool.not_false, if_true]
      split
      · next hcount =>
        right
        have hne : count ≠ 0#32 := by
          rintro rfl
          rw [hcount] at hnext
          cases hnext
        have hfirst := (hmin hne).2
        rw [← hcount, hnext] at hfirst ⊢
        generalize (if current = 0#32 then f else start) = first at hrun ⊢
        have hstop : (BitVec.ofNat 32 first + (current + 1#32)).toNat = f + 1 := by
          rw [BitVec.toNat_add, hnext, BitVec.toNat_ofNat, Nat.mod_eq_of_lt (by omega : first < 2 ^ 32),
            hrun]
          exact Nat.mod_eq_of_lt (by omega)
        refine ⟨first, Nat.succ_pos _, ⟨by omega, fun g hlo hhi => hclear' g (by omega) (by omega)⟩,
          fun s hfits => ?_, ?_⟩
        · have hs := hfirst s hfits
          omega
        · rw [hstop, show f + 1 - first = current.toNat + 1 by omega]
      · next hcount =>
        refine ih (by omega) (by omega) (fun _ => by rw [hnext]; exact hrun) (by rwa [hnext]) fun hne => ?_
        obtain ⟨hshort, hfirst⟩ := hmin hne
        rw [hnext]
        refine ⟨?_, fun s hfits => ?_⟩
        · have hne' : current.toNat + 1 ≠ count.toNat := fun heq =>
            hcount (BitVec.eq_of_toNat_eq (hnext.trans heq))
          omega
        · have hs := hfirst s hfits
          omega

/-- `alloc_contiguous_frames` takes the first run of clear frames that is long enough. -/
theorem allocContiguousFrames_spec (count : Word) (hp : p.totalFrames.toNat ≤ 1048576) :
    (allocContiguousFrames p count = (p, 0#32) ∧ (count ≠ 0#32 → ∀ s, ¬Fits p count.toNat s)) ∨
      ∃ s, 0 < count.toNat ∧ Fits p count.toNat s ∧ (∀ s', Fits p count.toNat s' → s ≤ s') ∧
        allocContiguousFrames p count =
          ((List.range' s count.toNat).foldl takeFrame p, BitVec.ofNat 32 s * frameSize) := by
  rw [allocContiguousFrames, List.range_eq_range']
  refine contiguousLoop_spec hp (Nat.zero_add _) le_rfl (fun h => absurd rfl h) (fun g _ hg => ?_)
    fun hcount => ⟨?_, fun s _ => Nat.zero_le _⟩
  · exact absurd hg (Nat.not_lt_zero g)
  · exact Nat.pos_of_ne_zero fun h0 => hcount (BitVec.eq_of_toNat_eq h0)

theorem allocContiguousFrames_cases {count : Word} (hp : p.totalFrames.toNat ≤ 1048576) :
    allocContiguousFrames p count = (p, 0#32) ∨
      Taken p (allocContiguousFrames p count).1 (allocContiguousFrames p count).2 count.toNat := by
  rcases allocContiguousFrames_spec count hp with ⟨h, -⟩ | ⟨s, hpos, hfits, -, h⟩
  · exact .inl h
  · right
    rw [h]
    refine taken_of_clear hp hpos hfits.below fun g hlo hhi => ?_
    rw [← bitmapTest_eq]
    exact hfits.clear g hlo hhi

/-- The number of frames an operation asks for. -/
def PmmOp.count : PmmOp → ℕ
  | .allocFrame => 1
  | .allocContiguousFrames count => count.toNat
  | .freeFrame _ => 0

theorem freeFrame_cases (p : Pmm) (addr : Word) :
    freeFrame p addr = p ∨ addr.toNat / 4096 < p.totalFrames.toNat ∧
      Bitmap.test p.frameBitmap (addr.toNat / 4096) = true ∧
      freeFrame p addr = { p with
        frameBitmap := Bitmap.clear p.frameBitmap (addr.toNat / 4096)
        usedFramesCount := p.usedFramesCount - 1#32 } := by
  have hdiv : (addr / frameSize).toNat = addr.toNat / 4096 := BitVec.toNat_udiv
  rw [freeFrame, hdiv, bitmapTest_eq]
  split
  · next h => exact .inr ⟨h.1, h.2, rfl⟩
  · exact .inl rfl

end Calls

/-! ## First fit -/

/-- The run from `start` on is granted: its address is returned, and its frames are marked, no others. -/
structure Grants (p : Pmm) (count : Word) (start : ℕ) : Prop where
  address : (allocContiguousFrames p count).2.toNat = start * 4096
  marked : ∀ f, bitmapTest (allocContiguousFrames p count).1.frameBitmap f =
    (decide (start ≤ f ∧ f < start + count.toNat) || bitmapTest p.frameBitmap f)

/-- **First fit**: for every bitmap and every positive count, `alloc_contiguous_frames` grants the least
run of clear frames that is long enough, and without one it changes nothing and returns 0; since frame 0
is reserved, only then. -/
theorem first_fit {p : Pmm} (hp : p.totalFrames.toNat ≤ 1048576) {count : Word}
    (hcount : 0 < count.toNat) :
    (∀ start, IsLeast { s | Fits p count.toNat s } start → Grants p count start) ∧
      ((∀ s, ¬Fits p count.toNat s) → allocContiguousFrames p count = (p, 0#32)) ∧
      (bitmapTest p.frameBitmap 0 = true →
        ((allocContiguousFrames p count).2 = 0#32 ↔ ∀ s, ¬Fits p count.toNat s)) := by
  have hne : count ≠ 0#32 := by
    rintro rfl
    exact absurd hcount (lt_irrefl 0)
  rcases allocContiguousFrames_spec count hp with ⟨h, hnone⟩ | ⟨s, -, hfits, hleast, h⟩
  · refine ⟨fun start hstart => absurd hstart.1 (hnone hne start), fun _ => h, fun _ => ?_⟩
    rw [h]
    exact iff_of_true rfl (hnone hne)
  · have hbelow := hfits.below
    have haddr := toNat_frame (show s < 1048576 by omega)
    refine ⟨fun start hstart => ?_, fun hnone => absurd hfits (hnone s), fun hzero => ?_⟩
    · obtain rfl : start = s := le_antisymm (hstart.2 hfits) (hleast start hstart.1)
      refine ⟨by rw [h, haddr], fun f => ?_⟩
      rw [h, bitmapTest_eq, bitmapTest_eq]
      dsimp only
      rw [foldl_takeFrame_frameBitmap, Bitmap.test_foldl_set _ fun b hb => ?_]
      · simp only [List.mem_range'_1]
      · have := List.mem_range'_1.mp hb
        omega
    · -- a run at frame 0 would contain the reserved frame
      rw [h]
      refine iff_of_false (fun heq => ?_) fun hnone => hnone s hfits
      have h0 := congrArg BitVec.toNat heq
      rw [haddr] at h0
      obtain rfl : s = 0 := by simpa using h0
      rw [hfits.clear 0 le_rfl (by omega)] at hzero
      cases hzero

/-- A bitmap in which frames 0 and 2 are used: two frames are found from frame 3 on, the last there are. -/
def gapped : Pmm := ⟨Table.ofFn fun _ => 5#8, 5#32, 2#32, 20#32⟩

theorem first_fit_gapped : 0 < (2#32).toNat ∧ Grants gapped 2#32 3 ∧
    ((allocContiguousFrames gapped 3#32).2 = 0#32 ↔ ∀ s, ¬Fits gapped (3#32).toNat s) := by
  have hleast : IsLeast { s | Fits gapped (2#32).toNat s } 3 := by
    refine ⟨⟨by decide, ?_⟩, fun s hs => ?_⟩
    · decide +kernel
    · by_contra hlt
      have hclear := hs.clear
      interval_cases s
      · exact absurd (hclear 0 le_rfl (by decide)) (by decide +kernel)
      · exact absurd (hclear 2 (by decide) (by decide)) (by decide +kernel)
      · exact absurd (hclear 2 (by decide) (by decide)) (by decide +kernel)
  exact ⟨by decide, (first_fit (by decide) (by decide)).1 3 hleast,
    (first_fit (by decide) (by decide)).2.2 (by decide +kernel)⟩

/-! ## Accounting -/

/-- The bound on the frames, and the counter as the rest of the clear frames. -/
structure PmmInv (p : Pmm) : Prop where
  bound : p.totalFrames.toNat ≤ 1048576
  count : p.usedFramesCount.toNat + Bitmap.clearCount p.frameBitmap 0 p.totalFrames.toNat =
    p.totalFrames.toNat

section Accounting

variable {p p' : Pmm} {addr : Word} {n f : ℕ}

theorem PmmInv.takeFrame (hi : PmmInv p) (hf : f < p.totalFrames.toNat)
    (hclear : Bitmap.test p.frameBitmap f = false) : PmmInv (takeFrame p f) := by
  have hb := hi.bound
  have hc := hi.count
  have hmem : f ∈ Bitmap.clearBits p.frameBitmap 0 p.totalFrames.toNat :=
    Bitmap.mem_clearBits.mpr ⟨⟨Nat.zero_le f, hf⟩, hclear⟩
  have hset := Bitmap.clearCount_set (show f < 8 * 131072 by omega) hmem
  refine ⟨hb, ?_⟩
  show (p.usedFramesCount + 1#32).toNat +
    Bitmap.clearCount (Bitmap.set p.frameBitmap f) 0 p.totalFrames.toNat = p.totalFrames.toNat
  have hadd : (p.usedFramesCount + 1#32).toNat = p.usedFramesCount.toNat + 1 := by
    rw [BitVec.toNat_add]
    exact Nat.mod_eq_of_lt (by simp only [BitVec.toNat_ofNat]; omega)
  omega

/-- Marking a run of clear frames, one after the other. -/
theorem PmmInv.foldl_takeFrame (hi : PmmInv p) {start : ℕ} (hn : start + n ≤ p.totalFrames.toNat)
    (hclear : ∀ f, start ≤ f → f < start + n → Bitmap.test p.frameBitmap f = false) :
    PmmInv ((List.range' start n).foldl Mm.takeFrame p) := by
  induction n generalizing p start with
  | zero => exact hi
  | succ n ih =>
    have hb := hi.bound
    rw [List.range'_succ, List.foldl_cons]
    refine ih (hi.takeFrame (by omega) (hclear start le_rfl (by omega))) ?_ fun f hlo hhi => ?_
    · rw [takeFrame_totalFrames]
      omega
    · rw [takeFrame_frameBitmap, Bitmap.test_set _ (by omega), hclear f (by omega) (by omega)]
      simp only [Bool.or_false, decide_eq_false_iff_not]
      omega

theorem PmmInv.taken (hi : PmmInv p) (h : Taken p p' addr n) : PmmInv p' := by
  rw [h.result]
  exact hi.foldl_takeFrame h.below h.clear

theorem PmmInv.free (hi : PmmInv p) (hf : f < p.totalFrames.toNat)
    (hset : Bitmap.test p.frameBitmap f = true) :
    PmmInv { p with
      frameBitmap := Bitmap.clear p.frameBitmap f
      usedFramesCount := p.usedFramesCount - 1#32 } := by
  have hb := hi.bound
  have hc := hi.count
  have hle := Bitmap.clearCount_le (Bitmap.clear p.frameBitmap f) 0 p.totalFrames.toNat
  have hclear := Bitmap.clearCount_clear (show f < 8 * 131072 by omega) (Nat.zero_le f) hf hset
  refine ⟨hb, ?_⟩
  -- the marked frame itself makes the counter positive
  have hsub : (p.usedFramesCount - 1#32).toNat = p.usedFramesCount.toNat - 1 :=
    BitVec.toNat_sub_of_le (BitVec.le_def.mpr (by simp only [BitVec.toNat_ofNat]; omega))
  show (p.usedFramesCount - 1#32).toNat +
    Bitmap.clearCount (Bitmap.clear p.frameBitmap f) 0 p.totalFrames.toNat = p.totalFrames.toNat
  omega

theorem PmmInv.request (hi : PmmInv p) {r : Pmm × Word} (h : r = (p, 0#32) ∨ Taken p r.1 r.2 n) :
    PmmInv r.1 := by
  rcases h with rfl | h
  · exact hi
  · exact hi.taken h

theorem PmmInv.step (hi : PmmInv p) (op : PmmOp) : PmmInv (p.step op) := by
  cases op with
  | allocFrame => exact hi.request (allocFrame_outcome hi.bound)
  | allocContiguousFrames count => exact hi.request (allocContiguousFrames_cases hi.bound)
  | freeFrame addr =>
    rw [Pmm.step, Pmm.call]
    rcases freeFrame_cases p addr with h | ⟨hf, hset, h⟩
    · rwa [h]
    · rw [h]
      exact hi.free hf hset

theorem frameCount_le (mbi : MultibootInfo) : (frameCount mbi).toNat ≤ 1048576 := by
  rw [frameCount]
  split
  · exact le_rfl
  · next h => exact BitVec.le_def.mp (BitVec.not_lt.mp h)

theorem PmmInv.init {image : KernelImage} {mbi : MultibootInfo} {mem : Word → Word} {fuel : ℕ}
    (h : initPmm image mbi mem fuel = some p) : PmmInv p := by
  obtain ⟨m, -, h⟩ := Option.bind_eq_some_iff.mp h
  cases h
  have hb := frameCount_le mbi
  refine ⟨hb, ?_⟩
  dsimp only
  rw [countUsed, toNat_count _ (by omega)]
  exact card_used_add_clearCount _ _

/-- The counters agree with the bitmap. -/
structure Accounted (p : Pmm) : Prop where
  used : p.usedFramesCount.toNat =
    ((Finset.range p.totalFrames.toNat).filter fun f => bitmapTest p.frameBitmap f).card
  used_le : p.usedFramesCount.toNat ≤ p.totalFrames.toNat
  free : (pmmFreeFrames p).toNat =
    ((Finset.range p.totalFrames.toNat).filter fun f => ¬bitmapTest p.frameBitmap f).card

theorem PmmInv.accounted (hi : PmmInv p) : Accounted p := by
  have hc := hi.count
  have hcard := card_used_add_clearCount p.frameBitmap p.totalFrames.toNat
  have hle : p.usedFramesCount.toNat ≤ p.totalFrames.toNat := by omega
  simp only [← bitmapTest_eq] at hcard
  refine ⟨by omega, hle, ?_⟩
  have hsplit := Finset.card_filter_add_card_filter_not (s := Finset.range p.totalFrames.toNat)
    fun f => bitmapTest p.frameBitmap f = true
  rw [Finset.card_range] at hsplit
  rw [pmmFreeFrames, BitVec.toNat_sub_of_le (BitVec.le_def.mpr hle)]
  omega

end Accounting

/-- **Frame accounting**: after every sequence of calls, frees of any address and requests of any
length included, the counter of used frames is the number of set bits below `total_frames`, and
`pmm_free_frames` the number of clear ones. -/
theorem frames_accounted {image : KernelImage} {mbi : MultibootInfo} {mem : Word → Word} {fuel : ℕ}
    {p : Pmm} (hinit : initPmm image mbi mem fuel = some p) (ops : List PmmOp) :
    Along Pmm.step Accounted p ops := by
  rw [along_iff_take]
  intro n
  have hi : PmmInv ((ops.take n).foldl Pmm.step p) :=
    invariant_run (I := PmmInv) (fun hi => hi.step _) (PmmInv.init hinit)
  exact hi.accounted

/-- An image of one page at 1 MB. -/
def smallImage : KernelImage := ⟨0xC0100000#32, 0xC0101000#32, by decide, by decide⟩

/-- A boot loader that reports 16 KB above the first megabyte, without a memory map. -/
def smallInfo : MultibootInfo := ⟨mbFlagMem, 0#32, 16#32, 0#32, 0#32⟩

/-- The frame after the image is the first to be handed out. -/
theorem initPmm_small : ∃ p, initPmm smallImage smallInfo (fun _ => 0#32) 0 = some p ∧
    (allocFrame p).2 = 0x101000#32 :=
  Option.map_eq_some_iff.mp (by decide +kernel)

theorem frames_accounted_small : ∃ p, initPmm smallImage smallInfo (fun _ => 0#32) 0 = some p ∧
    Along Pmm.step Accounted p
      [.allocFrame, .freeFrame 0xFFFFF000#32, .allocContiguousFrames 0xFFFFFFFF#32, .freeFrame 0#32] := by
  obtain ⟨p, hinit, -⟩ := initPmm_small
  exact ⟨p, hinit, frames_accounted hinit _⟩

/-! ## Ownership -/

/-- The bitmap, and the frames in the hands of callers. -/
structure Holding where
  pmm : Pmm
  held : Finset ℕ

/-- The `n` frames from an address on. -/
def frameRange (addr : Word) (n : ℕ) : Finset ℕ :=
  Finset.Ico (addr.toNat / 4096) (addr.toNat / 4096 + n)

/-- The caller of a request holds what it is given. -/
def Holding.receive (s : Holding) (op : PmmOp) : Holding where
  pmm := s.pmm.step op
  held := if (s.pmm.call op).2 = 0#32 then s.held
    else s.held ∪ frameRange (s.pmm.call op).2 op.count

/-- Frames are held from the request that returns them to the call that frees them. -/
def Holding.step (s : Holding) : PmmOp → Holding
  | .allocFrame => s.receive .allocFrame
  | .allocContiguousFrames count => s.receive (.allocContiguousFrames count)
  | .freeFrame addr => ⟨s.pmm.step (.freeFrame addr), s.held.erase (addr.toNat / 4096)⟩

/-- Only frames that are held are freed. -/
def Holding.Allowed (s : Holding) : PmmOp → Prop
  | .allocFrame => True
  | .allocContiguousFrames _ => True
  | .freeFrame addr => addr.toNat / 4096 ∈ s.held

/-- The frames that no caller may get: the first megabyte and the kernel image. -/
def Reserved (image : KernelImage) (f : ℕ) : Prop :=
  f < 256 ∨ ((image.start - kernelBase).toNat < (f + 1) * 4096 ∧
    f * 4096 < (image.stop - kernelBase).toNat)

/-- The frames that `op` returns have been handed to its caller. -/
structure Granted (image : KernelImage) (s : Holding) (op : PmmOp) : Prop where
  some_frame : 0 < op.count
  aligned : (s.pmm.call op).2.toNat % 4096 = 0
  fresh : Disjoint s.held (frameRange (s.pmm.call op).2 op.count)
  below : ∀ f ∈ frameRange (s.pmm.call op).2 op.count, f < s.pmm.totalFrames.toNat
  usable : ∀ f ∈ frameRange (s.pmm.call op).2 op.count, ¬Reserved image f
  clear : ∀ f ∈ frameRange (s.pmm.call op).2 op.count, bitmapTest s.pmm.frameBitmap f = false
  marked : ∀ f, bitmapTest (s.pmm.step op).frameBitmap f =
    (decide (f ∈ frameRange (s.pmm.call op).2 op.count) || bitmapTest s.pmm.frameBitmap f)

/-- A request is granted, or it returns 0 and the bitmap is as before. -/
def Answered (image : KernelImage) (s : Holding) (op : PmmOp) : Prop :=
  if (s.pmm.call op).2 = 0#32 then (s.pmm.step op).frameBitmap = s.pmm.frameBitmap
  else Granted image s op

/-- What a call promises its caller. -/
def Delivered (image : KernelImage) (s : Holding) : PmmOp → Prop
  | .allocFrame => Answered image s .allocFrame
  | .allocContiguousFrames count => Answered image s (.allocContiguousFrames count)
  | .freeFrame _ => True

/-- Reserved frames stay marked, and callers hold marked frames that are not reserved. -/
structure HoldInv (image : KernelImage) (s : Holding) : Prop where
  pmm : PmmInv s.pmm
  reserved : ∀ f < s.pmm.totalFrames.toNat, Reserved image f →
    Bitmap.test s.pmm.frameBitmap f = true
  held : ∀ f ∈ s.held, Bitmap.test s.pmm.frameBitmap f = true
  usable : ∀ f ∈ s.held, ¬Reserved image f

section Ownership

variable {image : KernelImage} {s : Holding} {op : PmmOp} {p p' : Pmm} {addr : Word} {n : ℕ}

theorem mem_frameRange {f : ℕ} :
    f ∈ frameRange addr n ↔ addr.toNat / 4096 ≤ f ∧ f < addr.toNat / 4096 + n :=
  Finset.mem_Ico

theorem Taken.totalFrames (h : Taken p p' addr n) : p'.totalFrames = p.totalFrames := by
  rw [h.result, foldl_takeFrame_totalFrames]

theorem Taken.test (h : Taken p p' addr n) (hp : p.totalFrames.toNat ≤ 1048576) (f : ℕ) :
    Bitmap.test p'.frameBitmap f =
      (decide (f ∈ frameRange addr n) || Bitmap.test p.frameBitmap f) := by
  have hbelow := h.below
  rw [h.result, foldl_takeFrame_frameBitmap, Bitmap.test_foldl_set _ fun b hb => ?_]
  · congr 1
    rw [decide_eq_decide, mem_frameRange, List.mem_range'_1]
  · have := List.mem_range'_1.mp hb
    omega

/-- Frames that are taken were clear, so they are not reserved. -/
theorem HoldInv.taken_usable (hi : HoldInv image s) (h : Taken s.pmm p' addr n) {f : ℕ}
    (hf : f ∈ frameRange addr n) : f < s.pmm.totalFrames.toNat ∧ ¬Reserved image f := by
  obtain ⟨hlo, hhi⟩ := mem_frameRange.mp hf
  have hlt : f < s.pmm.totalFrames.toNat := lt_of_lt_of_le hhi h.below
  refine ⟨hlt, fun hres => ?_⟩
  have htest := hi.reserved f hlt hres
  rw [h.clear f hlo hhi] at htest
  cases htest

/-- The address of taken frames is not the failure value: frame 0 is reserved. -/
theorem HoldInv.taken_ne_zero (hi : HoldInv image s) (h : Taken s.pmm p' addr n) : addr ≠ 0#32 := by
  rintro rfl
  have hmem : 0 ∈ frameRange 0#32 n := mem_frameRange.mpr ⟨le_rfl, by simpa using h.pos⟩
  exact (hi.taken_usable h hmem).2 (.inl (by decide))

theorem HoldInv.granted (hi : HoldInv image s)
    (h : Taken s.pmm (s.pmm.call op).1 (s.pmm.call op).2 op.count) : Granted image s op where
  some_frame := h.pos
  aligned := h.aligned
  fresh := by
    rw [Finset.disjoint_left]
    intro f hheld hf
    have htest := hi.held f hheld
    obtain ⟨hlo, hhi⟩ := mem_frameRange.mp hf
    rw [h.clear f hlo hhi] at htest
    cases htest
  below f hf := (hi.taken_usable h hf).1
  usable f hf := (hi.taken_usable h hf).2
  clear f hf := by
    obtain ⟨hlo, hhi⟩ := mem_frameRange.mp hf
    rw [bitmapTest_eq, h.clear f hlo hhi]
  marked f := by
    rw [bitmapTest_eq, bitmapTest_eq]
    exact h.test hi.pmm.bound f

/-- What a request can do. -/
theorem HoldInv.answered (hi : HoldInv image s)
    (h : s.pmm.call op = (s.pmm, 0#32) ∨
      Taken s.pmm (s.pmm.call op).1 (s.pmm.call op).2 op.count) : Answered image s op := by
  rcases h with h | h
  · rw [Answered, if_pos (by rw [h]), Pmm.step, h]
  · rw [Answered, if_neg (hi.taken_ne_zero h)]
    exact hi.granted h

theorem HoldInv.delivered (hi : HoldInv image s) (op : PmmOp) : Delivered image s op := by
  cases op with
  | allocFrame => exact hi.answered (allocFrame_outcome hi.pmm.bound)
  | allocContiguousFrames count => exact hi.answered (allocContiguousFrames_cases hi.pmm.bound)
  | freeFrame addr => trivial

/-- A call that changes nothing keeps the invariant, whatever becomes of the frames it names. -/
theorem HoldInv.mono (hi : HoldInv image s) {held : Finset ℕ} (h : held ⊆ s.held) :
    HoldInv image ⟨s.pmm, held⟩ :=
  ⟨hi.pmm, hi.reserved, fun f hf => hi.held f (h hf), fun f hf => hi.usable f (h hf)⟩

theorem HoldInv.take (hi : HoldInv image s) (h : Taken s.pmm p' addr n) :
    HoldInv image ⟨p', s.held ∪ frameRange addr n⟩ := by
  have htest := h.test hi.pmm.bound
  refine ⟨hi.pmm.taken h, fun f hf hres => ?_, fun f hf => ?_, fun f hf => ?_⟩
  · rw [htest, hi.reserved f (by rwa [h.totalFrames] at hf) hres, Bool.or_true]
  · rcases Finset.mem_union.mp hf with hf | hf
    · rw [htest, hi.held f hf, Bool.or_true]
    · rw [htest, decide_eq_true hf, Bool.true_or]
  · rcases Finset.mem_union.mp hf with hf | hf
    · exact hi.usable f hf
    · exact (hi.taken_usable h hf).2

/-- Freeing a held frame clears a bit that is neither reserved nor held by anyone else. -/
theorem HoldInv.free (hi : HoldInv image s) {f : ℕ} (hf : f < s.pmm.totalFrames.toNat)
    (hheld : f ∈ s.held) :
    HoldInv image ⟨{ s.pmm with
      frameBitmap := Bitmap.clear s.pmm.frameBitmap f
      usedFramesCount := s.pmm.usedFramesCount - 1#32 }, s.held.erase f⟩ := by
  have hb := hi.pmm.bound
  have htest (g : ℕ) (hne : g ≠ f) :
      Bitmap.test (Bitmap.clear s.pmm.frameBitmap f) g = Bitmap.test s.pmm.frameBitmap g := by
    rw [Bitmap.test_clear _ (by omega), decide_eq_true hne, Bool.true_and]
  refine ⟨hi.pmm.free hf (hi.held f hheld), fun g hg hres => ?_, fun g hg => ?_, fun g hg => ?_⟩
  · dsimp only
    rw [htest g fun heq : g = f => hi.usable f hheld (heq ▸ hres)]
    exact hi.reserved g hg hres
  · obtain ⟨hne, hg⟩ := Finset.mem_erase.mp hg
    exact (htest g hne).trans (hi.held g hg)
  · exact hi.usable g (Finset.mem_of_mem_erase hg)

theorem HoldInv.receive (hi : HoldInv image s)
    (h : s.pmm.call op = (s.pmm, 0#32) ∨
      Taken s.pmm (s.pmm.call op).1 (s.pmm.call op).2 op.count) :
    HoldInv image (s.receive op) := by
  rcases h with h | h
  · rw [Holding.receive, Pmm.step, if_pos (by rw [h]), h]
    exact hi
  · rw [Holding.receive, if_neg (hi.taken_ne_zero h)]
    exact hi.take h

theorem HoldInv.step (hi : HoldInv image s) (hallowed : s.Allowed op) :
    HoldInv image (s.step op) := by
  cases op with
  | allocFrame => exact hi.receive (allocFrame_outcome hi.pmm.bound)
  | allocContiguousFrames count => exact hi.receive (allocContiguousFrames_cases hi.pmm.bound)
  | freeFrame addr =>
    rw [Holding.step, Pmm.step]
    rcases freeFrame_cases s.pmm addr with h | ⟨hf, -, h⟩
    · rw [Pmm.call, h]
      exact hi.mono (Finset.erase_subset _ _)
    · rw [Pmm.call, h]
      exact hi.free hf hallowed

theorem mem_frames {lo hi total : Word} {f : ℕ} :
    f ∈ frames lo hi total ↔ lo.toNat ≤ f ∧ f < hi.toNat ∧ f < total.toNat := by
  rw [frames, List.mem_range'_1]
  omega

/-- The frames that `init_pmm` marks for the kernel are those the image touches. -/
theorem mem_kernelFrames {total : Word} {f : ℕ} :
    f ∈ kernelFrames image total ↔ ((image.start - kernelBase).toNat < (f + 1) * 4096 ∧
      f * 4096 < (image.stop - kernelBase).toNat) ∧ f < total.toNat := by
  have hbase : kernelBase.toNat = 3221225472 := rfl
  have hstop : (image.stop - kernelBase).toNat = image.stop.toNat - 3221225472 :=
    BitVec.toNat_sub_of_le (BitVec.le_def.mpr (image.higher.trans image.ordered))
  -- the image ends below 4 GB, so rounding up does not wrap
  have hround : ((image.stop - kernelBase + frameSize - 1#32) / frameSize).toNat =
      ((image.stop - kernelBase).toNat + 4095) / 4096 := by
    have hlt := image.stop.isLt
    have hadd : (image.stop - kernelBase + frameSize).toNat =
        (image.stop - kernelBase).toNat + 4096 := by
      rw [BitVec.toNat_add]
      exact Nat.mod_eq_of_lt (by simp only [BitVec.toNat_ofNat]; omega)
    rw [BitVec.toNat_udiv, BitVec.toNat_sub_of_le
      (BitVec.le_def.mpr (by rw [hadd]; simp only [BitVec.toNat_ofNat]; omega)), hadd]
    rfl
  have hfirst : ((image.start - kernelBase) / frameSize).toNat =
      (image.start - kernelBase).toNat / 4096 := BitVec.toNat_udiv
  rw [kernelFrames, mem_frames, hround, hfirst]
  omega

theorem HoldInv.init {mbi : MultibootInfo} {mem : Word → Word} {fuel : ℕ}
    (h : initPmm image mbi mem fuel = some p) : HoldInv image ⟨p, ∅⟩ := by
  refine ⟨PmmInv.init h, fun f hf hres => ?_, ?_, ?_⟩
  · have hb := frameCount_le mbi
    obtain ⟨m, -, h⟩ := Option.bind_eq_some_iff.mp h
    cases h
    dsimp only at hf ⊢
    rw [Bitmap.test_foldl_set _ fun b hb' => ?_, Bitmap.test_foldl_set _ fun b hb' => ?_]
    · rcases hres with hlow | himage
      · rw [decide_eq_true (List.mem_range.mpr hlow), Bool.true_or, Bool.or_true]
      · rw [decide_eq_true (mem_kernelFrames.mpr ⟨himage, hf⟩), Bool.true_or]
    · have := List.mem_range.mp hb'
      omega
    · have := (mem_kernelFrames.mp hb').2
      omega
  · exact fun f hf => absurd hf (Finset.notMem_empty f)
  · exact fun f hf => absurd hf (Finset.notMem_empty f)

end Ownership

/-- **Frame ownership**: whatever the memory map, in every sequence of requests and of frees of held
frames each request is granted frames that nobody holds, below `total_frames`, outside the first
megabyte and the kernel image, and newly marked; or it returns 0 and leaves the bitmap alone. -/
theorem frames_owned {image : KernelImage} {mbi : MultibootInfo} {mem : Word → Word} {fuel : ℕ}
    {p : Pmm} (hinit : initPmm image mbi mem fuel = some p) {ops : List PmmOp}
    (hops : Steps Holding.step Holding.Allowed ⟨p, ∅⟩ ops) :
    Steps Holding.step (Delivered image) ⟨p, ∅⟩ ops :=
  hops.imp (fun hi hallowed => hi.step hallowed) (fun hi _ => hi.delivered _) (HoldInv.init hinit)

theorem frames_owned_small : ∃ p, initPmm smallImage smallInfo (fun _ => 0#32) 0 = some p ∧
    Steps Holding.step (Delivered smallImage) ⟨p, ∅⟩
      [.allocFrame, .freeFrame 0x101000#32, .allocContiguousFrames 3#32, .allocFrame] := by
  obtain ⟨p, hinit, haddr⟩ := initPmm_small
  refine ⟨p, hinit, frames_owned hinit ⟨trivial, ?_, trivial, trivial, trivial⟩⟩
  show (0x101000#32).toNat / 4096 ∈ if (allocFrame p).2 = 0#32 then ∅
    else ∅ ∪ frameRange (allocFrame p).2 1
  rw [haddr]
  decide

end PekerOS.Mm
