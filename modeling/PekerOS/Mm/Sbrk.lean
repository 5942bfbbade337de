import PekerOS.Mm.UserPages
import PekerOS.Lib.Run

/-!
# The heap of a user program

`sys_sbrk` moves the end of a task's heap and maps the pages between the old end and the new one. It asks
neither where the new end is nor whether `alloc_frame` has a frame, so it is safe for the calls that it can
satisfy, and the others go wrong: `eax` is the old end in either case.

## Main definitions

* `UserHeap`, `sysSbrk`: the heap of a task, and the system call
* `Satisfiable`: the new end is in bounds, and there are frames for the new pages
* `UserHeap.Safe`: the heap in order, in a state
* `SbrkAnswered`: what a call may change, and what it returns if it cannot be satisfied

## Main results

* `growPages_spec`: the loop maps the pages to frames of their own
* `HeapInv.step`: a call that can be satisfied keeps the heap in order
* `sbrk_iff`: **the calls are safe exactly if each of them can be satisfied**
-/

namespace PekerOS.Mm

/-- The heap of a task, with the memory management. `frameFor` is no variable of the kernel: it records for
each page what `alloc_frame` has last returned for it. -/
structure UserHeap where
  machine : Machine
  heapStart : Word
  heapEnd : Word
  frameFor : ℕ → Option Word

/-- `create_task` lets the heap start at 256 MB. -/
def UserHeap.new (s : Machine) : UserHeap := ⟨s, 0x10000000#32, 0x10000000#32, fun _ => none⟩

/-- The frame that a virtual address is mapped to. -/
def UserHeap.frame (h : UserHeap) (v : Word) : Option ℕ := translate h.machine.cr3 h.machine.mem v

/-- The address of page `i`. -/
def pageAt (i : ℕ) : Word := BitVec.ofNat 32 i * 4096#32

/-- A round of the loop of `sys_sbrk`. -/
def growPage (h : UserHeap) (i : ℕ) : Option UserHeap :=
  let (pmm, frame) := allocFrame h.machine.pmm
  (pagingMapMemory { h.machine with pmm := pmm } frame (pageAt i) 4096#32).map fun s =>
    { h with machine := s, frameFor := Function.update h.frameFor i (some frame) }

/-- The pages from `old_page` to `new_page`. -/
def newPages (oldEnd newEnd : Word) : List ℕ :=
  let oldPage := (oldEnd + 4095#32) / 4096#32
  let newPage := (newEnd + 4095#32) / 4096#32
  List.range' oldPage.toNat (newPage.toNat - oldPage.toNat)

/-- `sys_sbrk`, with the value of `eax`; `none` on a page fault. -/
def sysSbrk (h : UserHeap) (increment : Word) : Option (UserHeap × Word) :=
  let oldEnd := h.heapEnd
  if increment = 0#32 then some (h, oldEnd)
  else
    let newEnd := oldEnd + increment
    -- for a lower break there are no new pages, and none is given back
    ((newPages oldEnd newEnd).foldlM growPage h).map fun h => ({ h with heapEnd := newEnd }, oldEnd)

/-! ## What is asked of the calls -/

/-- The end that is asked for is in bounds, and `alloc_frame` has a frame for each new page and for each
page table that is missing. -/
structure Satisfiable (pd : ℕ) (h : UserHeap) (increment : Word) : Prop where
  low : (h.heapStart.toNat : ℤ) ≤ h.heapEnd.toNat + increment.toInt
  high : h.heapEnd.toNat + increment.toInt ≤ kernelBase.toNat
  frames : needed pd h.machine ((newPages h.heapEnd (h.heapEnd + increment)).map pageAt) ≤
    freeFrames h.machine.pmm

/-- The heap in order: its end is in bounds, and every address of it is mapped to the frame that
`alloc_frame` has returned for its page. -/
structure UserHeap.Safe (h : UserHeap) : Prop where
  low : h.heapStart ≤ h.heapEnd
  high : h.heapEnd ≤ kernelBase
  page : ∀ v, h.heapStart ≤ v → v < h.heapEnd → ∃ frame, h.frameFor (frameOf v) = some frame ∧
    frame ≠ 0#32 ∧ h.frame v = some (frameOf frame)

/-- A call changes no page outside the heap, and none at all if it cannot be satisfied and returns -1. -/
structure SbrkAnswered (pd : ℕ) (h h' : UserHeap) (increment eax : Word) : Prop where
  other : ∀ v, frameOf v < frameOf h.heapStart ∨ (h'.heapEnd.toNat + 4095) / 4096 ≤ frameOf v →
    h'.frame v = h.frame v
  refused : ¬Satisfiable pd h increment →
    eax = -1#32 ∧ h'.heapEnd = h.heapEnd ∧ ∀ v, h'.frame v = h.frame v

/-- One call after another; a page fault stops the kernel. -/
def sbrkStep (h : Option UserHeap) (increment : Word) : Option UserHeap :=
  h.bind fun h => (sysSbrk h increment).map Prod.fst

/-- The calls are safe: none of them faults, the heap is in order in every state, and every call does no
more than it may. -/
def SbrkSafe (pd : ℕ) (h : UserHeap) (increments : List Word) : Prop :=
  Along sbrkStep (fun s => ∃ h, s = some h ∧ h.Safe) (some h) increments ∧
    Steps sbrkStep (fun s increment => ∀ h, s = some h → ∃ h' eax,
      sysSbrk h increment = some (h', eax) ∧ SbrkAnswered pd h h' increment eax) (some h) increments

/-- Every call can be satisfied in the state it is made in. -/
def AllSatisfiable (pd : ℕ) (h : UserHeap) (increments : List Word) : Prop :=
  Steps sbrkStep (fun s increment => ∀ h, s = some h → Satisfiable pd h increment) (some h) increments

/-! ## The loop -/

section Loop

variable {pd i : ℕ} {h h' : UserHeap} {increment eax : Word}

theorem frameOf_pageAt (hi : i < 1048576) : frameOf (pageAt i) = i := frameOf_frame hi

/-- A round maps a frame, and records it. -/
theorem growPage_eq (h : UserHeap) (i : ℕ) :
    growPage h i = (mapFrame h.machine (pageAt i)).map fun s =>
      { h with
        machine := s, frameFor := Function.update h.frameFor i (some (allocFrame h.machine.pmm).2) } := rfl

theorem growPage_machine (h : UserHeap) (i : ℕ) :
    (growPage h i).map UserHeap.machine = mapFrame h.machine (pageAt i) := by
  rw [growPage_eq, Option.map_map]
  exact congrFun Option.map_id (mapFrame h.machine (pageAt i))

/-- The calls of the memory management are those of the system call. -/
theorem sysSbrk_machine (h : UserHeap) (increment : Word) :
    (sysSbrk h increment).map (fun r => r.1.machine) =
      (KernelCall.sysSbrk h.heapEnd increment).ops.foldlM Machine.step h.machine := by
  have hloop (is : List ℕ) (h : UserHeap) : (is.foldlM growPage h).map UserHeap.machine =
      (is.map fun i => PagingOp.map .allocFrame (pageAt i) 4096#32).foldlM Machine.step h.machine := by
    induction is generalizing h with
    | nil => rfl
    | cons i is ih =>
      have hfirst := growPage_machine h i
      rw [mapFrame_eq_step] at hfirst
      rw [List.foldlM_cons, List.map_cons, List.foldlM_cons, ← hfirst]
      cases growPage h i with
      | none => rfl
      | some h' => exact ih h'
  rw [sysSbrk]
  split
  · next hzero =>
    subst hzero
    simp [KernelCall.ops]
  · rw [Option.map_map, KernelCall.ops]
    exact hloop _ h

/-- **The loop**: the pages are mapped to frames of their own, and no other page changes. -/
theorem growPages_spec {is : List ℕ} (hs : Sound pd h.machine) (his : ∀ i ∈ is, i < 786432)
    (hroom : needed pd h.machine (is.map pageAt) ≤ freeFrames h.machine.pmm) :
    ∃ h', is.foldlM growPage h = some h' ∧ Sound pd h'.machine ∧
      (∀ v, frameOf v ∈ is → ∃ frame, h'.frameFor (frameOf v) = some frame ∧ frame ≠ 0#32 ∧
        h'.frame v = some (frameOf frame)) ∧
      ∀ v, frameOf v ∉ is → h'.frame v = h.frame v ∧ h'.frameFor (frameOf v) = h.frameFor (frameOf v) := by
  -- the frames left suffice for the pages still to come
  induction is generalizing h with
  | nil => exact ⟨h, rfl, hs, fun v hv => absurd hv List.not_mem_nil, fun v _ => ⟨rfl, rfl⟩⟩
  | cons i is ih =>
    have hi := his i List.mem_cons_self
    have hlow : pageAt i < kernelBase := by
      rw [BitVec.lt_def, pageAt, toNat_frame (by omega)]
      change i * 4096 < 3221225472
      omega
    have hframe := frameOf_pageAt (show i < 1048576 by omega)
    obtain ⟨s, f, hmap, hmapped⟩ := hs.mapFrame hlow (needed_first hroom)
    have hf := hmapped.returnable.lt
    have hgrow : growPage h i = some { h with
        machine := s
        frameFor := Function.update h.frameFor i (some (BitVec.ofNat 32 f * frameSize)) } := by
      rw [growPage_eq, hmap, hmapped.alloc, Option.map_some]
    obtain ⟨h', hrun, hs', hpages, hothers⟩ := ih (h := { h with
        machine := s, frameFor := Function.update h.frameFor i (some (BitVec.ofNat 32 f * frameSize)) })
      hmapped.sound (fun j hj => his j (List.mem_cons_of_mem i hj)) (hmapped.needed hroom)
    refine ⟨h', ?_, hs', fun v hv => ?_, fun v hv => ?_⟩
    · rw [List.foldlM_cons, hgrow]
      exact hrun
    · by_cases hlater : frameOf v ∈ is
      · exact hpages v hlater
      · -- the page of this round
        obtain rfl := (List.mem_cons.mp hv).resolve_right hlater
        obtain ⟨hsame, hfor⟩ := hothers v hlater
        refine ⟨_, hfor.trans (Function.update_self _ _ _), hs.took_ne_zero hmapped.returnable, ?_⟩
        rw [hsame, frameOf_frame (by omega)]
        exact hmapped.page v hframe.symm
    · -- a page of no round is mapped as before
      rw [List.mem_cons, not_or] at hv
      obtain ⟨hsame, hfor⟩ := hothers v hv.2
      refine ⟨hsame.trans (hmapped.other v ?_), hfor.trans (Function.update_of_ne hv.1 _ _)⟩
      rw [hframe]
      exact hv.1

theorem sysSbrk_eax (h' : UserHeap) (hcall : sysSbrk h increment = some (h', eax)) : eax = h.heapEnd := by
  rw [sysSbrk] at hcall
  dsimp only at hcall
  split at hcall
  · exact (Prod.mk.inj (Option.some.inj hcall)).2.symm
  · obtain ⟨_, -, heq⟩ := Option.map_eq_some_iff.mp hcall
    exact (Prod.mk.inj heq).2.symm

theorem growPages_heapStart {is : List ℕ} (hrun : is.foldlM growPage h = some h') :
    h'.heapStart = h.heapStart := by
  induction is generalizing h with
  | nil => rw [← Option.some.inj hrun]
  | cons i is ih =>
    rw [List.foldlM_cons] at hrun
    obtain ⟨h₁, hfirst, hrest⟩ := Option.bind_eq_some_iff.mp hrun
    rw [growPage_eq] at hfirst
    obtain ⟨s, -, rfl⟩ := Option.map_eq_some_iff.mp hfirst
    exact (ih hrest).trans rfl

theorem sysSbrk_heapStart (hcall : sysSbrk h increment = some (h', eax)) : h'.heapStart = h.heapStart := by
  rw [sysSbrk] at hcall
  dsimp only at hcall
  split at hcall
  · rw [← (Prod.mk.inj (Option.some.inj hcall)).1]
  · obtain ⟨h₁, hrun, heq⟩ := Option.map_eq_some_iff.mp hcall
    rw [← (Prod.mk.inj heq).1]
    exact (growPages_heapStart hrun :)

theorem sysSbrk_heapEnd (hcall : sysSbrk h increment = some (h', eax)) :
    h'.heapEnd = h.heapEnd + increment := by
  rw [sysSbrk] at hcall
  dsimp only at hcall
  split at hcall
  · next hzero =>
    rw [← (Prod.mk.inj (Option.some.inj hcall)).1, hzero, BitVec.add_zero]
  · obtain ⟨_, -, heq⟩ := Option.map_eq_some_iff.mp hcall
    rw [← (Prod.mk.inj heq).1]

end Loop

/-! ## Runs -/

/-- The invariant: all pages up to the end of the heap are mapped, the last one as a whole. -/
structure HeapInv (pd : ℕ) (h : UserHeap) : Prop where
  sound : Sound pd h.machine
  aligned : h.heapStart.toNat % 4096 = 0
  low : h.heapStart ≤ h.heapEnd
  high : h.heapEnd ≤ kernelBase
  page : ∀ v, h.heapStart ≤ v → frameOf v < (h.heapEnd.toNat + 4095) / 4096 → ∃ frame,
    h.frameFor (frameOf v) = some frame ∧ frame ≠ 0#32 ∧ h.frame v = some (frameOf frame)

section Runs

variable {pd : ℕ} {s : Machine} {h : UserHeap} {increment : Word}

theorem HeapInv.safe (hi : HeapInv pd h) : h.Safe := by
  refine ⟨hi.low, hi.high, fun v hlow hhigh => hi.page v hlow ?_⟩
  rw [BitVec.lt_def] at hhigh
  rw [frameOf_eq]
  omega

theorem HeapInv.new (hs : Sound pd s) : HeapInv pd (.new s) := by
  refine ⟨hs, show (0x10000000#32).toNat % 4096 = 0 by decide,
    show 0x10000000#32 ≤ 0x10000000#32 by decide, show 0x10000000#32 ≤ kernelBase by decide,
    fun v hlow hv => ?_⟩
  change 268435456 ≤ v.toNat at hlow
  change frameOf v < (268435456 + 4095) / 4096 at hv
  rw [frameOf_eq] at hv
  omega

/-- The end of the heap does not wrap around. -/
theorem Satisfiable.toNat (hsat : Satisfiable pd h increment) :
    ((h.heapEnd + increment).toNat : ℤ) = h.heapEnd.toNat + increment.toInt := by
  have hlow := hsat.low
  have hhigh := hsat.high
  have hbase : kernelBase.toNat = 3221225472 := rfl
  have hlt := increment.isLt
  rw [BitVec.toInt_eq_toNat_cond] at *
  rw [BitVec.toNat_add]
  split at hlow <;> omega

/-- The pages between two ends below the higher half. -/
theorem mem_newPages {oldEnd newEnd : Word} {i : ℕ} (hold : oldEnd ≤ kernelBase)
    (hnew : newEnd ≤ kernelBase) :
    i ∈ newPages oldEnd newEnd ↔
      (oldEnd.toNat + 4095) / 4096 ≤ i ∧ i < (newEnd.toNat + 4095) / 4096 := by
  have hpage {e : Word} (he : e ≤ kernelBase) :
      ((e + 4095#32) / 4096#32).toNat = (e.toNat + 4095) / 4096 := by
    rw [BitVec.le_def] at he
    change e.toNat ≤ 3221225472 at he
    rw [BitVec.toNat_udiv, BitVec.toNat_add]
    change (e.toNat + 4095) % 2 ^ 32 / 4096 = _
    rw [Nat.mod_eq_of_lt (by omega)]
  rw [newPages, hpage hold, hpage hnew, List.mem_range'_1]
  omega

/-- **A call that can be satisfied** keeps the heap in order, and changes no page outside it. -/
theorem HeapInv.step (hi : HeapInv pd h) (hsat : Satisfiable pd h increment) :
    ∃ h' eax, sysSbrk h increment = some (h', eax) ∧ HeapInv pd h' ∧
      SbrkAnswered pd h h' increment eax := by
  have hend := hsat.toNat
  have hstart := hi.aligned
  have hlow := hsat.low
  have hhigh := hsat.high
  have hbelow : h.heapEnd + increment ≤ kernelBase := by
    rw [BitVec.le_def]
    omega
  have habove : h.heapStart ≤ h.heapEnd + increment := by
    rw [BitVec.le_def]
    omega
  have hmem {i : ℕ} := @mem_newPages h.heapEnd (h.heapEnd + increment) i hi.high hbelow
  -- `sbrk(0)` returns the break and does nothing
  by_cases hzero : increment = 0#32
  · subst hzero
    exact ⟨h, h.heapEnd, by rw [sysSbrk, if_pos rfl], hi, fun _ _ => rfl, fun hnot => absurd hsat hnot⟩
  · have hbase : kernelBase.toNat = 3221225472 := rfl
    rw [BitVec.le_def, hbase] at hbelow
    obtain ⟨h', hrun, hs, hpages, hothers⟩ := growPages_spec hi.sound
      (fun i hi' => by have := hmem.mp hi'; omega) hsat.frames
    have hstart' := growPages_heapStart hrun
    refine ⟨{ h' with heapEnd := h.heapEnd + increment }, h.heapEnd, ?_,
      ⟨hs, ?_, ?_, ?_, fun v hv hlt => ?_⟩, fun v hv => ?_, fun hnot => absurd hsat hnot⟩
    · -- the break moves after all pages are mapped
      rw [sysSbrk, if_neg hzero]
      exact congrArg (Option.map _) hrun
    · rw [hstart']
      exact hstart
    · rw [hstart']
      exact habove
    · rw [BitVec.le_def, hbase]
      exact hbelow
    · by_cases hnew : frameOf v ∈ newPages h.heapEnd (h.heapEnd + increment)
      · exact hpages v hnew
      · -- the page was there before the call
        obtain ⟨hsame, hfor⟩ := hothers v hnew
        rw [hmem] at hnew
        dsimp only at hv hlt
        rw [hstart'] at hv
        obtain ⟨frame, hframe, hne, htr⟩ := hi.page v hv (by omega)
        exact ⟨frame, hfor.trans hframe, hne, hsame.trans htr⟩
    · -- pages that are not new are translated as before
      refine (hothers v fun hnew => ?_).1
      rw [hmem] at hnew
      have hle := hi.low
      rw [BitVec.le_def] at hle
      rw [frameOf_eq h.heapStart] at hv
      rcases hv with hv | hv
      · omega
      · dsimp only at hv
        omega

end Runs

/-- **sbrk**: from a sound machine, calls with any increments are safe if and only if each of them can be
satisfied in the state it is made in. -/
theorem sbrk_iff {pd : ℕ} {s : Machine} (hs : Sound pd s) (increments : List Word) :
    SbrkSafe pd (.new s) increments ↔ AllSatisfiable pd (.new s) increments := by
  refine along_and_steps_iff_of_invariant (I := fun s => ∃ h, s = some h ∧ HeapInv pd h) ?_ ?_ ?_
    ⟨_, rfl, .new hs⟩
  · rintro _ ⟨h, rfl, hi⟩
    exact ⟨h, rfl, hi.safe⟩
  · rintro _ increment ⟨h, rfl, hi⟩ hsat
    obtain ⟨h', eax, hcall, hi', hanswered⟩ := hi.step (hsat h rfl)
    refine ⟨⟨h', by rw [sbrkStep, Option.bind_some, hcall, Option.map_some], hi'⟩, ?_⟩
    rintro _ ⟨⟩
    exact ⟨h', eax, hcall, hanswered⟩
  · rintro _ increment ⟨h, rfl, hi⟩ hnot ⟨-, hanswered⟩
    obtain ⟨h', eax, hcall, hanswered⟩ := hanswered h rfl
    have hbad : ¬Satisfiable pd h increment := fun hsat => hnot (by rintro _ ⟨⟩; exact hsat)
    -- the call returns the old end, which is not -1
    have heax := (hanswered.refused hbad).1
    have hhigh := hi.high
    rw [sysSbrk_eax h' hcall] at heax
    rw [heax] at hhigh
    exact absurd hhigh (by decide)

/-- A page more, and back. -/
theorem sbrk_grow_shrink :
    Sound 256 (oneTable true id) ∧ SbrkSafe 256 (.new (oneTable true id)) [4096#32, -4096#32] := by
  refine ⟨sound_oneTable, (sbrk_iff sound_oneTable _).mpr ⟨?_, ?_, trivial⟩⟩
  · rintro _ ⟨⟩
    refine ⟨by decide, by decide, (needed_le _ _ _).trans ?_⟩
    decide +kernel
  · intro h hh
    rw [sbrkStep, Option.bind_some] at hh
    obtain ⟨⟨h', eax⟩, hcall, rfl⟩ := Option.map_eq_some_iff.mp hh
    have hend : h'.heapEnd = 0x10001000#32 :=
      (sysSbrk_heapEnd hcall).trans (show 0x10000000#32 + 4096#32 = 0x10001000#32 by decide)
    have hstart : h'.heapStart = 0x10000000#32 := sysSbrk_heapStart hcall
    refine ⟨?_, ?_, ?_⟩ <;> dsimp only
    · rw [hend, hstart]
      decide
    · rw [hend]
      decide
    · rw [hend]
      exact (needed_le _ _ _).trans (Nat.zero_le _)

/-- Below its start the heap has no new pages, so the call only moves the end. -/
theorem sysSbrk_below (s : Machine) :
    sysSbrk (.new s) (-4096#32) =
      some ({ UserHeap.new s with heapEnd := 0x0FFFF000#32 }, 0x10000000#32) := by
  have hpages : newPages 0x10000000#32 0x0FFFF000#32 = [] := by decide
  have hend : 0x10000000#32 + -4096#32 = 0x0FFFF000#32 := by decide
  rw [sysSbrk, if_neg (by decide)]
  dsimp only [UserHeap.new]
  rw [hend, hpages]
  rfl

/-- The heap ends below its start, and the call does not return -1. -/
theorem sbrk_below_start :
    let h := UserHeap.new (oneTable true id)
    (∃ h', sysSbrk h (-4096#32) = some (h', 0x10000000#32) ∧ h'.heapEnd = 0x0FFFF000#32) ∧
      ¬SbrkSafe 256 h [-4096#32] := by
  intro h
  have hcall := sysSbrk_below (oneTable true id)
  refine ⟨⟨_, hcall, rfl⟩, fun hsafe => ?_⟩
  obtain ⟨halong, -⟩ := hsafe
  obtain ⟨h', hh', hsafe⟩ := halong.2.first
  rw [sbrkStep, Option.bind_some, hcall] at hh'
  have hlow := (Option.some.inj hh' ▸ hsafe).low
  exact absurd hlow (show ¬0x10000000#32 ≤ 0x0FFFF000#32 by decide)

end PekerOS.Mm
