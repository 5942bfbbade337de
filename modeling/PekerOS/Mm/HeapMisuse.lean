import PekerOS.Mm.HeapSpec

/-!
# The heap misused

Two requests that no caller should make. A request for more than the whole heap is refused by the fit
test, as long as rounding up and adding the header do not wrap the 32-bit size around to a few bytes,
which any free block then fits. Freeing a pointer a second time is refused by the flag in its header,
even when a merge has left that header as stale memory inside a free block: only `kmalloc` writes
there again.

## Main definitions

* `Refused h size`: `kmalloc` returns 0 and changes no header
* `Harmless h size`: the size does not wrap, or no block is free
* `HarmlessStep`, `FreeStep`: runs with such requests only, and runs without `kmalloc`
* `Vacated h as a`: a header given up, on the list or stale

## Main results

* `heap_refuses_iff`: **a request beyond the heap is refused unless its size wraps**
* `isFree_kfree`: the flags after `kfree`, at listed headers and at stale ones
* `double_free_refused`: **a second `kfree` changes nothing**
-/

namespace PekerOS.Kheap

/-- `kmalloc` returns 0 and leaves every header and link as it was. -/
def Refused (h : Heap) (size : Word) : Prop :=
  ∃ h', kmalloc h size = some (h', 0#32) ∧ h'.first = h.first ∧
    ∀ hs, Reaches h h.first hs → ∀ a ∈ hs, ∀ f, h'.get f a = h.get f a

/-- No header on the list is marked free. -/
def NoneFree (h : Heap) : Prop := ∃ hs, Reaches h h.first hs ∧ ∀ a ∈ hs, h.isFree a = 0#32

/-- The size of the block for this request does not wrap, or no block is free. -/
def Harmless (h : Heap) (size : Word) : Prop := size.toNat < 2 ^ 32 - 19 ∨ NoneFree h

/-- A call of `kmalloc` for any size that is harmless, a call of `kfree` for a live pointer, or a store of
an owner into its allocation. -/
inductive HarmlessStep : Arena → Arena → Prop
  | kmalloc {s : Arena} {size p : Word} {h : Heap} (hharmless : Harmless s.heap size)
      (hcall : kmalloc s.heap size = some (h, p)) :
      HarmlessStep s ⟨h, if p = 0#32 then s.live else Function.update s.live p (some size)⟩
  | kfree {s : Arena} {p n : Word} (hlive : s.live p = some n) :
      HarmlessStep s ⟨Kheap.kfree s.heap p, Function.update s.live p none⟩
  | store {s : Arena} {p n addr v : Word} (hlive : s.live p = some n)
      (hlo : p.toNat ≤ addr.toNat) (hhi : addr.toNat < p.toNat + n.toNat)
      (haligned : 4 ∣ addr.toNat) : HarmlessStep s ⟨s.heap.store addr v, s.live⟩

/-! ## Requests beyond the heap -/

section Oversized

variable {space : Space} {h : Heap} {s : Arena} {as : List Word} {size : Word}

/-- No block fits a request beyond the heap whose size does not wrap. -/
theorem HeapInv.kmalloc_oversized (hi : HeapInv space h as) (hsize : heapSize < size.toNat)
    (hharmless : size.toNat < 2 ^ 32 - 19 ∨ ∀ a ∈ as, h.isFree a = 0#32) :
    kmalloc h size = some (h, 0#32) := by
  have hcap : heapSize = 4194304 := rfl
  have hne : size ≠ 0#32 := by
    rintro rfl
    exact absurd hsize (by decide)
  have hnone : as.find? (fits h (totalSize size)) = none := by
    refine List.find?_eq_none.mpr fun a ha hfits => ?_
    obtain ⟨hfree, hfit⟩ : h.isFree a ≠ 0#32 ∧ totalSize size ≤ h.size a := by
      simpa [fits] using hfits
    rcases hharmless with hlt | htaken
    · have hin := hi.inside ha
      have htotal := toNat_totalSize_mod size
      have hle : (totalSize size).toNat ≤ (h.size a).toNat := hfit
      omega
    · exact hfree (htaken a ha)
  rw [Kheap.kmalloc, if_neg hne, hi.kmallocLoop_first, hnone]

/-- A request that wraps takes the first free block. -/
theorem HeapInv.kmalloc_wrapped (hi : HeapInv space h as) (hsize : 2 ^ 32 - 19 ≤ size.toNat)
    (hfree : ∃ a ∈ as, h.isFree a ≠ 0#32) :
    ∃ a ∈ as, h.isFree a ≠ 0#32 ∧
      kmalloc h size = some (takeBlock h a (totalSize size), a + headerSize) := by
  have hne : size ≠ 0#32 := by
    rintro rfl
    exact absurd hsize (by decide)
  have hsmall : (totalSize size).toNat ≤ 16 := by
    have hlt := size.isLt
    rw [toNat_totalSize_mod]
    omega
  cases hfind : as.find? (fits h (totalSize size)) with
  | none =>
    obtain ⟨a, ha, hfa⟩ := hfree
    have hfit : totalSize size ≤ h.size a := BitVec.le_def.mpr (hsmall.trans (hi.sizes a ha).1)
    exact absurd (List.find?_eq_none.mp hfind a ha) (by simp [fits, hfa, hfit])
  | some a =>
    have hfits : h.isFree a ≠ 0#32 ∧ totalSize size ≤ h.size a := by
      simpa [fits] using List.find?_some hfind
    refine ⟨a, List.mem_of_find?_eq_some hfind, hfits.1, ?_⟩
    rw [Kheap.kmalloc, if_neg hne, hi.kmallocLoop_first, hfind]

/-- The block taken is marked, whatever else the split has written. -/
theorem isFree_takeBlock (h : Heap) (a total : Word) : (takeBlock h a total).isFree a = 0#32 :=
  Function.update_self _ _ _

theorem ArenaInv.noneFree_iff (hinv : ArenaInv space s as) :
    NoneFree s.heap ↔ ∀ a ∈ as, s.heap.isFree a = 0#32 := by
  constructor
  · rintro ⟨hs, hreach, htaken⟩
    rwa [hreach.unique hinv.reaches] at htaken
  · exact fun htaken => ⟨as, hinv.reaches, htaken⟩

/-- **A request beyond the heap** is refused exactly when it is harmless. -/
theorem ArenaInv.refused_iff (hinv : ArenaInv space s as) (hsize : heapSize < size.toNat) :
    Refused s.heap size ↔ Harmless s.heap size := by
  rw [Harmless, hinv.noneFree_iff]
  constructor
  · rintro ⟨h', hcall, -, hsame⟩
    by_contra hharm
    push Not at hharm
    -- the block found is marked as taken, so its header changes
    obtain ⟨a, ha, hfree, htake⟩ := hinv.heap.kmalloc_wrapped hharm.1 hharm.2
    obtain ⟨rfl, -⟩ := Prod.mk.inj (Option.some.inj (htake.symm.trans hcall))
    have hflag := hsame as hinv.reaches a ha .isFree
    exact hfree (hflag.symm.trans (isFree_takeBlock _ _ _))
  · intro hharmless
    exact ⟨s.heap, hinv.heap.kmalloc_oversized hsize hharmless, rfl, fun _ _ _ _ _ => rfl⟩

/-- A harmless call is one of the calls that keep the heap in order, or changes nothing. -/
theorem HarmlessStep.heapStep {s' : Arena} (hinv : ArenaInv space s as) (hstep : HarmlessStep s s') :
    HeapStep s s' ∨ s' = s := by
  cases hstep with
  | kmalloc hharmless hcall =>
    rename_i size p h
    by_cases hsize : size.toNat ≤ heapSize
    · exact Or.inl (HeapStep.kmalloc hsize hcall)
    · rw [Harmless, hinv.noneFree_iff] at hharmless
      have hrefused := hinv.heap.kmalloc_oversized (by omega) hharmless
      obtain ⟨rfl, rfl⟩ := Prod.mk.inj (Option.some.inj (hrefused.symm.trans hcall))
      exact Or.inr rfl
  | kfree hlive => exact Or.inl (HeapStep.kfree hlive)
  | store hlive hlo hhi haligned => exact Or.inl (HeapStep.store hlive hlo hhi haligned)

theorem heapReachable_of_harmless {mem : Word → Word}
    (hrun : Relation.ReflTransGen HarmlessStep ⟨initKheap space mem, fun _ => none⟩ s) :
    HeapReachable space s := by
  induction hrun with
  | refl => exact ⟨mem, Relation.ReflTransGen.refl⟩
  | tail _ hstep ih =>
    obtain ⟨as, hinv⟩ := ih.inv
    rcases hstep.heapStep hinv with hstep | rfl
    · obtain ⟨mem', hrun⟩ := ih
      exact ⟨mem', hrun.tail hstep⟩
    · exact ih

end Oversized

/-- **A request beyond the heap is refused unless its size wraps**: in every state reached by calls of
`kmalloc` that do not wrap or find no free block, calls of `kfree` for live pointers and stores of the
owners, a request for more than `HEAP_SIZE` bytes returns 0 and changes no header if and only if it is
of that kind itself. -/
theorem heap_refuses_iff {space : Space} {mem : Word → Word} {s : Arena}
    (hrun : Relation.ReflTransGen HarmlessStep ⟨initKheap space mem, fun _ => none⟩ s) (size : Word)
    (hsize : heapSize < size.toNat) : Refused s.heap size ↔ Harmless s.heap size := by
  obtain ⟨as, hinv⟩ := (heapReachable_of_harmless hrun).inv
  exact hinv.refused_iff hsize

/-- One byte more than the heap. -/
theorem heap_refuses_next :
    let s : Arena := ⟨initKheap higherHalf fun _ => 0#32, fun _ => none⟩
    Relation.ReflTransGen HarmlessStep s s ∧ heapSize < (0x400001#32 : Word).toNat ∧
      Refused s.heap 0x400001#32 := by
  intro s
  have hiff := @heap_refuses_iff higherHalf (fun _ => 0#32) s Relation.ReflTransGen.refl 0x400001#32
    (by decide)
  exact ⟨Relation.ReflTransGen.refl, by decide, hiff.mpr (Or.inl (by decide))⟩

/-- The largest size of all: 16 bytes are taken, the header alone. -/
theorem heap_grants_wrapped :
    let s : Arena := ⟨initKheap higherHalf fun _ => 0#32, fun _ => none⟩
    Relation.ReflTransGen HarmlessStep s s ∧ heapSize < (0xFFFFFFFF#32 : Word).toNat ∧
      (∃ h, kmalloc s.heap 0xFFFFFFFF#32 = some (h, 0xC0200010#32) ∧ h.size 0xC0200000#32 = 16#32) ∧
      ¬Refused s.heap 0xFFFFFFFF#32 := by
  intro s
  refine ⟨Relation.ReflTransGen.refl, by decide, ⟨_, rfl, rfl⟩, ?_⟩
  rintro ⟨h', hcall, -⟩
  have hptr : (kmalloc s.heap 0xFFFFFFFF#32).map Prod.snd = some 0xC0200010#32 := rfl
  rw [hcall] at hptr
  exact absurd (Option.some.inj hptr : (0#32 : Word) = 0xC0200010#32) (by decide)

/-! ## Freeing twice -/

/-- A call of `kfree` for a live pointer, or a store of an owner into its allocation. -/
inductive FreeStep : Arena → Arena → Prop
  | kfree {s : Arena} {p n : Word} (hlive : s.live p = some n) :
      FreeStep s ⟨Kheap.kfree s.heap p, Function.update s.live p none⟩
  | store {s : Arena} {p n addr v : Word} (hlive : s.live p = some n)
      (hlo : p.toNat ≤ addr.toNat) (hhi : addr.toNat < p.toNat + n.toNat)
      (haligned : 4 ∣ addr.toNat) : FreeStep s ⟨s.heap.store addr v, s.live⟩

/-- The header at `a` is marked free, and no other header and no taken block of the list lies on it. -/
structure Vacated (h : Heap) (as : List Word) (a : Word) : Prop where
  free : h.isFree a ≠ 0#32
  headers : ∀ x ∈ as, Apart x a
  taken : ∀ x ∈ as, h.isFree x = 0#32 →
    a.toNat + 16 ≤ x.toNat ∨ x.toNat + (h.size x).toNat ≤ a.toNat

section Flags

variable {space : Space} {h : Heap} {as l r : List Word} {a x : Word}

/-- The first merge writes no flag. -/
theorem HeapInv.isFree_freeRight (hi : HeapInv space h (l ++ a :: r))
    (hx : ∀ y ∈ l ++ a :: r, Apart y x) : (Kheap.freeRight h a).isFree x = h.isFree x := by
  unfold Kheap.freeRight
  split
  · next hmerge =>
    have hnext := hi.next_mem hmerge.1
    obtain ⟨r₁, r₂, hr⟩ := List.append_of_mem hnext
    have hsplit : HeapInv space h ((l ++ a :: r₁) ++ h.next a :: r₂) := by
      simpa [← hr] using hi
    have hmem : h.next (h.next a) ≠ 0#32 → h.next (h.next a) ∈ l ++ a :: r := fun h0 => by
      have := hsplit.next_mem h0
      simp [hr, this]
    exact (get_mergeRight (hi.apart (by simp) (by simp [hnext])) (hx a (by simp))
      fun h0 => hx _ (hmem h0)).isFree
  · rfl

/-- The second merge writes no flag. -/
theorem HeapInv.isFree_freeLeft (hi : HeapInv space h (l ++ a :: r))
    (hx : ∀ y ∈ l ++ a :: r, Apart y x) : (Kheap.freeLeft h a).isFree x = h.isFree x := by
  unfold Kheap.freeLeft
  split
  · next hmerge =>
    have hprev := hi.linked.mid.1
    rcases List.eq_nil_or_concat l with rfl | ⟨l, q, rfl⟩
    · exact absurd hprev hmerge.1
    · rw [List.concat_eq_append, List.getLastD_concat] at hprev
      have hq : h.prev a ∈ (l.concat q) ++ a :: r := by simp [hprev]
      have hne : h.prev a ≠ a := by
        intro heq
        have hcross := (List.nodup_append.mp hi.nodup).2.2
        exact hcross (h.prev a) (by simp [hprev]) a List.mem_cons_self heq
      have hnext : h.next a ≠ 0#32 → h.next a ∈ (l.concat q) ++ a :: r := fun h0 => by
        have := hi.next_mem h0
        simp [this]
      exact (get_mergeLeft (hi.apart hq (by simp)) (hx _ hq) hne fun h0 => hx _ (hnext h0)).isFree
  · rfl

/-- **The flags after `kfree`**, at every header that overlaps no other one of the list. -/
theorem HeapInv.isFree_kfree (hi : HeapInv space h as) (hc : Coalesced h as) (ha : a ∈ as)
    (hptr : a + headerSize ≠ 0#32) (htaken : h.isFree a = 0#32) (hx : ∀ y ∈ as, Apart y x) :
    (Kheap.kfree h (a + headerSize)).isFree x = if x = a then 1#32 else h.isFree x := by
  obtain ⟨l, r, rfl⟩ := List.append_of_mem ha
  obtain ⟨hi₁, hfa, -, hcr₁⟩ := hi.marked hc
  obtain ⟨r', hi₂, hs₂, -, -⟩ := hi₁.freeRight hfa hcr₁
  rw [kfree_eq hptr htaken, hi₂.isFree_freeLeft fun y hy => hx y (hs₂.sub y hy),
    hi₁.isFree_freeRight hx, isFree_setFree (hx a ha)]

end Flags

section Vacate

variable {space : Space} {s s' : Arena} {as : List Word} {a : Word}

/-- A block that is freed leaves its header vacated. -/
theorem ArenaInv.vacate (hinv : ArenaInv space s as) {n : Word}
    (hlive : s.live (a + headerSize) = some n) :
    ∃ as', ArenaInv space ⟨Kheap.kfree s.heap (a + headerSize),
        Function.update s.live (a + headerSize) none⟩ as' ∧
      Vacated (Kheap.kfree s.heap (a + headerSize)) as' a := by
  obtain ⟨b, ha, hab, htaken, hn, hsize⟩ := hinv.live.owner _ n hlive
  obtain rfl := payload_inj hab
  have hptr := (hinv.heap.payload ha (by omega)).2
  obtain ⟨as', hinv', hsub, hflags, hkept⟩ := hinv.kfree_blocks hlive
  refine ⟨as', hinv', ?_, fun x hx => hinv.heap.apart (hsub x hx) ha, fun x hx hfree => ?_⟩
  · rw [hinv.heap.isFree_kfree hinv.coalesced ha hptr htaken fun y hy => hinv.heap.apart hy ha, if_pos rfl]
    decide
  · obtain ⟨hold, hxa⟩ := (hflags x hx).mp hfree
    have hheader := (hinv.heap.sizes a ha).1
    rw [(hkept x (hsub x hx) hold hxa).2]
    rcases hinv.heap.tiled.disjoint ha (hsub x hx) (Ne.symm hxa) with hlt | hlt
    · exact Or.inl (by omega)
    · exact Or.inr hlt

/-- **One call** other than `kmalloc` leaves a vacated header alone. -/
theorem Vacated.step (hinv : ArenaInv space s as) (hv : Vacated s.heap as a) (hstep : FreeStep s s') :
    ∃ as', ArenaInv space s' as' ∧ Vacated s'.heap as' a := by
  cases hstep with
  | kfree hlive =>
    rename_i p n
    obtain ⟨b, hb, rfl, htaken, hn, hsize⟩ := hinv.live.owner p n hlive
    have hptr := (hinv.heap.payload hb (by omega)).2
    obtain ⟨as', hinv', hsub, hflags, hkept⟩ := hinv.kfree_blocks hlive
    have hab : a ≠ b := fun heq => hv.free (heq ▸ htaken)
    refine ⟨as', hinv', ?_, fun x hx => hv.headers x (hsub x hx), fun x hx hfree => ?_⟩
    · dsimp only
      rw [hinv.heap.isFree_kfree hinv.coalesced hb hptr htaken hv.headers, if_neg hab]
      exact hv.free
    · obtain ⟨hold, hxb⟩ := (hflags x hx).mp hfree
      dsimp only
      rw [(hkept x (hsub x hx) hold hxb).2]
      exact hv.taken x (hsub x hx) hold
  | store hlive hlo hhi haligned =>
    rename_i p n addr v
    have hinv' := hinv.store (v := v) hlive hlo hhi
    obtain ⟨b, hb, rfl, htaken, hn, hsize⟩ := hinv.live.owner p n hlive
    have hptr := (hinv.heap.payload hb (by omega)).1
    have hhead := (hinv.heap.sizes b hb).1
    -- the allocation lies in a taken block, so not on the vacated header
    have ha : ∀ f, (s.heap.store addr v).get f a = s.heap.get f a := by
      refine get_store s.heap v (hv.headers b hb).right ?_
      rcases hv.taken b hb htaken with hlt | hlt <;> omega
    have hget := fun x hx f => hinv.get_store (x := x) v hlive hlo hhi hx f
    refine ⟨as, hinv', ?_, hv.headers, fun x hx hfree => ?_⟩
    · exact fun h0 => hv.free ((ha .isFree).symm.trans h0)
    · dsimp only at hfree ⊢
      rw [Heap.isFree, hget x hx] at hfree
      rw [Heap.size, hget x hx]
      exact hv.taken x hx hfree

/-- **The whole run** leaves a vacated header alone. -/
theorem Vacated.run (hinv : ArenaInv space s as) (hv : Vacated s.heap as a)
    (hrun : Relation.ReflTransGen FreeStep s s') :
    ∃ as', ArenaInv space s' as' ∧ Vacated s'.heap as' a := by
  induction hrun with
  | refl => exact ⟨as, hinv, hv⟩
  | tail _ hstep ih =>
    obtain ⟨as', hinv', hv'⟩ := ih
    exact hv'.step hinv' hstep

end Vacate

/-- The guard of `kfree`. -/
theorem kfree_of_free {h : Heap} {a : Word} (hfree : h.isFree a ≠ 0#32) :
    Kheap.kfree h (a + headerSize) = h := by
  unfold Kheap.kfree
  split
  · rfl
  · rw [BitVec.add_sub_cancel, if_pos hfree]

/-- **A double free is detected after merging**: from any reachable heap a live pointer is freed, then
any other live pointers, with stores of the owners in between. The next `kfree` of that pointer returns
the heap as it is, whether or not its header is still on the list. -/
theorem double_free_refused {space : Space} {s s' : Arena} (hs : HeapReachable space s) {p n : Word}
    (hlive : s.live p = some n)
    (hrun : Relation.ReflTransGen FreeStep
      ⟨Kheap.kfree s.heap p, Function.update s.live p none⟩ s') :
    Kheap.kfree s'.heap p = s'.heap := by
  obtain ⟨as, hinv⟩ := hs.inv
  obtain ⟨a, -, rfl, -⟩ := hinv.live.owner p n hlive
  obtain ⟨as₁, hinv₁, hv₁⟩ := hinv.vacate hlive
  obtain ⟨as₂, -, hv₂⟩ := hv₁.run hinv₁ hrun
  exact kfree_of_free hv₂.free

/-- Two blocks of 28 bytes are taken. The second is freed, then the first, which absorbs its header; then
the second again. -/
theorem double_free_refused_absorbed :
    let h := initKheap higherHalf fun _ => 0#32
    let h₁ := takeBlock h 0xC0200000#32 (totalSize 10#32)
    let h₂ := takeBlock h₁ 0xC020001C#32 (totalSize 10#32)
    let s : Arena := ⟨h₂, Function.update (Function.update (fun _ => none) 0xC0200010#32
      (some 10#32)) 0xC020002C#32 (some 10#32)⟩
    let s' : Arena :=
      ⟨Kheap.kfree s.heap 0xC020002C#32, Function.update s.live 0xC020002C#32 none⟩
    let s'' : Arena :=
      ⟨Kheap.kfree s'.heap 0xC0200010#32, Function.update s'.live 0xC0200010#32 none⟩
    HeapReachable higherHalf s ∧ s.live 0xC020002C#32 = some 10#32 ∧ s'.live 0xC0200010#32 = some 10#32 ∧
      s''.heap.next 0xC0200000#32 = 0#32 ∧ Kheap.kfree s''.heap 0xC020002C#32 = s''.heap := by
  intro h h₁ h₂ s s' s''
  have hs : HeapReachable higherHalf s := twoBlocks_reachable
  have hlive : s.live 0xC020002C#32 = some 10#32 := rfl
  have hother : s'.live 0xC0200010#32 = some 10#32 := rfl
  have hstep : FreeStep s' s'' := FreeStep.kfree hother
  have habsorbed : s''.heap.next 0xC0200000#32 = 0#32 := by decide +kernel
  have hrefused := double_free_refused hs hlive (Relation.ReflTransGen.single hstep)
  exact ⟨hs, hlive, hother, habsorbed, hrefused⟩

end PekerOS.Kheap
