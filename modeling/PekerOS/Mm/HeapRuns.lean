import PekerOS.Mm.HeapSafety

/-!
# Runs of the heap

What `kmalloc` and `kfree` can do to a heap in order, and from it what holds after every run: the
headers tile the heap, live allocations are the payloads of the taken blocks, and no two neighbours
are free.

## Main definitions

* `Coalesced h as`: no two neighbours are free
* `LiveInv h as live`: the live allocations are the payloads of the taken blocks
* `HeapSafe space s hs`: the headers and allocations of a heap, read off the memory

## Main results

* `kmallocLoop_eq`: the search ends, with the first block that fits
* `HeapInv.take`, `HeapInv.kfree`: the outcomes of the two functions
* `ArenaInv.kmalloc`, `ArenaInv.kfree_blocks`: the same with the live allocations
* `HeapReachable.inv`: the invariant of every reachable heap
-/

namespace PekerOS.Kheap

/-! ## Allocation -/

section Total

variable {size : Word}

/-- The size of a block for any request, in 32 bits. -/
theorem toNat_totalSize_mod (size : Word) :
    (totalSize size).toNat = ((size.toNat + 3) / 4 * 4 + 16) % 2 ^ 32 := by
  have hmod : (size % 4#32).toNat = size.toNat % 4 := BitVec.toNat_umod
  have hzero : size % 4#32 = 0#32 ↔ size.toNat % 4 = 0 := by
    rw [← hmod]
    exact ⟨fun h => by rw [h]; rfl, fun h => BitVec.eq_of_toNat_eq h⟩
  unfold totalSize alignedSize
  split
  · next hne =>
    have hlt : (size % 4#32).toNat ≤ (4#32 : Word).toNat := by
      rw [hmod]
      exact Nat.le_of_lt (Nat.mod_lt _ (by decide))
    rw [BitVec.toNat_add, BitVec.toNat_add, BitVec.toNat_sub_of_le hlt, hmod]
    have : size.toNat % 4 ≠ 0 := fun h => hne (hzero.mpr h)
    simp only [BitVec.toNat_ofNat]
    omega
  · next heq =>
    have : size.toNat % 4 = 0 := hzero.mp (not_not.mp heq)
    rw [BitVec.toNat_add]
    simp only [BitVec.toNat_ofNat]
    omega

/-- A request that the heap could hold: rounded up to 4, and a header. -/
theorem toNat_totalSize (hsize : size.toNat ≤ heapSize) :
    (totalSize size).toNat = (size.toNat + 3) / 4 * 4 + 16 := by
  have hcap : heapSize = 4194304 := rfl
  rw [toNat_totalSize_mod, Nat.mod_eq_of_lt (by omega)]

end Total

/-- The test of the first-fit loop. -/
def fits (h : Heap) (total a : Word) : Bool := h.isFree a ≠ 0#32 ∧ total ≤ h.size a

/-- **The search** of `kmalloc` over the headers: it ends with the first block that fits. -/
theorem kmallocLoop_eq {h : Heap} {total p : Word} {as : List Word} {n : ℕ}
    (hl : Linked h.next h.prev p as 0#32) (hz : ∀ a ∈ as, a ≠ 0#32) (hn : as.length < n) :
    kmallocLoop h total n (as.headD 0#32) =
      match as.find? (fits h total) with
      | some a => some (takeBlock h a total, a + headerSize)
      | none => some (h, 0#32) := by
  induction as generalizing p n with
  | nil =>
    obtain ⟨n, rfl⟩ : ∃ m, n = m + 1 := ⟨n - 1, by simp at hn; omega⟩
    rfl
  | cons a as ih =>
    obtain ⟨n, rfl⟩ : ∃ m, n = m + 1 := ⟨n - 1, by simp at hn; omega⟩
    obtain ⟨-, hnext, hrest⟩ := hl
    rw [List.headD_cons, kmallocLoop, if_neg (hz a List.mem_cons_self)]
    by_cases hfit : h.isFree a ≠ 0#32 ∧ total ≤ h.size a
    · rw [if_pos hfit, List.find?_cons_of_pos (by simpa [fits] using hfit)]
    · rw [if_neg hfit, hnext, List.find?_cons_of_neg (by simpa [fits] using hfit)]
      exact ih hrest (fun x hx => hz x (List.mem_cons_of_mem a hx))
        (by rw [List.length_cons] at hn; omega)

/-- The block `a` between `l` and `r` is taken; `new` is the header cut off behind it, if any. -/
structure Taken (space : Space) (h h' : Heap) (l r new : List Word) (a total : Word) : Prop where
  inv : HeapInv space h' (l ++ a :: (new ++ r))
  cut : new = [] ∨ new = [a + total]
  taken : h'.isFree a = 0#32
  large : total.toNat ≤ (h'.size a).toNat
  free : ∀ x ∈ new, h'.isFree x = 1#32
  same : ∀ x ∈ l ++ r, h'.isFree x = h.isFree x ∧ h'.size x = h.size x

theorem mem_mid {α : Type} {l r : List α} {a x : α} :
    x ∈ l ++ a :: r ↔ x = a ∨ x ∈ l ++ r := by
  simp only [List.mem_append, List.mem_cons]
  exact or_left_comm

namespace HeapInv

variable {space : Space} {h : Heap} {as l r : List Word} {a : Word}

theorem kmallocLoop_first (hi : HeapInv space h as) (total : Word) :
    kmallocLoop h total maxRounds h.first =
      match as.find? (fits h total) with
      | some a => some (takeBlock h a total, a + headerSize)
      | none => some (h, 0#32) := by
  rw [hi.first]
  exact kmallocLoop_eq hi.linked (fun a ha => hi.ne_zero ha) hi.length_lt

/-- **The block taken** is cut to size if the rest can hold a header. -/
theorem take {total : Word} (hi : HeapInv space h (l ++ a :: r)) (h16 : 16 ≤ total.toNat)
    (h4 : 4 ∣ total.toNat) (hfit : total.toNat ≤ (h.size a).toNat) :
    ∃ new, Taken space h (takeBlock h a total) l r new a total := by
  have hcap : heapSize = 4194304 := rfl
  have hin := hi.inside (a := a) (by simp)
  obtain ⟨-, hndar, hcross⟩ := List.nodup_append.mp hi.nodup
  obtain ⟨hnda, -⟩ := List.nodup_cons.mp hndar
  have hlr : ∀ x ∈ l ++ r, x ≠ a ∧ x ∈ l ++ a :: r := by
    intro x hx
    rcases List.mem_append.mp hx with hx | hx
    · exact ⟨fun heq => hcross x hx a List.mem_cons_self heq, by simp [hx]⟩
    · exact ⟨fun heq => hnda (heq ▸ hx), by simp [hx]⟩
  -- the header and a block of 4 bytes must fit behind, and the sum does not wrap
  have hsum : (total + headerSize + 4#32).toNat = total.toNat + 20 := by
    rw [BitVec.toNat_add, BitVec.toNat_add]
    simp only [BitVec.toNat_ofNat]
    omega
  unfold takeBlock
  by_cases hroom : total + headerSize + 4#32 < h.size a
  · have hlt : total.toNat + 20 < (h.size a).toNat := hsum ▸ BitVec.lt_def.mp hroom
    have hs := hi.split h16 h4 hlt
    have hget := fun x hx => hi.splitAt h16 hlt (x := x) hx
    have hnew := hi.newBlock_not_mem h16 hlt
    have hne : ∀ x ∈ l ++ a :: r, x ≠ a + total := fun x hx heq => hnew (heq ▸ hx)
    have ha : a ∈ l ++ a :: (a + total) :: r := by simp
    dsimp only
    rw [if_pos hroom]
    -- the block is cut in two, and the first part is taken
    refine ⟨[a + total], hs.setFree ha (Or.inl rfl), Or.inr rfl, ?_, ?_, ?_, ?_⟩
    · rw [Heap.isFree, get_set (hs.apart ha ha), if_pos ⟨rfl, rfl⟩]
    · rw [Heap.size, get_set (hs.apart ha ha), if_neg (by simp), ← Heap.size,
        (hget a (Or.inr (by simp))).size, if_pos rfl]
    · intro x hx
      rw [List.mem_singleton.mp hx, Heap.isFree, get_set (hs.apart ha (by simp)),
        if_neg fun heq => hne a (by simp) heq.2.symm, ← Heap.isFree, (hget _ (Or.inl rfl)).isFree,
        if_pos rfl]
    · intro x hx
      have hxm := (hlr x hx).2
      have hx' : x ∈ l ++ a :: (a + total) :: r := by
        rcases List.mem_append.mp hx with hx | hx <;> simp [hx]
      constructor
      · rw [Heap.isFree, get_set (hs.apart ha hx'), if_neg fun heq => (hlr x hx).1 heq.2,
          ← Heap.isFree, (hget x (Or.inr hxm)).isFree, if_neg (hne x hxm)]
      · rw [Heap.size, get_set (hs.apart ha hx'), if_neg (by simp), ← Heap.size,
          (hget x (Or.inr hxm)).size, if_neg (hlr x hx).1, if_neg (hne x hxm)]
  · have ha : a ∈ l ++ a :: r := by simp
    dsimp only
    rw [if_neg hroom]
    -- the block is taken whole
    refine ⟨[], hi.setFree ha (Or.inl rfl), Or.inl rfl, ?_, ?_, by simp, ?_⟩
    · rw [Heap.isFree, get_set (hi.apart ha ha), if_pos ⟨rfl, rfl⟩]
    · rw [Heap.size, get_set (hi.apart ha ha), if_neg (by simp)]
      exact hfit
    · intro x hx
      have hxm := (hlr x hx).2
      constructor
      · rw [Heap.isFree, get_set (hi.apart ha hxm), if_neg fun heq => (hlr x hx).1 heq.2]
      · rw [Heap.size, get_set (hi.apart ha hxm), if_neg (by simp)]

end HeapInv

/-! ## Freeing -/

/-- No two neighbours are free. -/
def Coalesced (h : Heap) (as : List Word) : Prop :=
  as.IsChain fun a b => h.isFree a = 0#32 ∨ h.isFree b = 0#32

/-- The first merge of `kfree`, if the right neighbour is free. -/
def freeRight (h : Heap) (block : Word) : Heap :=
  if h.next block ≠ 0#32 ∧ h.isFree (h.next block) ≠ 0#32 then mergeRight h block else h

/-- The second merge of `kfree`, if the left neighbour is free. -/
def freeLeft (h : Heap) (block : Word) : Heap :=
  if h.prev block ≠ 0#32 ∧ h.isFree (h.prev block) ≠ 0#32 then mergeLeft h block else h

/-- Headers may have gone, but no taken one, and no flag changed. -/
structure Shrunk (h h' : Heap) (as as' : List Word) : Prop where
  sub : ∀ x ∈ as', x ∈ as
  flags : ∀ x ∈ as', h'.isFree x = h.isFree x
  taken : ∀ x ∈ as, h.isFree x = 0#32 → x ∈ as' ∧ h'.size x = h.size x

section Free

variable {space : Space} {h h' h'' : Heap} {as as' as'' l r : List Word} {a : Word}

theorem Shrunk.refl (h : Heap) (as : List Word) : Shrunk h h as as :=
  ⟨fun _ hx => hx, fun _ _ => rfl, fun _ hx _ => ⟨hx, rfl⟩⟩

theorem Shrunk.trans (h₁ : Shrunk h h' as as') (h₂ : Shrunk h' h'' as' as'') :
    Shrunk h h'' as as'' where
  sub x hx := h₁.sub x (h₂.sub x hx)
  flags x hx := (h₂.flags x hx).trans (h₁.flags x (h₂.sub x hx))
  taken x hx hfree := by
    obtain ⟨hx', hsize⟩ := h₁.taken x hx hfree
    obtain ⟨hx'', hsize'⟩ := h₂.taken x hx' ((h₁.flags x hx').trans hfree)
    exact ⟨hx'', hsize'.trans hsize⟩

theorem isChain_mid {α : Type} {R : α → α → Prop} {l r : List α} {a : α} :
    (l ++ a :: r).IsChain R ↔ l.IsChain R ∧ r.IsChain R ∧ (∀ x ∈ l.getLast?, R x a) ∧
      ∀ y ∈ r.head?, R a y := by
  rw [List.isChain_append, List.isChain_cons]
  simp only [List.head?_cons, Option.mem_some, forall_eq']
  tauto

theorem Coalesced.congr (hc : Coalesced h as) (hflags : ∀ x ∈ as, h'.isFree x = h.isFree x) :
    Coalesced h' as := by
  refine List.IsChain.imp_of_mem_imp (fun x y hx hy hxy => ?_) hc
  rw [hflags x hx, hflags y hy]
  exact hxy

/-- A merge of two free neighbours loses no taken block. -/
theorem shrunk_absorb {b : Word}
    (hget : ∀ x ∈ l ++ a :: b :: r, Absorbed h h' a b x) (hfa : h.isFree a ≠ 0#32)
    (hfb : h.isFree b ≠ 0#32) : Shrunk h h' (l ++ a :: b :: r) (l ++ a :: r) := by
  have hsub : ∀ x ∈ l ++ a :: r, x ∈ l ++ a :: b :: r := by
    intro x hx
    rcases mem_mid.mp hx with rfl | hx
    · simp
    · rcases List.mem_append.mp hx with hx | hx <;> simp [hx]
  refine ⟨hsub, fun x hx => (hget x (hsub x hx)).isFree, fun x hx hfree => ?_⟩
  have hxa : x ≠ a := fun heq => hfa (heq ▸ hfree)
  have hxb : x ≠ b := fun heq => hfb (heq ▸ hfree)
  refine ⟨?_, by rw [(hget x hx).size, if_neg hxa]⟩
  rcases List.mem_append.mp ((mem_mid.mp hx).resolve_left hxa) with hxl | hxr
  · simp [hxl]
  · simp [(List.mem_cons.mp hxr).resolve_left hxb]

/-- **Merge Right**: afterwards the right neighbour is not free. -/
theorem HeapInv.freeRight (hi : HeapInv space h (l ++ a :: r)) (hfa : h.isFree a ≠ 0#32)
    (hc : Coalesced h r) :
    let h' := Kheap.freeRight h a
    ∃ r', HeapInv space h' (l ++ a :: r') ∧ Shrunk h h' (l ++ a :: r) (l ++ a :: r') ∧
      Coalesced h' r' ∧ ∀ y ∈ r'.head?, h'.isFree y = 0#32 := by
  intro h'
  have hnext := hi.linked.mid.2
  -- `c` is the block to the right, which is merged only when it is free
  cases r with
  | nil =>
    have hh : h' = h := if_neg fun hcond => hcond.1 hnext
    rw [hh]
    exact ⟨[], hi, Shrunk.refl _ _, hc, by simp⟩
  | cons c r =>
    rw [List.headD_cons] at hnext
    by_cases hfree : h.isFree c = 0#32
    · have hh : h' = h := if_neg fun hcond => hcond.2 (hnext ▸ hfree)
      rw [hh]
      exact ⟨c :: r, hi, Shrunk.refl _ _, hc, fun y hy => by
        obtain rfl : c = y := Option.some.inj hy
        exact hfree⟩
    · -- the block absorbs `c`
      have hh : h' = mergeRight h a :=
        if_pos ⟨by rw [hnext]; exact hi.ne_zero (by simp), by rw [hnext]; exact hfree⟩
      have hget : ∀ x ∈ l ++ a :: c :: r, Absorbed h h' a c x := by
        intro x hx
        have hcr : HeapInv space h ((l ++ [a]) ++ c :: r) := by simpa using hi
        have hmem : h.next c ≠ 0#32 → h.next c ∈ l ++ a :: c :: r := fun h0 => by
          have := hcr.next_mem h0
          simp [this]
        have habs := get_mergeRight (h := h) (a := a) (x := x)
          (by rw [hnext]; exact hi.apart (by simp) (by simp)) (hi.apart (by simp) hx)
          (by rw [hnext]; exact fun h0 => hi.apart (hmem h0) hx)
        rw [hnext] at habs
        rw [hh]
        exact habs
      have hfirst : h'.first = h.first := by
        rw [hh]
        unfold mergeRight
        dsimp only
        split <;> rfl
      have hshrunk := shrunk_absorb hget hfa hfree
      obtain ⟨hhead, hrest⟩ := List.isChain_cons.mp hc
      refine ⟨r, hi.absorb hfirst hget, hshrunk, ?_, fun y hy => ?_⟩
      · exact Coalesced.congr hrest fun x hx => (hget x (by simp [hx])).isFree
      · -- the block behind `c` was not free, as the list was coalesced
        have hyr : y ∈ r := List.mem_of_mem_head? hy
        rw [(hget y (by simp [hyr])).isFree]
        exact (hhead y hy).resolve_left hfree

/-- **Merge Left**: afterwards the left neighbour of the block, which may be another one now, is not
free. -/
theorem HeapInv.freeLeft (hi : HeapInv space h (l ++ a :: r)) (hfa : h.isFree a ≠ 0#32)
    (hc : Coalesced h l) :
    let h' := Kheap.freeLeft h a
    ∃ l' z, HeapInv space h' (l' ++ z :: r) ∧ Shrunk h h' (l ++ a :: r) (l' ++ z :: r) ∧
      Coalesced h' l' ∧ h'.isFree z ≠ 0#32 ∧ ∀ x ∈ l'.getLast?, h'.isFree x = 0#32 := by
  intro h'
  have hprev := hi.linked.mid.1
  -- `q` is the block to the left, which is merged only when it is free
  rcases List.eq_nil_or_concat l with rfl | ⟨l, q, rfl⟩
  · have hh : h' = h := if_neg fun hcond => hcond.1 hprev
    rw [hh]
    exact ⟨[], a, hi, Shrunk.refl _ _, hc, hfa, by simp⟩
  · rw [List.concat_eq_append] at *
    rw [List.getLastD_concat] at hprev
    by_cases hfree : h.isFree q = 0#32
    · have hh : h' = h := if_neg fun hcond => hcond.2 (hprev ▸ hfree)
      rw [hh]
      refine ⟨l ++ [q], a, hi, Shrunk.refl _ _, hc, hfa, fun x hx => ?_⟩
      rw [List.getLast?_concat] at hx
      obtain rfl : q = x := Option.some.inj hx
      exact hfree
    · have hq : q ∈ (l ++ [q]) ++ a :: r := by simp
      -- `q` absorbs the block of the call
      have hh : h' = mergeLeft h a :=
        if_pos ⟨by rw [hprev]; exact hi.ne_zero hq, by rw [hprev]; exact hfree⟩
      have hne : q ≠ a := by
        intro heq
        have hnd := (List.nodup_append.mp hi.nodup).2.2
        exact hnd q (by simp) a List.mem_cons_self heq
      have hmem : h.next a ≠ 0#32 → h.next a ∈ (l ++ [q]) ++ a :: r := fun h0 => by
        have := hi.next_mem h0
        simp [this]
      have hget : ∀ x ∈ l ++ q :: a :: r, Absorbed h h' q a x := by
        intro x hx
        have hx' : x ∈ (l ++ [q]) ++ a :: r := by simpa using hx
        have habs := get_mergeLeft (h := h) (a := a) (x := x)
          (by rw [hprev]; exact hi.apart hq (by simp)) (by rw [hprev]; exact hi.apart hq hx')
          (by rw [hprev]; exact hne) fun h0 => hi.apart (hmem h0) hx'
        rw [hprev] at habs
        rw [hh]
        exact habs
      have hfirst : h'.first = h.first := by
        rw [hh]
        unfold mergeLeft
        dsimp only
        split <;> rfl
      have hi' : HeapInv space h (l ++ q :: a :: r) := by simpa using hi
      have hshrunk : Shrunk h h' ((l ++ [q]) ++ a :: r) (l ++ q :: r) := by
        have := shrunk_absorb hget hfree hfa
        simpa using this
      obtain ⟨hl, -, hlast⟩ := List.isChain_append.mp hc
      refine ⟨l, q, hi'.absorb hfirst hget, hshrunk, ?_, ?_, fun x hx => ?_⟩
      · exact Coalesced.congr hl fun x hx => (hget x (by simp [hx])).isFree
      · rw [(hget q (by simp)).isFree]
        exact hfree
      · -- the block before `q` was not free, as the list was coalesced
        have hxl : x ∈ l := List.mem_of_mem_getLast? hx
        rw [(hget x (by simp [hxl])).isFree]
        exact (hlast x hx q rfl).resolve_right hfree

/-- The payload of a block that has one does not begin at address 0. -/
theorem HeapInv.payload (hi : HeapInv space h as) (ha : a ∈ as) (hsize : 16 < (h.size a).toNat) :
    (a + headerSize).toNat = a.toNat + 16 ∧ a + headerSize ≠ 0#32 := by
  have hfits := space.fits
  have hin := hi.inside ha
  have hnat : (a + headerSize).toNat = a.toNat + 16 := by
    rw [BitVec.toNat_add]
    simp only [BitVec.toNat_ofNat]
    omega
  refine ⟨hnat, fun h0 => ?_⟩
  rw [h0] at hnat
  exact absurd hnat (by simp)

/-- `kfree` of a taken block sets its flag, then merges on the right and on the left. -/
theorem kfree_eq (hptr : a + headerSize ≠ 0#32) (htaken : h.isFree a = 0#32) :
    Kheap.kfree h (a + headerSize) =
      Kheap.freeLeft (Kheap.freeRight (h.set .isFree a 1#32) a) a := by
  rw [Kheap.kfree, if_neg hptr, BitVec.add_sub_cancel, if_neg (not_not.mpr htaken)]
  rfl

theorem isFree_setFree {x : Word} (hx : Apart a x) :
    (h.set .isFree a 1#32).isFree x = if x = a then 1#32 else h.isFree x := by
  rw [Heap.isFree, get_set hx]
  simp

/-- With the flag set the list is still in order, and coalesced on either side of the block. -/
theorem HeapInv.marked (hi : HeapInv space h (l ++ a :: r)) (hc : Coalesced h (l ++ a :: r)) :
    let h' := h.set .isFree a 1#32
    HeapInv space h' (l ++ a :: r) ∧ h'.isFree a ≠ 0#32 ∧ Coalesced h' l ∧ Coalesced h' r := by
  have ha : a ∈ l ++ a :: r := by simp
  obtain ⟨hcl, hcr, -, -⟩ := isChain_mid.mp hc
  obtain ⟨-, hndar, hcross⟩ := List.nodup_append.mp hi.nodup
  obtain ⟨hnda, -⟩ := List.nodup_cons.mp hndar
  refine ⟨hi.setFree ha (Or.inr rfl), ?_, Coalesced.congr hcl fun x hx => ?_,
    Coalesced.congr hcr fun x hx => ?_⟩
  · rw [isFree_setFree (hi.apart ha ha), if_pos rfl]
    decide
  · rw [isFree_setFree (hi.apart ha (by simp [hx])),
      if_neg (fun heq : x = a => hcross x hx a List.mem_cons_self heq)]
  · rw [isFree_setFree (hi.apart ha (by simp [hx])), if_neg (fun heq : x = a => hnda (heq ▸ hx))]

/-- **The outcome of `kfree`** on the payload of a taken block: only that block is given up. -/
theorem HeapInv.kfree (hi : HeapInv space h as) (hc : Coalesced h as) (ha : a ∈ as)
    (hptr : a + headerSize ≠ 0#32) (htaken : h.isFree a = 0#32) :
    let h' := Kheap.kfree h (a + headerSize)
    ∃ as', HeapInv space h' as' ∧ Coalesced h' as' ∧ (∀ x ∈ as', x ∈ as) ∧
      (∀ x ∈ as', h'.isFree x = 0#32 ↔ h.isFree x = 0#32 ∧ x ≠ a) ∧
      ∀ x ∈ as, h.isFree x = 0#32 → x ≠ a → x ∈ as' ∧ h'.size x = h.size x := by
  intro h'
  obtain ⟨l, r, rfl⟩ := List.append_of_mem ha
  -- the flag is set first; then the list shrinks on the right and on the left
  obtain ⟨hi₁, hfa, hcl₁, hcr₁⟩ := hi.marked hc
  have hflag : ∀ x ∈ l ++ a :: r, (h.set .isFree a 1#32).isFree x =
      if x = a then 1#32 else h.isFree x := fun x hx => isFree_setFree (hi.apart ha hx)
  obtain ⟨r', hi₂, hs₂, hcr₂, hhead⟩ := hi₁.freeRight hfa hcr₁
  have heq : h' = Kheap.freeLeft (Kheap.freeRight (h.set .isFree a 1#32) a) a := kfree_eq hptr htaken
  generalize Kheap.freeRight (h.set .isFree a 1#32) a = h₂ at *
  have hfa₂ : h₂.isFree a ≠ 0#32 := by
    rw [hs₂.flags a (by simp)]
    exact hfa
  have hcl₂ : Coalesced h₂ l := hcl₁.congr fun x hx => hs₂.flags x (by simp [hx])
  obtain ⟨l', z, hi₃, hs₃, hcl₃, hfz, hlast⟩ := hi₂.freeLeft hfa₂ hcl₂
  rw [← heq] at hi₃ hs₃ hcl₃ hfz hlast
  have hshrunk := hs₂.trans hs₃
  refine ⟨l' ++ z :: r', hi₃, ?_, hshrunk.sub, fun x hx => ?_, fun x hx hfree hxa => ?_⟩
  · have hcr₃ : Coalesced h' r' := hcr₂.congr fun x hx => hs₃.flags x (by simp [hx])
    refine isChain_mid.mpr ⟨hcl₃, hcr₃, fun x hx => Or.inl (hlast x hx), fun y hy => Or.inr ?_⟩
    have hyr : y ∈ r' := List.mem_of_mem_head? hy
    rw [hs₃.flags y (by simp [hyr])]
    exact hhead y hy
  · rw [hshrunk.flags x hx, hflag x (hshrunk.sub x hx)]
    by_cases hxa : x = a
    · simp [hxa]
    · simp [hxa]
  · have hset : (h.set .isFree a 1#32).isFree x = 0#32 := by
      rw [hflag x hx, if_neg hxa]
      exact hfree
    obtain ⟨hx', hsz⟩ := hshrunk.taken x hx hset
    refine ⟨hx', hsz.trans ?_⟩
    rw [Heap.size, get_set (hi.apart ha hx), if_neg (by simp)]

end Free

/-! ## Live allocations -/

/-- The live allocations are the payloads of the taken blocks. -/
structure LiveInv (h : Heap) (as : List Word) (live : Word → Option Word) : Prop where
  owner : ∀ p n, live p = some n → ∃ a ∈ as, p = a + headerSize ∧ h.isFree a = 0#32 ∧
    0 < n.toNat ∧ n.toNat + 16 ≤ (h.size a).toNat
  taken : ∀ a ∈ as, h.isFree a = 0#32 → live (a + headerSize) ≠ none

/-- What holds of the heap and its allocations after every call. -/
structure ArenaInv (space : Space) (s : Arena) (as : List Word) : Prop where
  heap : HeapInv space s.heap as
  coalesced : Coalesced s.heap as
  live : LiveInv s.heap as s.live

section Live

variable {space : Space} {s : Arena} {as : List Word}

theorem arenaInv_init (space : Space) (mem : Word → Word) :
    ArenaInv space ⟨initKheap space mem, fun _ => none⟩ [space.addr] := by
  have hfits := space.fits
  have hcap : heapSize = 4194304 := rfl
  have hself : Apart space.addr space.addr := ⟨by omega, by omega, Or.inl rfl⟩
  have hget : (initKheap space mem).size space.addr = BitVec.ofNat 32 heapSize ∧
      (initKheap space mem).isFree space.addr = 1#32 ∧
      (initKheap space mem).next space.addr = 0#32 ∧
      (initKheap space mem).prev space.addr = 0#32 := by
    unfold initKheap
    simp [get_set hself]
  obtain ⟨hsize, hfree, hnext, hprev⟩ := hget
  have hnat : ((initKheap space mem).size space.addr).toNat = heapSize := by
    rw [hsize]
    rfl
  refine ⟨⟨rfl, ⟨hprev, hnext, trivial⟩, ⟨rfl, ?_⟩, ?_, ?_⟩, List.isChain_singleton _, ?_, ?_⟩
  · change space.addr.toNat + ((initKheap space mem).size space.addr).toNat = _
    rw [hnat]
  · intro a ha
    rw [List.mem_singleton.mp ha, hnat]
    decide
  · intro a ha
    rw [List.mem_singleton.mp ha]
    exact Or.inr hfree
  · intro p n h
    exact absurd h (by simp)
  · intro a ha h0
    rw [List.mem_singleton.mp ha] at h0
    exact absurd (hfree.symm.trans h0) (by decide)

/-- The pointer to a payload determines its block. -/
theorem payload_inj {a b : Word} (h : a + headerSize = b + headerSize) : a = b := by
  have hsub := congrArg (· - headerSize) h
  simpa only [BitVec.add_sub_cancel] using hsub

/-- The block taken was free, so its right neighbour is not. -/
theorem Taken.coalesced {h h' : Heap} {l r new : List Word} {a total : Word}
    (ht : Taken space h h' l r new a total) (hc : Coalesced h (l ++ a :: r))
    (hfree : h.isFree a ≠ 0#32) : Coalesced h' (l ++ a :: (new ++ r)) := by
  obtain ⟨hcl, hcr, -, hhead⟩ := isChain_mid.mp hc
  have hcl' : Coalesced h' l := Coalesced.congr hcl fun x hx => (ht.same x (by simp [hx])).1
  have hcr' : Coalesced h' r := Coalesced.congr hcr fun x hx => (ht.same x (by simp [hx])).1
  refine isChain_mid.mpr ⟨hcl', ?_, fun x _ => Or.inr ht.taken, fun y _ => Or.inl ht.taken⟩
  rcases ht.cut with rfl | rfl
  · exact hcr'
  · refine List.isChain_cons.mpr ⟨fun y hy => Or.inr ?_, hcr'⟩
    have hyr : y ∈ r := List.mem_of_mem_head? hy
    rw [(ht.same y (by simp [hyr])).1]
    exact (hhead y hy).resolve_left hfree

theorem Taken.live {h h' : Heap} {l r new : List Word} {a total size : Word}
    {live : Word → Option Word} (ht : Taken space h h' l r new a total)
    (hl : LiveInv h (l ++ a :: r) live) (hfree : h.isFree a ≠ 0#32) (hpos : 0 < size.toNat)
    (hsize : size.toNat + 16 ≤ total.toNat) :
    LiveInv h' (l ++ a :: (new ++ r)) (Function.update live (a + headerSize) (some size)) := by
  have hkeep : ∀ x ∈ l ++ r, x ∈ l ++ a :: (new ++ r) := by
    intro x hx
    rcases List.mem_append.mp hx with hx | hx <;> simp [hx]
  -- each live pointer has a taken block, and each taken block is a live pointer's
  refine ⟨fun p n hlive => ?_, fun b hb hbfree => ?_⟩
  · by_cases hp : p = a + headerSize
    · subst hp
      rw [Function.update_self] at hlive
      obtain rfl := Option.some.inj hlive
      exact ⟨a, by simp, rfl, ht.taken, hpos, le_trans hsize ht.large⟩
    · rw [Function.update_of_ne hp] at hlive
      obtain ⟨b, hb, rfl, hbfree, hbpos, hbsize⟩ := hl.owner p n hlive
      have hba : b ≠ a := fun heq => hfree (heq ▸ hbfree)
      have hblr := (mem_mid.mp hb).resolve_left hba
      refine ⟨b, hkeep b hblr, rfl, (ht.same b hblr).1.trans hbfree, hbpos, ?_⟩
      rw [(ht.same b hblr).2]
      exact hbsize
  · by_cases hba : b = a
    · rw [hba, Function.update_self]
      simp
    · rw [Function.update_of_ne fun heq => hba (payload_inj heq)]
      -- what is split off is free
      have hbn : b ∉ new := fun hbn => absurd ((ht.free b hbn).symm.trans hbfree) (by decide)
      have hblr : b ∈ l ++ r := by
        rcases List.mem_append.mp ((mem_mid.mp hb).resolve_left hba) with hb | hb
        · simp [hb]
        · simp [(List.mem_append.mp hb).resolve_left hbn]
      exact hl.taken b (mem_mid.mpr (Or.inr hblr)) ((ht.same b hblr).1.symm.trans hbfree)

/-- **The outcomes of `kmalloc`** for a request that the heap could hold: the call ends; it returns 0
and changes nothing when no block fits, and else takes the first block that does. -/
theorem ArenaInv.kmalloc (hinv : ArenaInv space s as) {size : Word} (hpos : size ≠ 0#32)
    (hsize : size.toNat ≤ heapSize) :
    (kmalloc s.heap size = some (s.heap, 0#32) ∧
      ∀ a ∈ as, s.heap.isFree a ≠ 0#32 → ¬totalSize size ≤ s.heap.size a) ∨
    ∃ h a as', kmalloc s.heap size = some (h, a + headerSize) ∧ a + headerSize ≠ 0#32 ∧ a ∈ as ∧
      s.heap.isFree a ≠ 0#32 ∧ totalSize size ≤ s.heap.size a ∧
      ArenaInv space ⟨h, Function.update s.live (a + headerSize) (some size)⟩ as' := by
  have htotal := toNat_totalSize hsize
  have hloop := hinv.heap.kmallocLoop_first (totalSize size)
  rw [Kheap.kmalloc, if_neg hpos, hloop]
  cases hfind : as.find? (fits s.heap (totalSize size)) with
  | none =>
    -- no free block is large enough
    refine Or.inl ⟨rfl, fun a ha hfree hle => ?_⟩
    have := List.find?_eq_none.mp hfind a ha
    exact this (by simp [fits, hfree, hle])
  | some a =>
    have ha : a ∈ as := List.mem_of_find?_eq_some hfind
    have hfit : s.heap.isFree a ≠ 0#32 ∧ totalSize size ≤ s.heap.size a := by
      simpa [fits] using List.find?_some hfind
    obtain ⟨l, r, rfl⟩ := List.append_of_mem ha
    have h16 : 16 ≤ (totalSize size).toNat := by omega
    have h4 : 4 ∣ (totalSize size).toNat := by omega
    have hsz : size.toNat ≠ 0 := fun h => hpos (BitVec.eq_of_toNat_eq h)
    have hge : (totalSize size).toNat ≤ (s.heap.size a).toNat := hfit.2
    have hptr := (hinv.heap.payload ha (by omega)).2
    obtain ⟨new, ht⟩ := hinv.heap.take h16 h4 hge
    exact Or.inr ⟨_, a, _, rfl, hptr, ha, hfit.1, hfit.2, ht.inv,
      ht.coalesced hinv.coalesced hfit.1, ht.live hinv.live hfit.1 (by omega) (by omega)⟩

/-- **The outcome of `kfree`** for a live pointer, with the blocks that stay. -/
theorem ArenaInv.kfree_blocks (hinv : ArenaInv space s as) {a n : Word}
    (hlive : s.live (a + headerSize) = some n) :
    let h' := Kheap.kfree s.heap (a + headerSize)
    ∃ as', ArenaInv space ⟨h', Function.update s.live (a + headerSize) none⟩ as' ∧
      (∀ x ∈ as', x ∈ as) ∧ (∀ x ∈ as', h'.isFree x = 0#32 ↔ s.heap.isFree x = 0#32 ∧ x ≠ a) ∧
      ∀ x ∈ as, s.heap.isFree x = 0#32 → x ≠ a → x ∈ as' ∧ h'.size x = s.heap.size x := by
  obtain ⟨b, ha, hab, htaken, hn, hsize⟩ := hinv.live.owner _ n hlive
  obtain rfl := payload_inj hab
  have hptr := (hinv.heap.payload ha (by omega)).2
  obtain ⟨as', hi, hc, hsub, hflags, hkept⟩ := hinv.heap.kfree hinv.coalesced ha hptr htaken
  refine ⟨as', ⟨hi, hc, ?_, ?_⟩, hsub, hflags, hkept⟩
  · -- the other live pointers keep their blocks
    intro q m hq
    dsimp only at hq ⊢
    by_cases hqa : q = a + headerSize
    · rw [hqa, Function.update_self] at hq
      exact absurd hq (by simp)
    · rw [Function.update_of_ne hqa] at hq
      obtain ⟨b, hb, rfl, hbfree, hbpos, hbsize⟩ := hinv.live.owner q m hq
      have hba : b ≠ a := fun heq => hqa (by rw [heq])
      obtain ⟨hb', hsize⟩ := hkept b hb hbfree hba
      refine ⟨b, hb', rfl, (hflags b hb').mpr ⟨hbfree, hba⟩, hbpos, ?_⟩
      rw [hsize]
      exact hbsize
  · intro b hb hbfree
    obtain ⟨hold, hba⟩ := (hflags b hb).mp hbfree
    dsimp only
    rw [Function.update_of_ne fun heq => hba (payload_inj heq)]
    exact hinv.live.taken b (hsub b hb) hold

theorem ArenaInv.kfree (hinv : ArenaInv space s as) {p n : Word} (hlive : s.live p = some n) :
    ∃ as', ArenaInv space ⟨Kheap.kfree s.heap p, Function.update s.live p none⟩ as' := by
  obtain ⟨a, -, rfl, -⟩ := hinv.live.owner p n hlive
  obtain ⟨as', hinv', -⟩ := hinv.kfree_blocks hlive
  exact ⟨as', hinv'⟩

/-- A store outside a header leaves its fields alone. -/
theorem get_store (h : Heap) {addr x : Word} (v : Word) (hx : x.toNat + 16 ≤ 2 ^ 32)
    (hsep : addr.toNat < x.toNat ∨ x.toNat + 16 ≤ addr.toNat) (f : Field) :
    (h.store addr v).get f x = h.get f x := by
  refine Function.update_of_ne (fun heq => ?_) _ _
  have hf := f.offset_toNat_le
  have hnat := congrArg BitVec.toNat heq
  rw [toNat_add_offset hx] at hnat
  omega

/-- A store into a live allocation touches no header. -/
theorem ArenaInv.get_store (hinv : ArenaInv space s as) {p n addr x : Word} (v : Word)
    (hlive : s.live p = some n) (hlo : p.toNat ≤ addr.toNat)
    (hhi : addr.toNat < p.toNat + n.toNat) (hx : x ∈ as) (f : Field) :
    (s.heap.store addr v).get f x = s.heap.get f x := by
  obtain ⟨a, ha, rfl, htaken, hn, hsize⟩ := hinv.live.owner p n hlive
  have hptr := (hinv.heap.payload ha (by omega)).1
  have hxsize := (hinv.heap.sizes x hx).1
  refine Kheap.get_store _ v (hinv.heap.apart hx hx).left ?_ f
  by_cases hxa : x = a
  · subst hxa
    omega
  · rcases hinv.heap.tiled.disjoint ha hx (Ne.symm hxa) with hlt | hlt <;> omega

theorem ArenaInv.store (hinv : ArenaInv space s as) {p n addr v : Word}
    (hlive : s.live p = some n) (hlo : p.toNat ≤ addr.toNat)
    (hhi : addr.toNat < p.toNat + n.toNat) : ArenaInv space ⟨s.heap.store addr v, s.live⟩ as := by
  have hget := fun x hx f => hinv.get_store (x := x) v hlive hlo hhi hx f
  refine ⟨hinv.heap.congr rfl (fun x hx f _ => hget x hx f) fun x hx => ?_,
    hinv.coalesced.congr fun x hx => hget x hx .isFree, ?_, ?_⟩
  · rw [Heap.isFree, hget x hx .isFree]
    exact hinv.heap.flags x hx
  · intro q m hq
    obtain ⟨b, hb, hqb, hbfree, hbpos, hbsize⟩ := hinv.live.owner q m hq
    refine ⟨b, hb, hqb, (hget b hb .isFree).trans hbfree, hbpos, ?_⟩
    dsimp only
    rw [Heap.size, hget b hb .size]
    exact hbsize
  · intro b hb hbfree
    exact hinv.live.taken b hb ((hget b hb .isFree).symm.trans hbfree)

/-- **One call keeps the invariant.** -/
theorem ArenaInv.step {s' : Arena} (hinv : ArenaInv space s as) (hstep : HeapStep s s') :
    ∃ as', ArenaInv space s' as' := by
  cases hstep with
  | kmalloc hsize hcall =>
    rename_i size p h
    by_cases h0 : size = 0#32
    · rw [Kheap.kmalloc, if_pos h0] at hcall
      obtain ⟨rfl, rfl⟩ := Prod.mk.inj (Option.some.inj hcall)
      exact ⟨as, by simpa using hinv⟩
    rcases hinv.kmalloc h0 hsize with ⟨hnone, -⟩ | ⟨h', a, as', hsome, hptr, -, -, -, hinv'⟩
    · obtain ⟨rfl, rfl⟩ := Prod.mk.inj (Option.some.inj (hnone.symm.trans hcall))
      exact ⟨as, by simpa using hinv⟩
    · obtain ⟨rfl, rfl⟩ := Prod.mk.inj (Option.some.inj (hsome.symm.trans hcall))
      rw [if_neg hptr]
      exact ⟨as', hinv'⟩
  | kfree hlive => exact hinv.kfree hlive
  | store hlive hlo hhi haligned => exact ⟨as, hinv.store hlive hlo hhi⟩

/-- **The invariant holds in every reachable state.** -/
theorem HeapReachable.inv (hs : HeapReachable space s) : ∃ as, ArenaInv space s as := by
  obtain ⟨mem, hrun⟩ := hs
  induction hrun with
  | refl => exact ⟨[space.addr], arenaInv_init space mem⟩
  | tail _ hstep ih =>
    obtain ⟨as, hinv⟩ := ih
    exact hinv.step hstep

end Live

end PekerOS.Kheap
