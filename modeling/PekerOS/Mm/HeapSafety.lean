import PekerOS.Lib.Segments
import PekerOS.Mm.Kheap

/-!
# The heap invariant

The headers that `next` reaches from `heap_first` are doubly linked and tile `heap_space`. A header
is written only through fields of headers that do not overlap, so an operation is an edit of one
place of the list: a block is cut in two, or two neighbours are joined.

## Main definitions

* `Apart p q`: the headers at `p` and `q` are the same or do not overlap
* `Absorbed h h' p q x`, `SplitAt h h' a b total x`: what a merge and a split leave in a header
* `HeapInv space h as`: the headers `as` are linked and tile the heap

## Main results

* `get_set`: a field after a write
* `HeapInv.split`, `HeapInv.absorb`: the two edits keep the invariant
-/

namespace PekerOS.Kheap

/-! ## Headers in memory -/

/-- The headers at `p` and `q` lie in memory and are the same or do not overlap. -/
structure Apart (p q : Word) : Prop where
  left : p.toNat + 16 ≤ 2 ^ 32
  right : q.toNat + 16 ≤ 2 ^ 32
  sep : q = p ∨ p.toNat + 16 ≤ q.toNat ∨ q.toNat + 16 ≤ p.toNat

section Headers

variable {p q : Word}

theorem Apart.symm (h : Apart p q) : Apart q p :=
  ⟨h.right, h.left, by rcases h.sep with rfl | h | h <;> simp_all⟩

theorem Field.offset_toNat_le (f : Field) : f.offset.toNat ≤ 12 := by
  cases f <;> decide

theorem Field.offset_injective {f g : Field} (h : f.offset.toNat = g.offset.toNat) : f = g := by
  revert h
  cases f <;> cases g <;> decide

theorem toNat_add_offset (hp : p.toNat + 16 ≤ 2 ^ 32) (f : Field) :
    (p + f.offset).toNat = p.toNat + f.offset.toNat := by
  have := f.offset_toNat_le
  rw [BitVec.toNat_add]
  omega

/-- **A field after a write** to a header that does not overlap. -/
theorem get_set (hpq : Apart p q) (h : Heap) (f g : Field) (v : Word) :
    (h.set f p v).get g q = if g = f ∧ q = p then v else h.get g q := by
  unfold Heap.set Heap.get
  have hf := f.offset_toNat_le
  have hg := g.offset_toNat_le
  by_cases heq : g = f ∧ q = p
  · obtain ⟨rfl, rfl⟩ := heq
    rw [if_pos ⟨rfl, rfl⟩]
    exact Function.update_self _ _ _
  · rw [if_neg heq]
    refine Function.update_of_ne (fun haddr => heq ?_) _ _
    have hnat := congrArg BitVec.toNat haddr
    rw [toNat_add_offset hpq.right, toNat_add_offset hpq.left] at hnat
    rcases hpq.sep with rfl | hlt | hlt
    · exact ⟨Field.offset_injective (by omega), rfl⟩
    · omega
    · omega

@[simp] theorem first_set (h : Heap) (f : Field) (p v : Word) : (h.set f p v).first = h.first := rfl

variable {h : Heap} {a x total : Word}

/-- The fields after a split, at a header apart from the ones it writes. -/
theorem get_splitBlock (hba : Apart (a + total) a) (hne : a + total ≠ a) (hax : Apart a x)
    (hbx : Apart (a + total) x) (hnx : h.next a ≠ 0#32 → Apart (h.next a) x) :
    (splitBlock h a total).size x =
        (if x = a then total else if x = a + total then h.size a - total else h.size x) ∧
      (splitBlock h a total).isFree x = (if x = a + total then 1#32 else h.isFree x) ∧
      (splitBlock h a total).next x =
        (if x = a then a + total else if x = a + total then h.next a else h.next x) ∧
      (splitBlock h a total).prev x =
        (if h.next a ≠ 0#32 ∧ x = h.next a then a + total
          else if x = a + total then a else h.prev x) := by
  have hnext : ∀ h' : Heap, ∀ f v, f ≠ .next → (h'.set f (a + total) v).next a = h'.next a := by
    intro h' f v hf
    rw [Heap.next, get_set hba, if_neg fun heq => hf heq.1.symm]
  have hnext' : ∀ h' : Heap, ∀ v, (h'.set .next (a + total) v).next a = h'.next a := by
    intro h' v
    rw [Heap.next, get_set hba, if_neg fun heq => hne heq.2.symm]
  unfold splitBlock
  simp only [hnext', hnext _ _ _ (show Field.prev ≠ .next by decide),
    hnext _ _ _ (show Field.isFree ≠ .next by decide), hnext _ _ _ (show Field.size ≠ .next by decide)]
  by_cases h0 : h.next a = 0#32
  · simp [h0, get_set hax, get_set hbx]
  · simp [h0, get_set hax, get_set hbx, get_set (hnx h0)]

/-- The fields after a merge of `p` with `q`, at a header apart from the ones it writes. -/
structure Absorbed (h h' : Heap) (p q x : Word) : Prop where
  size : h'.size x = if x = p then h.size p + h.size q else h.size x
  isFree : h'.isFree x = h.isFree x
  next : h'.next x = if x = p then h.next q else h.next x
  prev : h'.prev x = if h.next q ≠ 0#32 ∧ x = h.next q then p else h.prev x

theorem get_mergeRight (hqa : Apart a (h.next a)) (hax : Apart a x)
    (hnx : h.next (h.next a) ≠ 0#32 → Apart (h.next (h.next a)) x) :
    Absorbed h (mergeRight h a) a (h.next a) x := by
  have haa : Apart a a := ⟨hqa.left, hqa.left, Or.inl rfl⟩
  have hset : ∀ v, (h.set .size a v).next a = h.next a := fun v => by
    rw [Heap.next, get_set haa, if_neg (by simp)]
  have hset' : ∀ v, (h.set .size a v).next (h.next a) = h.next (h.next a) := fun v => by
    rw [Heap.next, get_set hqa, if_neg (by simp)]
  have hnext : ∀ (h' : Heap) (v : Word), (h'.set .next a v).next a = v := fun h' v => by
    rw [Heap.next, get_set haa, if_pos ⟨rfl, rfl⟩]
  unfold mergeRight
  simp only [hset, hset', hnext]
  by_cases h0 : h.next (h.next a) = 0#32
  · constructor <;> simp [h0, get_set hax]
  · constructor <;> simp [h0, get_set hax, get_set (hnx h0)]

theorem get_mergeLeft (hpa : Apart (h.prev a) a) (hpx : Apart (h.prev a) x) (hne : h.prev a ≠ a)
    (hnx : h.next a ≠ 0#32 → Apart (h.next a) x) :
    Absorbed h (mergeLeft h a) (h.prev a) a x := by
  have hset : ∀ (h' : Heap) (f : Field) (v : Word) (g : Field),
      (h'.set f (h.prev a) v).get g a = h'.get g a := fun h' f v g => by
    rw [get_set hpa, if_neg fun heq => hne heq.2.symm]
  unfold mergeLeft
  simp only [hset, Heap.prev, Heap.next]
  by_cases h0 : h.get .next a = 0#32
  · constructor <;> simp [h0, get_set hpx]
  · constructor <;> simp [h0, get_set hpx, get_set (hnx h0)]

end Headers

/-! ## The invariant -/

/-- The headers `as` are doubly linked from `heap_first` on and tile the heap. -/
structure HeapInv (space : Space) (h : Heap) (as : List Word) : Prop where
  first : h.first = as.headD 0#32
  linked : Linked h.next h.prev 0#32 as 0#32
  tiled : Tiled BitVec.toNat (fun a => (h.size a).toNat) space.addr.toNat as
    (space.addr.toNat + heapSize)
  sizes : ∀ a ∈ as, 16 ≤ (h.size a).toNat ∧ 4 ∣ (h.size a).toNat
  flags : ∀ a ∈ as, h.isFree a = 0#32 ∨ h.isFree a = 1#32

namespace HeapInv

variable {space : Space} {h h' : Heap} {as l r : List Word} {a b x : Word}

theorem inside (hi : HeapInv space h as) (ha : a ∈ as) :
    space.addr.toNat ≤ a.toNat ∧ a.toNat + (h.size a).toNat ≤ space.addr.toNat + heapSize :=
  hi.tiled.bounds ha

theorem ne_zero (hi : HeapInv space h as) (ha : a ∈ as) : a ≠ 0#32 := by
  rintro rfl
  have hlo := (hi.inside ha).1
  have hpos := space.pos
  simp at hlo
  omega

theorem apart (hi : HeapInv space h as) (ha : a ∈ as) (hb : b ∈ as) : Apart a b := by
  have hfits := space.fits
  have ha' := (hi.inside ha).2
  have hb' := (hi.inside hb).2
  have hsa := (hi.sizes a ha).1
  have hsb := (hi.sizes b hb).1
  refine ⟨by omega, by omega, ?_⟩
  by_cases hab : b = a
  · exact Or.inl hab
  · rcases hi.tiled.disjoint ha hb (Ne.symm hab) with hlt | hlt
    · exact Or.inr (Or.inl (by omega))
    · exact Or.inr (Or.inr (by omega))

theorem nodup (hi : HeapInv space h as) : as.Nodup :=
  hi.tiled.nodup fun a ha => by
    have := (hi.sizes a ha).1
    omega

theorem length_lt (hi : HeapInv space h as) : as.length < maxRounds := by
  have hle := hi.tiled.mul_length_le (n := 16) fun a ha => (hi.sizes a ha).1
  unfold maxRounds
  omega

theorem aligned (hi : HeapInv space h as) (ha : a ∈ as) : 4 ∣ a.toNat := by
  have hspace := space.aligned
  exact hi.tiled.dvd (by omega) (fun x hx => (hi.sizes x hx).2) ha

/-- The header behind `a`, if there is one, is one of the list. -/
theorem next_mem (hi : HeapInv space h (l ++ a :: r)) (hne : h.next a ≠ 0#32) : h.next a ∈ r := by
  rw [hi.linked.mid.2] at hne ⊢
  cases r with
  | nil => exact absurd rfl hne
  | cons c r => exact List.mem_cons_self

theorem next_eq_head (hi : HeapInv space h (l ++ a :: r)) :
    (h.next a ≠ 0#32 ∧ x = h.next a) ↔ x ∈ r.head? := by
  rw [hi.linked.mid.2]
  cases r with
  | nil => simp
  | cons c r =>
    have hc := hi.ne_zero (a := c) (by simp)
    simp only [List.headD_cons, List.head?_cons, Option.mem_some]
    exact ⟨fun h => h.2.symm, fun h => ⟨hc, h.symm⟩⟩

/-- A change outside the size and the links. -/
theorem congr (hi : HeapInv space h as) (hfirst : h'.first = h.first)
    (hget : ∀ x ∈ as, ∀ f, f ≠ .isFree → h'.get f x = h.get f x)
    (hflags : ∀ x ∈ as, h'.isFree x = 0#32 ∨ h'.isFree x = 1#32) : HeapInv space h' as where
  first := hfirst.trans hi.first
  linked := hi.linked.congr (fun x hx => hget x hx .next (by decide))
    fun x hx => hget x hx .prev (by decide)
  tiled := hi.tiled.congr fun x hx => congrArg BitVec.toNat (hget x hx .size (by decide))
  sizes x hx := by
    have hsize := hget x hx .size (by decide)
    rw [Heap.size, hsize]
    exact hi.sizes x hx
  flags := hflags

theorem setFree (hi : HeapInv space h as) (ha : a ∈ as) {v : Word} (hv : v = 0#32 ∨ v = 1#32) :
    HeapInv space (h.set .isFree a v) as := by
  refine hi.congr rfl (fun x hx f hf => ?_) fun x hx => ?_
  · rw [get_set (hi.apart ha hx), if_neg fun heq => hf heq.1]
  · rw [Heap.isFree, get_set (hi.apart ha hx)]
    split
    · exact hv
    · exact hi.flags x hx

/-- **Joining two neighbours** keeps the invariant. -/
theorem absorb (hi : HeapInv space h (l ++ a :: b :: r)) (hfirst : h'.first = h.first)
    (hget : ∀ x ∈ l ++ a :: b :: r, Absorbed h h' a b x) : HeapInv space h' (l ++ a :: r) := by
  have hmem : ∀ x ∈ l ++ a :: r, x ∈ l ++ a :: b :: r := by
    intro x hx
    rcases List.mem_append.mp hx with hx | hx
    · exact List.mem_append_left _ hx
    · rcases List.mem_cons.mp hx with rfl | hx
      · simp
      · simp [hx]
  obtain ⟨hndl, hndar, hcross⟩ := List.nodup_append.mp hi.nodup
  obtain ⟨hnda, hndbr⟩ := List.nodup_cons.mp hndar
  obtain ⟨hndb, hndr⟩ := List.nodup_cons.mp hndbr
  have hla : ∀ x ∈ l, x ≠ a := fun x hx heq => hcross x hx a List.mem_cons_self heq
  have hra : ∀ x ∈ r, x ≠ a := fun x hx heq => hnda (heq ▸ List.mem_cons_of_mem b hx)
  have hlr : ∀ x ∈ l ++ r, x ≠ a ∧ x ∈ l ++ a :: b :: r := by
    intro x hx
    rcases List.mem_append.mp hx with hx | hx
    · exact ⟨hla x hx, by simp [hx]⟩
    · exact ⟨hra x hx, by simp [hx]⟩
  -- the head of the rest is the only header whose back link is rewritten
  have hhead : ∀ x, (h.next b ≠ 0#32 ∧ x = h.next b) ↔ x ∈ r.head? := by
    intro x
    have hi' : HeapInv space h ((l ++ [a]) ++ b :: r) := by simpa using hi
    exact hi'.next_eq_head
  have hnot : ∀ x ∈ l ++ [a], x ∉ r.head? := by
    intro x hx hr
    have hxr : x ∈ r := List.mem_of_mem_head? hr
    rcases List.mem_append.mp hx with hx | hx
    · exact hcross x hx x (by simp [hxr]) rfl
    · exact hra x hxr (List.mem_singleton.mp hx)
  have hsize : ∀ x ∈ l ++ r, h'.size x = h.size x := by
    intro x hx
    rw [(hget x (hlr x hx).2).size, if_neg (hlr x hx).1]
  have hsum : (h'.size a).toNat = (h.size a).toNat + (h.size b).toNat := by
    obtain ⟨mid, -, ha, hb, -⟩ := Tiled.append.mp hi.tiled
    have hfits := space.fits
    have hb' := (hi.inside (a := b) (by simp)).2
    rw [(hget a (by simp)).size, if_pos rfl, BitVec.toNat_add]
    dsimp only at ha hb
    have hpos := space.pos
    have hlo := (hi.inside (a := a) (by simp)).1
    omega
  refine ⟨?_, ?_, ?_, ?_, ?_⟩
  · rw [hfirst, hi.first]
    cases l <;> rfl
  · refine hi.linked.absorb hndr (fun x hx => ?_) (fun x hx => ?_) ?_ (fun x hx => ?_)
      fun x hx hxr => ?_
    · rw [(hget x (hlr x hx).2).next, if_neg (hlr x hx).1]
    · have hxm : x ∈ l ++ a :: b :: r := by
        rcases List.mem_append.mp hx with hx | hx
        · simp [hx]
        · simp [List.mem_singleton.mp hx]
      rw [(hget x hxm).prev, if_neg fun heq => hnot x hx ((hhead x).mp heq)]
    · rw [(hget a (by simp)).next, if_pos rfl]
    · have hxr : x ∈ r := List.mem_of_mem_head? hx
      rw [(hget x (by simp [hxr])).prev, if_pos ((hhead x).mpr hx)]
    · rw [(hget x (by simp [hx])).prev, if_neg fun heq => hxr ((hhead x).mp heq)]
  · exact hi.tiled.absorb (fun x hx => congrArg BitVec.toNat (hsize x hx)) hsum
  · intro x hx
    by_cases hxa : x = a
    · subst hxa
      have h₁ := hi.sizes x (by simp)
      have h₂ := hi.sizes b (by simp)
      rw [hsum]
      exact ⟨by omega, h₁.2.add h₂.2⟩
    · have hxlr : x ∈ l ++ r := by
        rcases List.mem_append.mp hx with hx | hx
        · simp [hx]
        · rcases List.mem_cons.mp hx with hx | hx
          · exact absurd hx hxa
          · simp [hx]
      rw [hsize x hxlr]
      exact hi.sizes x (hmem x hx)
  · intro x hx
    rw [(hget x (hmem x hx)).isFree]
    exact hi.flags x (hmem x hx)

/-! ### Splitting -/

section Split

variable {total : Word}

/-- The new header lies in the payload of the block that is split. -/
theorem toNat_newBlock (hi : HeapInv space h (l ++ a :: r))
    (hroom : total.toNat + 20 < (h.size a).toNat) : (a + total).toNat = a.toNat + total.toNat := by
  have hfits := space.fits
  have hin := (hi.inside (a := a) (by simp)).2
  rw [BitVec.toNat_add]
  omega

theorem apart_newBlock (hi : HeapInv space h (l ++ a :: r)) (h16 : 16 ≤ total.toNat)
    (hroom : total.toNat + 20 < (h.size a).toNat) (hx : x ∈ l ++ a :: r) : Apart (a + total) x := by
  have hfits := space.fits
  have hnew := hi.toNat_newBlock hroom
  have hin := (hi.inside (a := a) (by simp)).2
  have hax := hi.apart (a := a) (by simp) hx
  refine ⟨by omega, hax.right, Or.inr ?_⟩
  have hsx := (hi.sizes x hx).1
  by_cases hxa : x = a
  · subst hxa
    omega
  · rcases hi.tiled.disjoint (a := a) (by simp) hx (Ne.symm hxa) with hlt | hlt
    · exact Or.inl (by omega)
    · exact Or.inr (by omega)

theorem newBlock_not_mem (hi : HeapInv space h (l ++ a :: r)) (h16 : 16 ≤ total.toNat)
    (hroom : total.toNat + 20 < (h.size a).toNat) : a + total ∉ l ++ a :: r := by
  intro hmem
  have hnew := hi.toNat_newBlock hroom
  have hsize := (hi.sizes _ hmem).1
  have hne : a + total ≠ a := fun heq => by
    rw [heq] at hnew
    omega
  rcases hi.tiled.disjoint (a := a) (by simp) hmem (Ne.symm hne) with hlt | hlt <;> omega

/-- What a split leaves in the headers. -/
structure SplitAt (h h' : Heap) (a b total x : Word) : Prop where
  size : h'.size x = if x = a then total else if x = b then h.size a - total else h.size x
  isFree : h'.isFree x = if x = b then 1#32 else h.isFree x
  next : h'.next x = if x = a then b else if x = b then h.next a else h.next x
  prev : h'.prev x =
    if h.next a ≠ 0#32 ∧ x = h.next a then b else if x = b then a else h.prev x

theorem splitAt (hi : HeapInv space h (l ++ a :: r)) (h16 : 16 ≤ total.toNat)
    (hroom : total.toNat + 20 < (h.size a).toNat) (hx : x = a + total ∨ x ∈ l ++ a :: r) :
    SplitAt h (splitBlock h a total) a (a + total) total x := by
  have ha : a ∈ l ++ a :: r := by simp
  have hapart := fun y hy => hi.apart_newBlock h16 hroom (x := y) hy
  have hself : Apart (a + total) (a + total) :=
    ⟨(hapart a ha).left, (hapart a ha).left, Or.inl rfl⟩
  have hne : a + total ≠ a := fun heq => hi.newBlock_not_mem h16 hroom (by rw [heq]; exact ha)
  have hnext : h.next a ≠ 0#32 → h.next a ∈ l ++ a :: r := by
    intro h0
    have := hi.next_mem h0
    simp [this]
  have hread : Apart a x ∧ Apart (a + total) x ∧ (h.next a ≠ 0#32 → Apart (h.next a) x) := by
    rcases hx with rfl | hx
    · exact ⟨(hapart a ha).symm, hself, fun h0 => (hapart _ (hnext h0)).symm⟩
    · exact ⟨hi.apart ha hx, hapart x hx, fun h0 => hi.apart (hnext h0) hx⟩
  obtain ⟨hsize, hfree, hnx, hpv⟩ :=
    get_splitBlock (hapart a ha) hne hread.1 hread.2.1 hread.2.2
  exact ⟨hsize, hfree, hnx, hpv⟩

theorem first_splitBlock (h : Heap) (a total : Word) : (splitBlock h a total).first = h.first := by
  unfold splitBlock
  dsimp only
  split <;> rfl

/-- **Cutting a block in two** keeps the invariant. -/
theorem split (hi : HeapInv space h (l ++ a :: r)) (h16 : 16 ≤ total.toNat)
    (h4 : 4 ∣ total.toNat) (hroom : total.toNat + 20 < (h.size a).toNat) :
    HeapInv space (splitBlock h a total) (l ++ a :: (a + total) :: r) := by
  have hget := fun x hx => hi.splitAt h16 hroom (x := x) hx
  have hnew := hi.newBlock_not_mem h16 hroom
  have haddr := hi.toNat_newBlock hroom
  obtain ⟨-, hndar, hcross⟩ := List.nodup_append.mp hi.nodup
  obtain ⟨hnda, hndr⟩ := List.nodup_cons.mp hndar
  have hne : ∀ x ∈ l ++ a :: r, x ≠ a + total := fun x hx heq => hnew (heq ▸ hx)
  have hlr : ∀ x ∈ l ++ r, x ≠ a ∧ x ∈ l ++ a :: r := by
    intro x hx
    rcases List.mem_append.mp hx with hx | hx
    · exact ⟨fun heq => hcross x hx a List.mem_cons_self heq, by simp [hx]⟩
    · exact ⟨fun heq => hnda (heq ▸ hx), by simp [hx]⟩
  -- the block after `a` is the only one whose `prev` changes
  have hnot : ∀ x ∈ l ++ [a], x ∉ r.head? := by
    intro x hx hr
    have hxr : x ∈ r := List.mem_of_mem_head? hr
    rcases List.mem_append.mp hx with hx | hx
    · exact hcross x hx x (by simp [hxr]) rfl
    · exact hnda (List.mem_singleton.mp hx ▸ hxr)
  have hsize : ∀ x ∈ l ++ r, (splitBlock h a total).size x = h.size x := by
    intro x hx
    rw [(hget x (Or.inr (hlr x hx).2)).size, if_neg (hlr x hx).1, if_neg (hne x (hlr x hx).2)]
  have hsizeA : (splitBlock h a total).size a = total := by
    rw [(hget a (Or.inr (by simp))).size, if_pos rfl]
  have hsizeB : ((splitBlock h a total).size (a + total)).toNat =
      (h.size a).toNat - total.toNat := by
    have hba : a + total ≠ a := fun heq => hne a (by simp) heq.symm
    rw [(hget _ (Or.inl rfl)).size, if_neg hba, if_pos rfl,
      BitVec.toNat_sub_of_le (BitVec.le_def.mpr (by omega))]
  -- the list after the cut: the old headers and the new one
  have hcases : ∀ x ∈ l ++ a :: (a + total) :: r,
      x = a ∨ x = a + total ∨ (x ∈ l ++ r ∧ x ∈ l ++ a :: r) := by
    intro x hx
    simp only [List.mem_append, List.mem_cons] at hx ⊢
    tauto
  refine ⟨?_, ?_, ?_, ?_, ?_⟩
  · rw [first_splitBlock, hi.first]
    cases l <;> rfl
  · refine hi.linked.insert hndr (fun x hx => ?_) (fun x hx => ?_) ?_ ?_ ?_ (fun x hx => ?_)
      fun x hx hxr => ?_
    · rw [(hget x (Or.inr (hlr x hx).2)).next, if_neg (hlr x hx).1, if_neg (hne x (hlr x hx).2)]
    · have hxm : x ∈ l ++ a :: r := by
        rcases List.mem_append.mp hx with hx | hx
        · simp [hx]
        · simp [List.mem_singleton.mp hx]
      rw [(hget x (Or.inr hxm)).prev, if_neg fun heq => hnot x hx (hi.next_eq_head.mp heq),
        if_neg (hne x hxm)]
    · rw [(hget a (Or.inr (by simp))).next, if_pos rfl]
    · rw [(hget _ (Or.inl rfl)).next, if_neg fun heq => hne a (by simp) heq.symm, if_pos rfl]
    · have hnr : ¬(h.next a ≠ 0#32 ∧ a + total = h.next a) := by
        rintro ⟨h0, heq⟩
        exact hnew (heq ▸ List.mem_append_right l (List.mem_cons_of_mem a (hi.next_mem h0)))
      rw [(hget _ (Or.inl rfl)).prev, if_neg hnr, if_pos rfl]
    · have hxr : x ∈ r := List.mem_of_mem_head? hx
      rw [(hget x (Or.inr (by simp [hxr]))).prev, if_pos (hi.next_eq_head.mpr hx)]
    · rw [(hget x (Or.inr (by simp [hx]))).prev, if_neg fun heq => hxr (hi.next_eq_head.mp heq),
        if_neg (hne x (by simp [hx]))]
  · -- the two parts tile what was one block
    refine hi.tiled.insert (fun x hx => congrArg BitVec.toNat (hsize x hx)) ?_ ?_
    · rw [hsizeA]
      exact haddr
    · rw [hsizeA, hsizeB]
      omega
  · intro x hx
    have hold := hi.sizes a (by simp)
    rcases hcases x hx with rfl | rfl | ⟨hxlr, hxm⟩
    · rw [hsizeA]
      exact ⟨h16, h4⟩
    · rw [hsizeB]
      exact ⟨by omega, Nat.dvd_sub hold.2 h4⟩
    · rw [hsize x hxlr]
      exact hi.sizes x hxm
  · intro x hx
    rcases hcases x hx with rfl | rfl | ⟨hxlr, hxm⟩
    · rw [(hget x (Or.inr (by simp))).isFree, if_neg (hne x (by simp))]
      exact hi.flags x (by simp)
    · rw [(hget _ (Or.inl rfl)).isFree, if_pos rfl]
      exact Or.inr rfl
    · rw [(hget x (Or.inr hxm)).isFree, if_neg (hne x hxm)]
      exact hi.flags x hxm

end Split

end HeapInv

end PekerOS.Kheap
