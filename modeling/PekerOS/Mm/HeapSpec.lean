import PekerOS.Mm.HeapRuns

/-!
# What the heap promises

The invariant of the heap, read off the memory: the headers that `next` reaches tile `heap_space`
and are linked both ways, live payloads are aligned, large enough and disjoint from each other and
from every header, and free space is never split between neighbours, so that a request fails only if
no gap between live blocks can hold it.

## Main definitions

* `Reaches h p hs`: the headers that `next` reaches from `p`, in order
* `HeapSafe space s hs`: the tiling, the links and the payloads
* `Gap space s len lo`: `len` bytes of the heap from `lo` on that no live block uses

## Main results

* `heap_safe`: every reachable heap is safe, and `kmalloc` ends
* `heap_coalesced`: no two neighbours are free, requests fail only without a gap, and a heap with no
  live allocation is one free block
-/

namespace PekerOS.Kheap

/-- The headers that `next` reaches from `p`, in order. -/
def Reaches (h : Heap) : Word → List Word → Prop
  | p, [] => p = 0#32
  | p, a :: as => p = a ∧ a ≠ 0#32 ∧ Reaches h (h.next a) as

/-- The length of a payload: its block without the header. -/
def payloadLen (h : Heap) (p : Word) : ℕ := (h.size (p - headerSize)).toNat - 16

/-- Tiling, links and payloads of a heap with the headers `hs`. -/
structure HeapSafe (space : Space) (s : Arena) (hs : List Word) : Prop where
  reached : Reaches s.heap s.heap.first hs
  start : hs.head? = some space.addr
  adjacent : hs.IsChain fun a b => b.toNat = a.toNat + (s.heap.size a).toNat
  total : (hs.map fun a => (s.heap.size a).toNat).sum = heapSize
  sizes : ∀ a ∈ hs, 4 ∣ (s.heap.size a).toNat ∧ 16 ≤ (s.heap.size a).toNat
  front : s.heap.prev space.addr = 0#32
  back : hs.IsChain fun a b => s.heap.next a = b ∧ s.heap.prev b = a
  header : ∀ p n, s.live p = some n → p - headerSize ∈ hs
  aligned : ∀ p n, s.live p = some n → 4 ∣ p.toNat
  large : ∀ p n, s.live p = some n → n.toNat ≤ payloadLen s.heap p
  inside : ∀ p n, s.live p = some n → space.addr.toNat ≤ p.toNat ∧
    p.toNat + payloadLen s.heap p ≤ space.addr.toNat + heapSize
  disjoint : ∀ p n q m, s.live p = some n → s.live q = some m → p ≠ q →
    p.toNat + payloadLen s.heap p ≤ q.toNat ∨ q.toNat + payloadLen s.heap q ≤ p.toNat
  headers : ∀ p n, s.live p = some n → ∀ a ∈ hs,
    a.toNat + 16 ≤ p.toNat ∨ p.toNat + payloadLen s.heap p ≤ a.toNat

section Reached

variable {space : Space} {h : Heap} {s : Arena} {as bs : List Word} {p : Word}

theorem Reaches.unique (ha : Reaches h p as) (hb : Reaches h p bs) : as = bs := by
  induction as generalizing p bs with
  | nil =>
    cases bs with
    | nil => rfl
    | cons b bs => exact absurd (hb.1.symm.trans ha) hb.2.1
  | cons a as ih =>
    cases bs with
    | nil => exact absurd (ha.1.symm.trans hb) ha.2.1
    | cons b bs =>
      obtain ⟨rfl, -, ha⟩ := ha
      obtain ⟨rfl, -, hb⟩ := hb
      rw [ih ha hb]

theorem reaches_of_linked {q : Word} (hl : Linked h.next h.prev q as 0#32)
    (hz : ∀ a ∈ as, a ≠ 0#32) : Reaches h (as.headD 0#32) as := by
  induction as generalizing q with
  | nil => rfl
  | cons a as ih =>
    obtain ⟨-, hnext, hrest⟩ := hl
    refine ⟨rfl, hz a List.mem_cons_self, ?_⟩
    rw [hnext]
    exact ih hrest fun x hx => hz x (List.mem_cons_of_mem a hx)

theorem ArenaInv.reaches (hinv : ArenaInv space s as) : Reaches s.heap s.heap.first as := by
  rw [hinv.heap.first]
  exact reaches_of_linked hinv.heap.linked fun a ha => hinv.heap.ne_zero ha

/-- The heap begins with a header at the start of its space. -/
theorem HeapInv.head (hi : HeapInv space h as) : ∃ r, as = space.addr :: r := by
  have hcap : heapSize = 4194304 := rfl
  cases as with
  | nil =>
    have hend : space.addr.toNat = space.addr.toNat + heapSize := hi.tiled
    omega
  | cons a r => exact ⟨r, by rw [BitVec.eq_of_toNat_eq hi.tiled.1]⟩

/-- The block of a live pointer. -/
theorem ArenaInv.block (hinv : ArenaInv space s as) {n : Word} (hlive : s.live p = some n) :
    p - headerSize ∈ as ∧ p.toNat = (p - headerSize).toNat + 16 ∧
      s.heap.isFree (p - headerSize) = 0#32 ∧ 0 < n.toNat ∧
      n.toNat + 16 ≤ (s.heap.size (p - headerSize)).toNat := by
  obtain ⟨a, ha, rfl, htaken, hn, hsize⟩ := hinv.live.owner p n hlive
  rw [BitVec.add_sub_cancel]
  exact ⟨ha, (hinv.heap.payload ha (by omega)).1, htaken, hn, hsize⟩

end Reached

/-- **Heap safety**: in every state reached by calls of `kmalloc` and `kfree` and by stores into live
allocations, the headers tile the heap, the links are inverse to each other, and the payloads are in
order; and the next `kmalloc` returns. -/
theorem heap_safe {space : Space} {s : Arena} (hs : HeapReachable space s) :
    (∃ hs, HeapSafe space s hs) ∧
      ∀ size : Word, size.toNat ≤ heapSize → ∃ h p, kmalloc s.heap size = some (h, p) := by
  obtain ⟨as, hinv⟩ := hs.inv
  obtain ⟨r, hr⟩ := hinv.heap.head
  refine ⟨⟨as, hinv.reaches, ?_, hinv.heap.tiled.isChain, ?_, ?_, ?_, hinv.heap.linked.isChain,
    ?_, ?_, ?_, ?_, ?_, ?_⟩, ?_⟩
  · -- the list of blocks covers the heap and leads both ways
    rw [hr]
    rfl
  · exact Nat.add_left_cancel hinv.heap.tiled.sum
  · exact fun a ha => ⟨(hinv.heap.sizes a ha).2, (hinv.heap.sizes a ha).1⟩
  · have hl := hinv.heap.linked
    rw [hr] at hl
    exact hl.1
  · exact fun p n hlive => (hinv.block hlive).1
  · intro p n hlive
    obtain ⟨hmem, hp, -⟩ := hinv.block hlive
    have hdvd := hinv.heap.aligned hmem
    omega
  · intro p n hlive
    obtain ⟨-, -, -, -, hsize⟩ := hinv.block hlive
    unfold payloadLen
    omega
  · intro p n hlive
    obtain ⟨hmem, hp, -, -, hsize⟩ := hinv.block hlive
    have hin := hinv.heap.inside hmem
    unfold payloadLen
    omega
  · -- two payloads are apart because their blocks are
    intro p n q m hp hq hne
    obtain ⟨hpm, hpa, -, -, hps⟩ := hinv.block hp
    obtain ⟨hqm, hqa, -, -, hqs⟩ := hinv.block hq
    have hblocks : p - headerSize ≠ q - headerSize := fun heq =>
      hne (BitVec.eq_of_toNat_eq (by rw [hpa, hqa, heq]))
    unfold payloadLen
    rcases hinv.heap.tiled.disjoint hpm hqm hblocks with hlt | hlt <;> omega
  · -- no payload reaches into a header, its own block's or another's
    intro p n hlive a ha
    obtain ⟨hpm, hpa, -, -, hps⟩ := hinv.block hlive
    have hsa := (hinv.heap.sizes a ha).1
    unfold payloadLen
    by_cases hpa' : p - headerSize = a
    · rw [hpa'] at hpa
      omega
    · rcases hinv.heap.tiled.disjoint hpm ha hpa' with hlt | hlt <;> omega
  · -- `kmalloc` always returns, with a block or with null
    intro size hsize
    by_cases h0 : size = 0#32
    · exact ⟨s.heap, 0#32, if_pos h0⟩
    · rcases hinv.kmalloc h0 hsize with ⟨hnone, -⟩ | ⟨h, a, as', hsome, -⟩
      · exact ⟨_, _, hnone⟩
      · exact ⟨_, _, hsome⟩

/-- A heap in the higher half of the address space. -/
def higherHalf : Space := ⟨0xC0200000#32, by decide, by decide, by decide⟩

/-- The heap after one allocation of 10 bytes. -/
theorem heap_safe_one :
    let h := initKheap higherHalf fun _ => 0#32
    let s : Arena := ⟨takeBlock h higherHalf.addr (totalSize 10#32),
      Function.update (fun _ => none) 0xC0200010#32 (some 10#32)⟩
    HeapReachable higherHalf s ∧ s.live 0xC0200010#32 = some 10#32 ∧ (∃ hs, HeapSafe higherHalf s hs) ∧
      ∃ h p, kmalloc s.heap 20#32 = some (h, p) := by
  intro h s
  have hs : HeapReachable higherHalf s := by
    refine ⟨fun _ => 0#32, Relation.ReflTransGen.tail Relation.ReflTransGen.refl ?_⟩
    exact @HeapStep.kmalloc ⟨h, fun _ => none⟩ 10#32 0xC0200010#32 _ (by decide) rfl
  obtain ⟨hsafe, hcall⟩ := heap_safe hs
  exact ⟨hs, rfl, hsafe, hcall 20#32 (by decide)⟩

/-! ## Free space -/

/-- `len` bytes of the heap from `lo` on that no live block uses. -/
def Gap (space : Space) (s : Arena) (len lo : ℕ) : Prop :=
  space.addr.toNat ≤ lo ∧ lo + len ≤ space.addr.toNat + heapSize ∧
    ∀ p n, s.live p = some n → lo + len ≤ (p - headerSize).toNat ∨
      (p - headerSize).toNat + (s.heap.size (p - headerSize)).toNat ≤ lo

section Gaps

variable {space : Space} {s : Arena} {as : List Word} {a : Word} {len lo : ℕ}

/-- A free block is a gap. -/
theorem ArenaInv.gap_of_free (hinv : ArenaInv space s as) (ha : a ∈ as)
    (hfree : s.heap.isFree a ≠ 0#32) (hlen : len ≤ (s.heap.size a).toNat) :
    Gap space s len a.toNat := by
  have hin := hinv.heap.inside ha
  refine ⟨hin.1, by omega, fun p n hlive => ?_⟩
  obtain ⟨hmem, -, htaken, -⟩ := hinv.block hlive
  have hne : a ≠ p - headerSize := fun heq => hfree (heq ▸ htaken)
  rcases hinv.heap.tiled.disjoint ha hmem hne with hlt | hlt
  · exact Or.inl (by omega)
  · exact Or.inr hlt

/-- A block that meets a gap is free. -/
theorem ArenaInv.free_of_gap (hinv : ArenaInv space s as) (hgap : Gap space s len lo) (ha : a ∈ as)
    (hlo : a.toNat < lo + len) (hhi : lo < a.toNat + (s.heap.size a).toNat) :
    s.heap.isFree a ≠ 0#32 := by
  intro htaken
  obtain ⟨n, hn⟩ := Option.ne_none_iff_exists'.mp (hinv.live.taken a ha htaken)
  have hout := hgap.2.2 _ _ hn
  rw [BitVec.add_sub_cancel] at hout
  omega

/-- **A gap lies in one free block**, since no two neighbours are free. -/
theorem ArenaInv.gap_in_block (hinv : ArenaInv space s as) (hgap : Gap space s len lo)
    (hpos : 0 < len) : ∃ a ∈ as, s.heap.isFree a ≠ 0#32 ∧ len ≤ (s.heap.size a).toNat := by
  obtain ⟨l, a, r, rfl, hlo, hhi⟩ := hinv.heap.tiled.cover (x := lo) hgap.1 (by
    have := hgap.2.1
    omega)
  have ha : a ∈ l ++ a :: r := by simp
  have hfree := hinv.free_of_gap hgap ha (by omega) hhi
  refine ⟨a, ha, hfree, ?_⟩
  by_contra hlen
  -- the gap reaches the next block, which would be a free neighbour
  obtain ⟨b, r', rfl, hb⟩ := hinv.heap.tiled.next_addr (a := a) (by
    have := hgap.2.1
    omega)
  have hbm : b ∈ l ++ a :: b :: r' := by simp
  have hsize := (hinv.heap.sizes b hbm).1
  have hbfree := hinv.free_of_gap hgap hbm (by omega) (by omega)
  obtain ⟨-, -, -, hright⟩ := isChain_mid.mp hinv.coalesced
  rcases hright b rfl with h0 | h0
  · exact hfree h0
  · exact hbfree h0

end Gaps

/-- **Coalescing is complete**: no two neighbours are free, a request fails exactly when no gap
between the live blocks can hold it with its header, and when nothing is live the heap is one free
block. -/
theorem heap_coalesced {space : Space} {s : Arena} (hs : HeapReachable space s) :
    (∃ hs, Reaches s.heap s.heap.first hs ∧
      hs.IsChain fun a b => s.heap.isFree a = 0#32 ∨ s.heap.isFree b = 0#32) ∧
    (∀ size : Word, 0 < size.toNat → size.toNat ≤ heapSize →
      ((∃ h, kmalloc s.heap size = some (h, 0#32)) ↔
        ¬∃ lo, Gap space s ((size.toNat + 3) / 4 * 4 + 16) lo)) ∧
    ((∀ p, s.live p = none) →
      Reaches s.heap s.heap.first [space.addr] ∧ (s.heap.size space.addr).toNat = heapSize ∧
        s.heap.isFree space.addr = 1#32) := by
  obtain ⟨as, hinv⟩ := hs.inv
  refine ⟨⟨as, hinv.reaches, hinv.coalesced⟩, ?_, ?_⟩
  · intro size hpos hsize
    have hne : size ≠ 0#32 := by
      rintro rfl
      exact absurd hpos (by simp)
    have htotal := toNat_totalSize hsize
    rcases hinv.kmalloc hne hsize with ⟨hnone, hfull⟩ | ⟨h, a, as', hsome, hptr, ha, hfree, hfit, -⟩
    · refine ⟨fun _ => ?_, fun _ => ⟨_, hnone⟩⟩
      rintro ⟨lo, hgap⟩
      obtain ⟨a, ha, hfree, hlen⟩ := hinv.gap_in_block hgap (by omega)
      exact hfull a ha hfree (BitVec.le_def.mpr (by omega))
    · have hle : (totalSize size).toNat ≤ (s.heap.size a).toNat := hfit
      constructor
      · rintro ⟨h', h0⟩
        exact absurd (Prod.mk.inj (Option.some.inj (hsome.symm.trans h0))).2 hptr
      · intro hnogap
        exact absurd ⟨a.toNat, hinv.gap_of_free ha hfree (by omega)⟩ hnogap
  · intro hnone
    -- every block is free, and no two neighbours are, so there is one block
    have hfree : ∀ a ∈ as, s.heap.isFree a ≠ 0#32 := fun a ha h0 =>
      hinv.live.taken a ha h0 (hnone _)
    obtain ⟨r, hr⟩ := hinv.heap.head
    have hsingle : r = [] := by
      cases r with
      | nil => rfl
      | cons b r =>
        have hc := hinv.coalesced
        rw [hr] at hc
        rcases (List.isChain_cons_cons.mp hc).1 with h0 | h0
        · exact absurd h0 (hfree _ (by simp [hr]))
        · exact absurd h0 (hfree _ (by simp [hr]))
    subst hsingle
    have hmem : space.addr ∈ as := by simp [hr]
    refine ⟨hr ▸ hinv.reaches, ?_, (hinv.heap.flags _ hmem).resolve_left (hfree _ hmem)⟩
    have hsum := hinv.heap.tiled.sum
    rw [hr, List.map_singleton, List.sum_singleton] at hsum
    exact Nat.add_left_cancel hsum

/-- A fresh heap after two requests of ten bytes. -/
def twoBlocks : Arena :=
  let h := initKheap higherHalf fun _ => 0#32
  let h₁ := takeBlock h 0xC0200000#32 (totalSize 10#32)
  let h₂ := takeBlock h₁ 0xC020001C#32 (totalSize 10#32)
  ⟨h₂, Function.update (Function.update (fun _ => none) 0xC0200010#32 (some 10#32)) 0xC020002C#32 (some 10#32)⟩

theorem twoBlocks_reachable : HeapReachable higherHalf twoBlocks := by
  let h := initKheap higherHalf fun _ => 0#32
  let h₁ := takeBlock h 0xC0200000#32 (totalSize 10#32)
  let s₁ : Arena := ⟨h₁, Function.update (fun _ => none) 0xC0200010#32 (some 10#32)⟩
  have hfirst : HeapStep ⟨h, fun _ => none⟩ s₁ :=
    @HeapStep.kmalloc ⟨h, fun _ => none⟩ 10#32 0xC0200010#32 h₁ (by decide) rfl
  -- the second search passes the block taken by the first
  have hcall : kmalloc h₁ 10#32 = some (twoBlocks.heap, 0xC020002C#32) := by
    have hhead : h₁.first = 0xC0200000#32 := by decide +kernel
    have htaken : h₁.isFree 0xC0200000#32 = 0#32 := by decide +kernel
    have hnext : h₁.next 0xC0200000#32 = 0xC020001C#32 := by decide +kernel
    have hfit : h₁.isFree 0xC020001C#32 ≠ 0#32 ∧ totalSize 10#32 ≤ h₁.size 0xC020001C#32 := by
      decide +kernel
    have hrounds : maxRounds = (maxRounds - 2) + 1 + 1 := rfl
    rw [kmalloc, if_neg (by decide), hhead, hrounds, kmallocLoop, if_neg (by decide),
      if_neg (by simp [htaken]), hnext, kmallocLoop, if_neg (by decide), if_pos hfit]
    rfl
  have hsecond : HeapStep s₁ twoBlocks :=
    @HeapStep.kmalloc s₁ 10#32 0xC020002C#32 twoBlocks.heap (by decide) hcall
  exact ⟨fun _ => 0#32, (Relation.ReflTransGen.single hfirst).tail hsecond⟩

/-- The first block is freed, which leaves a gap before the second, and then the second, with free blocks on
both sides: the heap is one block again. -/
theorem heap_coalesced_freed :
    let s : Arena := ⟨Kheap.kfree twoBlocks.heap 0xC0200010#32, Function.update twoBlocks.live 0xC0200010#32 none⟩
    let s' : Arena := ⟨Kheap.kfree s.heap 0xC020002C#32, Function.update s.live 0xC020002C#32 none⟩
    HeapReachable higherHalf s' ∧ (∃ n, s.live 0xC020002C#32 = some n) ∧
      ¬(∃ h, kmalloc s.heap 10#32 = some (h, 0#32)) ∧
      Reaches s'.heap s'.heap.first [higherHalf.addr] ∧ (s'.heap.size higherHalf.addr).toNat = heapSize := by
  intro s s'
  obtain ⟨mem, hrun⟩ := twoBlocks_reachable
  have hlive : twoBlocks.live 0xC0200010#32 = some 10#32 := rfl
  have hlive' : s.live 0xC020002C#32 = some 10#32 := rfl
  have hs : HeapReachable higherHalf s := ⟨mem, hrun.tail (.kfree hlive)⟩
  have hs' : HeapReachable higherHalf s' := ⟨mem, (hrun.tail (.kfree hlive)).tail (.kfree hlive')⟩
  have hnone : ∀ p, s'.live p = none := by
    intro p
    simp only [s', s, twoBlocks, Function.update_apply]
    split_ifs <;> rfl
  obtain ⟨-, hfail, -⟩ := heap_coalesced hs
  obtain ⟨-, -, hempty⟩ := heap_coalesced hs'
  refine ⟨hs', ⟨_, hlive'⟩, ?_, (hempty hnone).1, (hempty hnone).2.1⟩
  rw [hfail 10#32 (by decide) (by decide), not_not]
  refine ⟨higherHalf.addr.toNat, by decide, by decide, fun p n hp => ?_⟩
  -- only the second block is live
  obtain rfl : p = 0xC020002C#32 := by
    by_contra hne
    simp only [s, twoBlocks, Function.update_apply, if_neg hne] at hp
    split_ifs at hp
  exact .inl (by decide)

end PekerOS.Kheap
