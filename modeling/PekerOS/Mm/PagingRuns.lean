import PekerOS.Mm.DirectMap

/-!
# The direct map along runs of the kernel

`init_paging` builds the direct map table by table while the tables of `boot.s` are still in use;
after that the drivers, `sbrk` and the program loader map their windows. The windows of the network
and graphics drivers begin at `0xD0000000` and `0xE0000000`, which the direct map covers on a machine
with more than 256 MB.

## Main definitions

* `Building`: the tables after some rounds of `init_paging`
* `DirectMapped`: every frame that `alloc_frame` can return is mapped at its direct address
* `Harmless`: an operation maps no such page to another frame

## Main results

* `initPaging_spec`: what `init_paging` leaves
* `direct_map_kept`: a run of harmless operations keeps the direct map and never faults
* `direct_map_lost`: with 512 MB, the E1000 driver loses it
-/

namespace PekerOS.Mm

section Boot

variable {p : Pmm} {f b : ℕ}

/-- `boot.s` maps 512 MB. -/
theorem translate_boot (mem : ℕ → Table 1024 Entry) (hf : f < 262144) :
    translate .boot mem (directAddr f) = if f < 131072 then some f else none := by
  rw [translate, pdIdx_directAddr hf, frameOf_directAddr_sub (by omega)]
  by_cases hlt : f < 131072
  · rw [if_pos hlt, if_pos (by omega)]
  · rw [if_neg hlt, if_neg (by omega), if_neg (by omega)]

/-- With a clear frame below `b`, `alloc_frame` returns one. -/
theorem allocFrame_below (hb : b ≤ (searchLimit p).toNat)
    (hcount : 0 < Bitmap.clearCount p.frameBitmap 0 b) :
    ∃ a < b, Bitmap.test p.frameBitmap a = false ∧
      allocFrame p = (takeFrame p a, BitVec.ofNat 32 a * frameSize) := by
  obtain ⟨f, hf, hclear⟩ : ∃ f < b, Bitmap.test p.frameBitmap f = false := by
    by_contra hnone
    push Not at hnone
    exact hcount.ne' (Bitmap.clearCount_eq_zero.mpr fun f _ hf => by simpa using hnone f hf)
  rcases allocFrame_cases p with ⟨-, hall⟩ | ⟨a, -, ha, hfirst, h⟩
  · rw [hall f (lt_of_lt_of_le hf hb)] at hclear
    cases hclear
  · refine ⟨a, ?_, ha, h⟩
    by_contra hge
    rw [hfirst f (by omega)] at hclear
    cases hclear

end Boot

/-- The tables after `m` rounds of `init_paging`: all in frames below `b`, all of them fresh. -/
structure Building (p₀ : Pmm) (b total m : ℕ) (T : ℕ → ℕ) (pd : ℕ) (s : Machine) : Prop where
  cr3 : s.cr3 = .boot
  directory : s.kernelDirectory = directAddr pd
  kb : s.pmm.totalMemoryKb = p₀.totalMemoryKb
  kept : Kept p₀ m T pd s.pmm
  count : Bitmap.clearCount s.pmm.frameBitmap 0 b + (m + 1) = Bitmap.clearCount p₀.frameBitmap 0 b
  pd_lt : pd < b ∧ pd < 131072
  pd_clear : Bitmap.test p₀.frameBitmap pd = false
  table_lt : ∀ i < m, T i < b
  table_clear : ∀ i < m, Bitmap.test p₀.frameBitmap (T i) = false
  table_inj : ∀ i < m, ∀ j < m, T i = T j → i = j
  table_ne : ∀ i < m, T i ≠ pd
  pde : ∀ i < m, ((s.mem pd).get (768 + i)).present = true ∧
    ((s.mem pd).get (768 + i)).frame = T i
  absent : ∀ k < 1024, k < 768 ∨ 768 + m ≤ k → ((s.mem pd).get k).present = false
  pte : ∀ f < total, f / 1024 < m → ((s.mem (T (f / 1024))).get (f % 1024)).present = true ∧
    ((s.mem (T (f / 1024))).get (f % 1024)).frame = f

/-- The machine after a round of `init_paging` whose table is in frame `a`. -/
def tableLinked (sec : Sections) (total : Word) (m a pd : ℕ) (s : Machine) : Machine :=
  { s with
    pmm := takeFrame s.pmm a
    mem := linkMem s.mem a pd (768 + m) (Table.ofFn fun j => directEntry sec total m j ((s.mem a).get j)) }

/-- What the entries say: those of the directory grant write permission, those of the tables are as
`init_paging` computes them. -/
structure Filled (sec : Sections) (total : Word) (m : ℕ) (T : ℕ → ℕ) (pd : ℕ) (s : Machine) : Prop where
  writable : ∀ i < m, ((s.mem pd).get (768 + i)).rw = true
  entry : ∀ i < m, ∀ j < 1024, ∃ e, (s.mem (T i)).get j = directEntry sec total i j e

section Init

variable {p₀ : Pmm} {b m pd a : ℕ} {T : ℕ → ℕ} {s : Machine} {sec : Sections} {total : Word}

/-- Taking a frame below `b` keeps what was kept. -/
theorem Kept.take (hk : Kept p₀ m T pd s.pmm) (ha : a < 1048576) :
    Kept p₀ m T pd (takeFrame s.pmm a) := by
  have htest (f : ℕ) (hf : Bitmap.test s.pmm.frameBitmap f = true) :
      Bitmap.test (Bitmap.set s.pmm.frameBitmap a) f = true := by
    rw [Bitmap.test_set _ (by omega), hf, Bool.or_true]
  exact ⟨hk.bound, hk.total, fun f hf => htest f (hk.mono f hf), hk.pd_ne_zero,
    htest _ hk.pd_marked, hk.table_ne_zero, fun i hi => htest _ (hk.table_marked i hi)⟩

/-- The entries of a direct table. -/
theorem directEntry_of_lt (sec : Sections) {i j : ℕ} (e : Entry) (hi : i < 256) (hj : j < 1024)
    (hlt : i * 1024 + j < total.toNat) :
    (directEntry sec total i j e).present = true ∧
      (directEntry sec total i j e).frame = i * 1024 + j := by
  have hidx : (BitVec.ofNat 32 i * 1024#32 + BitVec.ofNat 32 j).toNat = i * 1024 + j := by
    simp only [BitVec.toNat_add, BitVec.toNat_mul, BitVec.toNat_ofNat]
    omega
  have hcond : BitVec.ofNat 32 i * 1024#32 + BitVec.ofNat 32 j < total := by
    rw [BitVec.lt_def, hidx]
    exact hlt
  rw [directEntry, if_pos hcond]
  refine ⟨rfl, ?_⟩
  dsimp only
  rw [hidx]
  exact Nat.mod_eq_of_lt (by omega)

/-- A further table, in a fresh frame `a`. -/
theorem Building.link (hB : Building p₀ b total.toNat m T pd s) (hm : m < 256) (hab : a < b)
    (ha : a < 262144) (hret : Bitmap.test p₀.frameBitmap a = false)
    (hclear : Bitmap.test s.pmm.frameBitmap a = false) (ha0 : a ≠ 0) (hapd : a ≠ pd)
    (haT : ∀ i < m, a ≠ T i) {t : Table 1024 Entry}
    (ht : ∀ j < 1024, m * 1024 + j < total.toNat →
      (t.get j).present = true ∧ (t.get j).frame = m * 1024 + j) :
    Building p₀ b total.toNat (m + 1) (Function.update T m a) pd
      { s with pmm := takeFrame s.pmm a, mem := linkMem s.mem a pd (768 + m) t } := by
  have hold {i : ℕ} (hi : i < m) : Function.update T m a i = T i :=
    Function.update_of_ne (by omega) _ _
  have hnew : Function.update T m a m = a := Function.update_self _ _ _
  have hkept := hB.kept.take (a := a) (by omega)
  -- a statement about the tables below `m + 1` is one about the old ones and one about the new one
  have hsplit {P : ℕ → Prop} (hP : ∀ i < m, P (T i)) (ha : P a) (i : ℕ) (hi : i < m + 1) :
      P (Function.update T m a i) := by
    rcases Nat.lt_succ_iff_lt_or_eq.mp hi with hi | rfl
    · rw [hold hi]
      exact hP i hi
    · rwa [hnew]
  have hpdmem : linkMem s.mem a pd (768 + m) t pd =
      (s.mem pd).set (768 + m) (Entry.point a ((s.mem pd).get (768 + m))) :=
    Function.update_self _ _ _
  have hc := Bitmap.clearCount_set (show a < 8 * 131072 by omega)
    (Bitmap.mem_clearBits.mpr ⟨⟨Nat.zero_le a, hab⟩, hclear⟩)
  have hcount := hB.count
  refine ⟨hB.cr3, hB.directory, hB.kb, ?_, ?_, hB.pd_lt, hB.pd_clear,
    hsplit (P := fun f => f < b) hB.table_lt hab,
    hsplit (P := fun f => Bitmap.test p₀.frameBitmap f = false) hB.table_clear hret, ?_,
    hsplit (P := fun f => f ≠ pd) hB.table_ne hapd, ?_, ?_, ?_⟩
  · refine ⟨hkept.bound, hkept.total, hkept.mono, hkept.pd_ne_zero, hkept.pd_marked,
      hsplit (P := fun f => f ≠ 0) hkept.table_ne_zero ha0,
      hsplit (P := fun f => Bitmap.test (takeFrame s.pmm a).frameBitmap f = true)
        hkept.table_marked ?_⟩
    rw [takeFrame_frameBitmap, Bitmap.test_set _ (by omega), decide_eq_true rfl, Bool.true_or]
  · dsimp only
    rw [takeFrame_frameBitmap]
    omega
  · intro i hi j hj heq
    rcases Nat.lt_succ_iff_lt_or_eq.mp hi with hi | rfl <;>
      rcases Nat.lt_succ_iff_lt_or_eq.mp hj with hj | rfl
    · rw [hold hi, hold hj] at heq
      exact hB.table_inj i hi j hj heq
    · rw [hold hi, hnew] at heq
      exact absurd heq.symm (haT i hi)
    · rw [hold hj, hnew] at heq
      exact absurd heq (haT j hj)
    · rfl
  · intro i hi
    dsimp only
    rw [hpdmem]
    rcases Nat.lt_succ_iff_lt_or_eq.mp hi with hi | rfl
    · rw [Table.get_set_ne _ (by omega), hold hi]
      exact hB.pde i hi
    · rw [Table.get_set_self _ (by omega), hnew]
      exact ⟨rfl, rfl⟩
  · intro k hk hrange
    dsimp only
    rw [hpdmem, Table.get_set_ne _ (by omega)]
    exact hB.absent k hk (by omega)
  · intro f hf hi
    dsimp only
    rcases Nat.lt_succ_iff_lt_or_eq.mp hi with hi | heq
    · rw [hold hi, linkMem, Function.update_of_ne (hB.table_ne _ hi),
        Function.update_of_ne (haT _ hi).symm]
      exact hB.pte f hf hi
    · rw [heq, hnew, linkMem, Function.update_of_ne hapd, Function.update_self]
      have hf' : m * 1024 + f % 1024 = f := by omega
      have := ht (f % 1024) (Nat.mod_lt _ (by decide)) (by omega)
      rwa [hf'] at this

/-- A further table in a frame of its own. -/
theorem Filled.link (hF : Filled sec total m T pd s) (hm : m < 256) (hapd : a ≠ pd)
    (haT : ∀ i < m, a ≠ T i) (hpdT : ∀ i < m, T i ≠ pd) :
    Filled sec total (m + 1) (Function.update T m a) pd (tableLinked sec total m a pd s) := by
  have hold {i : ℕ} (hi : i < m) : Function.update T m a i = T i :=
    Function.update_of_ne (by omega) _ _
  constructor
  · intro i hi
    rw [tableLinked, linkMem]
    dsimp only
    rw [Function.update_self]
    rcases Nat.lt_succ_iff_lt_or_eq.mp hi with hi | rfl
    · rw [Table.get_set_ne _ (by omega)]
      exact hF.writable i hi
    · rw [Table.get_set_self _ (by omega)]
      rfl
  · intro i hi j hj
    rw [tableLinked, linkMem]
    dsimp only
    rcases Nat.lt_succ_iff_lt_or_eq.mp hi with hi | rfl
    · rw [hold hi, Function.update_of_ne (hpdT i hi), Function.update_of_ne (haT i hi).symm]
      exact hF.entry i hi j hj
    · rw [Function.update_self, Function.update_of_ne hapd, Function.update_self, Table.get_ofFn _ hj]
      exact ⟨_, rfl⟩

/-- One round of `init_paging`: it faults, if the frame is past the map of `boot.s`, or the table is
there. -/
theorem Building.step (hB : Building p₀ b total.toNat m T pd s)
    (h0 : Bitmap.test p₀.frameBitmap 0 = true) (hb : b ≤ (searchLimit p₀).toNat) (hm : m < 256)
    (hcount : m + 1 < Bitmap.clearCount p₀.frameBitmap 0 b) :
    directTable sec total s m = none ∧ 131072 < b ∨
      ∃ a, directTable sec total s m = some (tableLinked sec total m a pd s) ∧ a ≠ pd ∧
        (∀ i < m, a ≠ T i) ∧
        Building p₀ b total.toNat (m + 1) (Function.update T m a) pd (tableLinked sec total m a pd s) := by
  have hlimit : searchLimit s.pmm = searchLimit p₀ := by rw [searchLimit, searchLimit, hB.kept.total]
  have hsearch := (searchLimit_le p₀).2
  have hc := hB.count
  obtain ⟨a, hab, hclear, halloc⟩ := allocFrame_below (p := s.pmm) (hlimit ▸ hb) (by omega)
  obtain ⟨⟨-, hret⟩, hapd, haT⟩ := hB.kept.fresh (hlimit ▸ lt_of_lt_of_le hab hb) hclear
  rw [bitmapTest_eq] at hret
  have ha : a < 262144 := by omega
  rw [directTable, halloc]
  dsimp only
  -- a frame above the first 512 MiB is not mapped yet, and writing the table faults
  by_cases hboot : a < 131072
  · right
    have htr {f : ℕ} (hf : f < 131072) (t : Table 1024 Entry) :
        translate s.cr3 (Function.update s.mem a t) (directAddr f) = some f := by
      rw [hB.cr3, translate_boot _ (by omega), if_pos hf]
    have hlink := linkTable_eq (s := { s with pmm := takeFrame s.pmm a }) (k := 768 + m)
      (h := directEntry sec total m) (by omega) hapd hB.directory (htr hboot) (htr hB.pd_lt.2)
    have ha0 : a ≠ 0 := by
      rintro rfl
      rw [h0] at hret
      cases hret
    refine ⟨a, hlink, hapd, haT, hB.link hm hab ha hret hclear ha0 hapd haT fun j hj hlt => ?_⟩
    rw [Table.get_ofFn _ hj]
    exact directEntry_of_lt sec _ hm hj hlt
  · left
    refine ⟨?_, by omega⟩
    have htr : translate s.cr3 s.mem (directAddr a) = none := by
      rw [hB.cr3, translate_boot _ ha, if_neg hboot]
    have hfault := editTable_fault (s := { s with pmm := takeFrame s.pmm a })
      (h := directEntry sec total m) htr
    rw [directAddr] at hfault
    rw [linkTable, hfault]
    rfl

theorem Building.run (hB : Building p₀ b total.toNat 0 T pd s)
    (hF : Filled sec total 0 T pd s) (h0 : Bitmap.test p₀.frameBitmap 0 = true)
    (hb : b ≤ (searchLimit p₀).toNat) {n : ℕ} (hn : n ≤ 256)
    (hcount : n + 1 ≤ Bitmap.clearCount p₀.frameBitmap 0 b) :
    (List.range n).foldlM (directTable sec total) s = none ∧ 131072 < b ∨
      ∃ s' T, (List.range n).foldlM (directTable sec total) s = some s' ∧
        Building p₀ b total.toNat n T pd s' ∧ Filled sec total n T pd s' := by
  induction n with
  | zero => exact .inr ⟨s, T, rfl, hB, hF⟩
  | succ n ih =>
    rw [List.range_succ, List.foldlM_append]
    rcases ih (by omega) (by omega) with ⟨hfault, hlt⟩ | ⟨s', T', hrun, hB', hF'⟩
    · exact .inl ⟨by rw [hfault]; rfl, hlt⟩
    · rw [hrun]
      simp only [Option.bind_eq_bind, Option.bind_some, List.foldlM_cons, List.foldlM_nil]
      have hstep := @Building.step _ _ _ _ _ _ sec _ hB' h0 hb (by omega) (by omega)
      rcases hstep with ⟨hfault, hlt⟩ | ⟨a, hstep, hapd, haT, hB''⟩
      · exact .inl ⟨by rw [hfault]; rfl, hlt⟩
      · exact .inr ⟨_, _, by rw [hstep]; rfl, hB'', hF'.link (by omega) hapd haT hB'.table_ne⟩

/-- The directory, before the first table. -/
theorem Building.start {s : Machine} (hcr3 : s.cr3 = .boot) (hp : s.pmm.totalFrames.toNat ≤ 1048576)
    (hab : a < b) (ha : a < 131072) (hclear : Bitmap.test s.pmm.frameBitmap a = false)
    (h0 : Bitmap.test s.pmm.frameBitmap 0 = true) {n : ℕ} :
    Building s.pmm b n 0 T a { s with
      pmm := takeFrame s.pmm a
      kernelDirectory := directAddr a
      mem := Function.update s.mem a (Table.ofFn fun j =>
        { (s.mem a).get j with present := false, rw := true, user := false, frame := 0 }) } := by
  have hmark (f : ℕ) : Bitmap.test (takeFrame s.pmm a).frameBitmap f =
      (decide (f = a) || Bitmap.test s.pmm.frameBitmap f) := by
    rw [takeFrame_frameBitmap, Bitmap.test_set _ (by omega)]
  refine ⟨hcr3, rfl, rfl, ⟨hp, rfl, fun f hf => ?_, ?_, ?_, fun i hi => absurd hi (Nat.not_lt_zero i),
    fun i hi => absurd hi (Nat.not_lt_zero i)⟩, ?_, ⟨hab, ha⟩, hclear,
    fun i hi => absurd hi (Nat.not_lt_zero i), fun i hi => absurd hi (Nat.not_lt_zero i),
    fun i hi => absurd hi (Nat.not_lt_zero i), fun i hi => absurd hi (Nat.not_lt_zero i),
    fun i hi => absurd hi (Nat.not_lt_zero i), fun k hk _ => ?_,
    fun f _ hf => absurd hf (Nat.not_lt_zero _)⟩
  · rw [hmark, hf, Bool.or_true]
  · rintro rfl
    rw [h0] at hclear
    cases hclear
  · rw [hmark, decide_eq_true rfl, Bool.true_or]
  · exact Bitmap.clearCount_set (show a < 8 * 131072 by omega)
      (Bitmap.mem_clearBits.mpr ⟨⟨Nat.zero_le a, hab⟩, hclear⟩)
  · dsimp only
    rw [Function.update_self, Table.get_ofFn _ hk]

/-- The number of tables of the direct map. -/
def directTables (p₀ : Pmm) : ℕ := ((searchLimit p₀).toNat + 1023) / 1024

/-- The finished tables. -/
theorem Building.mapped {D : ℕ → Prop} (hB : Building p₀ b total.toNat (directTables p₀) T pd s)
    (htotal : total.toNat = p₀.totalFrames.toNat)
    (hD : ∀ f < b, Bitmap.test p₀.frameBitmap f = false → D f)
    (hlimit : ∀ f, D f → f < (searchLimit p₀).toNat) :
    Mapped D (directTables p₀) T pd s.mem := by
  have hsearch := searchLimit_le p₀
  have htable {f : ℕ} (hf : D f) : f / 1024 < directTables p₀ := by
    have := hlimit f hf
    rw [directTables]
    omega
  refine ⟨fun f hf => ⟨by have := hlimit f hf; omega, htable hf⟩, hD pd hB.pd_lt.1 hB.pd_clear,
    fun i hi => hD _ (hB.table_lt i hi) (hB.table_clear i hi), hB.table_inj, hB.table_ne, hB.pde,
    fun k hk hrange hpresent => ?_, fun f hf => hB.pte f ?_ (htable hf)⟩
  · rw [hB.absent k hk hrange] at hpresent
    cases hpresent
  · have := hlimit f hf
    omega

theorem searchLimit_eq (p : Pmm) : (searchLimit p).toNat = min p.totalFrames.toNat 262144 := by
  have hlimit : (262144#32).toNat = 262144 := rfl
  rw [searchLimit]
  split
  · next h =>
    have := BitVec.lt_def.mp h
    omega
  · next h =>
    have := BitVec.le_def.mp (BitVec.not_lt.mp h)
    omega

/-- Below 4 GB the number of frames does not wrap. -/
theorem pagingFrames_eq {kb : Word} (hkb : kb.toNat < 4194304) :
    (kb * 1024#32 / pageSize).toNat = kb.toNat / 4 := by
  rw [BitVec.toNat_udiv, BitVec.toNat_mul]
  show kb.toNat * 1024 % 2 ^ 32 / 4096 = kb.toNat / 4
  omega

/-- The loop of `init_paging` makes a table for every frame below the limit of `alloc_frame`. -/
theorem pagingTables_eq {p : Pmm} (htotal : total.toNat = p.totalFrames.toNat)
    (hlt : p.totalFrames.toNat ≤ 1048576) :
    min ((total + 1023#32) / 1024#32).toNat 256 = directTables p := by
  have hn : ((total + 1023#32) / 1024#32).toNat = (p.totalFrames.toNat + 1023) / 1024 := by
    rw [BitVec.toNat_udiv, BitVec.toNat_add, htotal]
    show (p.totalFrames.toNat + 1023) % 2 ^ 32 / 1024 = (p.totalFrames.toNat + 1023) / 1024
    omega
  rw [hn, directTables, searchLimit_eq]
  omega

/-- The directory, in the first frame of `alloc_frame`: `init_paging` faults at once, if `boot.s` has
not mapped it, or it goes on to the tables. -/
theorem initPaging_start {s : Machine} (sec : Sections) (hcr3 : s.cr3 = .boot)
    (htotal : s.pmm.totalFrames.toNat = s.pmm.totalMemoryKb.toNat / 4)
    (hkb : s.pmm.totalMemoryKb.toNat < 4194304)
    (h0 : Bitmap.test s.pmm.frameBitmap 0 = true) {a : ℕ} (ha : a < (searchLimit s.pmm).toNat)
    (hclear : Bitmap.test s.pmm.frameBitmap a = false)
    (halloc : allocFrame s.pmm = (takeFrame s.pmm a, BitVec.ofNat 32 a * frameSize)) :
    ∃ s₁, initPaging sec s = none ∧ 131072 ≤ a ∨
      a < 131072 ∧
      initPaging sec s = ((List.range (directTables s.pmm)).foldlM
        (directTable sec (s.pmm.totalMemoryKb * 1024#32 / pageSize)) s₁).map
          (fun s' => { s' with cr3 := .directory a }) ∧
      (∀ b, a < b →
        Building s.pmm b (s.pmm.totalMemoryKb * 1024#32 / pageSize).toNat 0 (fun _ => 0) a s₁) ∧
      Filled sec (s.pmm.totalMemoryKb * 1024#32 / pageSize) 0 (fun _ => 0) a s₁ := by
  have hsearch := searchLimit_le s.pmm
  have hframes := pagingFrames_eq hkb
  rw [← htotal] at hframes
  have htables := pagingTables_eq hframes (by omega)
  have ha' : a < 262144 := by omega
  -- the boot tables map the first 512 MiB, so a directory above them cannot be written
  by_cases hboot : a < 131072
  · have htr (t : Table 1024 Entry) :
        translate s.cr3 (Function.update s.mem a t) (directAddr a) = some a := by
      rw [hcr3, translate_boot _ ha', if_pos hboot]
    have hfill := editTable_eq (s := { s with pmm := takeFrame s.pmm a, kernelDirectory := directAddr a })
      (h := fun _ e => { e with present := false, rw := true, user := false, frame := 0 }) htr
    refine ⟨_, .inr ⟨hboot, ?_, fun b hab => Building.start hcr3 (by omega) hab hboot hclear h0,
      ⟨fun i hi => absurd hi (Nat.not_lt_zero i), fun i hi => absurd hi (Nat.not_lt_zero i)⟩⟩⟩
    rw [directAddr] at hfill
    rw [initPaging, halloc]
    dsimp only
    rw [hfill]
    simp only [Option.bind_eq_bind, Option.bind_some]
    rw [show (takeFrame s.pmm a).totalMemoryKb = s.pmm.totalMemoryKb from rfl, htables,
      frameOf_frame (by omega), Option.map_eq_bind]
    rfl
  · refine ⟨s, .inl ⟨?_, by omega⟩⟩
    have htr : translate s.cr3 s.mem (directAddr a) = none := by
      rw [hcr3, translate_boot _ ha', if_neg hboot]
    have hfault := editTable_fault
      (s := { s with pmm := takeFrame s.pmm a, kernelDirectory := directAddr a })
      (h := fun _ e => { e with present := false, rw := true, user := false, frame := 0 }) htr
    rw [directAddr] at hfault
    rw [initPaging, halloc]
    dsimp only
    rw [hfault]
    rfl

/-- `init_paging`, if there are enough frames below `b` for its tables: a page fault, for a frame that
`boot.s` has not mapped, or the finished tables. -/
theorem initPaging_cases {s : Machine} (sec : Sections) (hcr3 : s.cr3 = .boot)
    (htotal : s.pmm.totalFrames.toNat = s.pmm.totalMemoryKb.toNat / 4)
    (hkb : s.pmm.totalMemoryKb.toNat < 4194304)
    (h0 : Bitmap.test s.pmm.frameBitmap 0 = true) (hb : b ≤ (searchLimit s.pmm).toNat)
    (hcount : directTables s.pmm + 1 ≤ Bitmap.clearCount s.pmm.frameBitmap 0 b) :
    initPaging sec s = none ∧ 131072 < b ∨
      ∃ s' T pd, initPaging sec s = some { s' with cr3 := .directory pd } ∧
        Building s.pmm b (s.pmm.totalMemoryKb * 1024#32 / pageSize).toNat (directTables s.pmm) T pd s' ∧
        Filled sec (s.pmm.totalMemoryKb * 1024#32 / pageSize) (directTables s.pmm) T pd s' := by
  have hsearch := searchLimit_le s.pmm
  obtain ⟨a, hab, hclear, halloc⟩ := allocFrame_below hb (by omega)
  obtain ⟨s₁, ⟨hfault, hle⟩ | ⟨-, hinit, hB, hF⟩⟩ :=
    initPaging_start sec hcr3 htotal hkb h0 (lt_of_lt_of_le hab hb) hclear halloc
  · exact .inl ⟨hfault, by omega⟩
  · rcases (hB b hab).run hF h0 hb (by rw [directTables]; omega) hcount with
      ⟨hfault, hlt⟩ | ⟨s', T, hrun, hB', hF'⟩
    · exact .inl ⟨by rw [hinit, hfault]; rfl, hlt⟩
    · exact .inr ⟨s', T, a, by rw [hinit, hrun]; rfl, hB', hF'⟩

/-- What `init_paging` leaves: the direct map of a set `D` of frames. -/
theorem initPaging_spec {D : ℕ → Prop} {s : Machine} (sec : Sections) (hcr3 : s.cr3 = .boot)
    (htotal : s.pmm.totalFrames.toNat = s.pmm.totalMemoryKb.toNat / 4)
    (hkb : s.pmm.totalMemoryKb.toNat < 4194304)
    (h0 : Bitmap.test s.pmm.frameBitmap 0 = true) (hb : b ≤ (searchLimit s.pmm).toNat)
    (hcount : directTables s.pmm + 1 ≤ Bitmap.clearCount s.pmm.frameBitmap 0 b)
    (hD : ∀ f < b, Bitmap.test s.pmm.frameBitmap f = false → D f)
    (hlimit : ∀ f, D f → f < (searchLimit s.pmm).toNat) :
    initPaging sec s = none ∧ 131072 < b ∨
      ∃ s' T pd, initPaging sec s = some s' ∧ Loaded pd s' ∧
        Mapped D (directTables s.pmm) T pd s'.mem ∧ Kept s.pmm (directTables s.pmm) T pd s'.pmm := by
  have hframes := pagingFrames_eq hkb
  rw [← htotal] at hframes
  rcases initPaging_cases sec hcr3 htotal hkb h0 hb hcount with hfault | ⟨s', T, pd, hinit, hB, -⟩
  · exact .inl hfault
  · exact .inr ⟨_, T, pd, hinit, ⟨rfl, hB.directory⟩, hB.mapped hframes hD hlimit, hB.kept⟩

end Init

/-! ## Runs -/

/-- Every frame that `alloc_frame` can return is mapped at its direct address. -/
def DirectMapped (p₀ : Pmm) (s : Machine) : Prop :=
  ∀ f, Returnable p₀ f → translate s.cr3 s.mem (directAddr f) = some f

/-- A page fault stops the kernel. -/
def kernelStep (s : Option Machine) (op : PagingOp) : Option Machine := s.bind fun s => s.step op

/-- No page of the window is the direct page of frame 0 or of a frame that `alloc_frame` can return,
unless it is mapped to that very frame. -/
def Harmless (p₀ : Pmm) (s : Option Machine) : PagingOp → Prop
  | .allocFrame => True
  | .map source virt size => ∀ s', s = some s' → ∀ i < (numPages size).toNat, ∀ f,
      f = 0 ∨ Returnable p₀ f →
        frameOf (virt + BitVec.ofNat 32 i * pageSize) = frameOf kernelBase + f →
          frameOf ((source.take s'.pmm).2 + BitVec.ofNat 32 i * pageSize) = f

/-- The invariant of a run: the kernel has not faulted, and the direct map is in order. -/
def Running (p₀ : Pmm) (s : Option Machine) : Prop :=
  ∃ s' T pd, s = some s' ∧ Loaded pd s' ∧
    Mapped (fun f => f = 0 ∨ Returnable p₀ f) (directTables p₀) T pd s'.mem ∧
    Kept p₀ (directTables p₀) T pd s'.pmm

section Runs

variable {p₀ : Pmm} {s : Option Machine} {op : PagingOp}

theorem Running.directMapped (h : Running p₀ s) : ∃ s', s = some s' ∧ DirectMapped p₀ s' := by
  obtain ⟨s', T, pd, hs, hl, hm, -⟩ := h
  refine ⟨s', hs, fun f hf => ?_⟩
  rw [hl.cr3]
  exact hm.translate (.inr hf)

theorem Kept.source {n pd : ℕ} {T : ℕ → ℕ} {p : Pmm} (hk : Kept p₀ n T pd p) (source : Source) :
    Kept p₀ n T pd (source.take p).1 := by
  cases source with
  | phys addr => exact hk
  | allocFrame => exact hk.request (allocFrame_outcome hk.bound)
  | allocContiguousFrames count => exact hk.request (allocContiguousFrames_cases hk.bound)

theorem Running.step (h : Running p₀ s) (hop : Harmless p₀ s op) : Running p₀ (kernelStep s op) := by
  obtain ⟨s', T, pd, rfl, hl, hm, hk⟩ := h
  cases op with
  | allocFrame =>
    exact ⟨_, T, pd, rfl, ⟨hl.cr3, hl.directory⟩, hm, hk.request (allocFrame_outcome hk.bound)⟩
  | map source virt size =>
    obtain ⟨s'', hmap, hl', hm', hk'⟩ := pagingMapMemory_spec
      (s := { s' with pmm := (source.take s'.pmm).1 }) (fun f hf => hf) ⟨hl.cr3, hl.directory⟩ hm
      (hk.source source) (hop s' rfl)
    exact ⟨s'', T, pd, hmap, hl', hm', hk'⟩

/-- A harmless run after `init_paging`. -/
theorem Running.run {ops : List PagingOp} (h : Running p₀ s)
    (hops : Steps kernelStep (Harmless p₀) s ops) : Along kernelStep (Running p₀) s ops :=
  along_of_steps (I := fun _ => True) (fun _ => trivial) (fun _ h hop => h.step hop) trivial h hops

end Runs

theorem initPmm_totals {image : KernelImage} {mbi : MultibootInfo} {mem : Word → Word} {fuel : ℕ}
    {p : Pmm} (h : initPmm image mbi mem fuel = some p) :
    p.totalFrames = frameCount mbi ∧ p.totalMemoryKb = memoryKb mbi := by
  obtain ⟨m, -, h⟩ := Option.bind_eq_some_iff.mp h
  cases h
  exact ⟨rfl, rfl⟩

/-- Below 4 GB every 4 KB of memory is a frame. -/
theorem frameCount_eq {mbi : MultibootInfo} (h : (memoryKb mbi).toNat < 4194304) :
    (frameCount mbi).toNat = (memoryKb mbi).toNat / 4 := by
  have hn : (memoryKb mbi / 4#32).toNat = (memoryKb mbi).toNat / 4 := BitVec.toNat_udiv
  rw [frameCount, if_neg, hn]
  rw [BitVec.not_lt, BitVec.le_def, hn]
  show (memoryKb mbi).toNat / 4 ≤ 1048576
  omega

/-- **The direct map**: below 4 GB, with frames for the tables of `init_paging`, no sequence of the
kernel's calls whose windows are harmless loses the direct map of a frame that `alloc_frame` can
return, and none of them faults. -/
theorem direct_map_kept {image : KernelImage} {mbi : MultibootInfo} {mem : Word → Word} {fuel : ℕ}
    {sec : Sections} {s₀ s : Machine} (hpmm : initPmm image mbi mem fuel = some s₀.pmm)
    (hboot : s₀.cr3 = .boot) (hkb : s₀.pmm.totalMemoryKb.toNat < 4194304)
    (hframes : directTables s₀.pmm + 1 ≤
      Bitmap.clearCount s₀.pmm.frameBitmap 0 (searchLimit s₀.pmm).toNat)
    (hinit : initPaging sec s₀ = some s) {calls : List KernelCall}
    (hcalls : Steps kernelStep (Harmless s₀.pmm) (some s) (calls.flatMap KernelCall.ops)) :
    Along kernelStep (fun s => ∃ s', s = some s' ∧ DirectMapped s₀.pmm s') (some s)
      (calls.flatMap KernelCall.ops) := by
  obtain ⟨htotal, hkb'⟩ := initPmm_totals hpmm
  have hcount := Bitmap.clearCount_le s₀.pmm.frameBitmap 0 (searchLimit s₀.pmm).toNat
  have hsearch := searchLimit_le s₀.pmm
  have h0 : Bitmap.test s₀.pmm.frameBitmap 0 = true :=
    (HoldInv.init hpmm).reserved 0 (show 0 < s₀.pmm.totalFrames.toNat by omega) (.inl (by decide))
  have hspec := initPaging_spec (D := fun f => f = 0 ∨ Returnable s₀.pmm f) sec hboot
    (by rw [htotal, hkb', frameCount_eq (hkb' ▸ hkb)]) hkb h0 le_rfl hframes
    (fun f hf hclear => .inr ⟨hf, by rwa [bitmapTest_eq]⟩)
    (by
      rintro f (rfl | hf)
      · omega
      · exact hf.1)
  rw [hinit] at hspec
  rcases hspec with ⟨hnone, -⟩ | ⟨s', T, pd, hs, hl, hm, hk⟩
  · cases hnone
  · cases hs
    -- the direct map is kept from one call of the kernel to the next
    have hrunning : Running s₀.pmm (some s) := ⟨s, T, pd, rfl, hl, hm, hk⟩
    exact (hrunning.run hcalls).imp fun h => h.directMapped

/-! ## A machine with 512 MB -/

/-- A boot loader that reports 512 MB, without a memory map. -/
def largeInfo : MultibootInfo := ⟨mbFlagMem, 0#32, 523264#32, 0#32, 0#32⟩

/-- The frames after the image are clear. -/
theorem initPmm_large : ∃ p, initPmm smallImage largeInfo (fun _ => 0#32) 0 = some p ∧
    p.totalFrames = 131072#32 ∧ p.totalMemoryKb = 524288#32 ∧
    ∀ f, 257 ≤ f → f < 131072 → Bitmap.test p.frameBitmap f = false := by
  have hrelease (m : Table 131072 Byte) : releaseUsable largeInfo (fun _ => 0#32) 0 131072#32 m =
      some ((frames 256#32 131072#32 131072#32).foldl Bitmap.clear m) :=
    if_neg (by decide)
  have htotal : frameCount largeInfo = 131072#32 := by decide
  have hframes : kernelFrames smallImage 131072#32 = [256] := by decide
  rw [initPmm, htotal, hrelease]
  refine ⟨_, rfl, rfl, by decide, fun f hlo hhi => ?_⟩
  dsimp only
  have hmem : f ∈ frames 256#32 131072#32 131072#32 := by
    rw [mem_frames]
    exact ⟨by show 256 ≤ f; omega, hhi, hhi⟩
  rw [hframes, Bitmap.test_foldl_set _ (by decide), Bitmap.test_foldl_set _ fun b hb => ?_,
    Bitmap.test_foldl_clear _ fun b hb => ?_, decide_eq_false (not_not_intro hmem), Bool.false_and,
    Bool.or_false, decide_eq_false, decide_eq_false]
  · rfl
  · rw [List.mem_range]
    omega
  · rw [List.mem_singleton]
    omega
  · have := (mem_frames.mp hb).2.2
    exact lt_of_lt_of_le this (by decide)
  · have := List.mem_range.mp hb
    omega

/-- A 512 MB machine before `init_paging`. -/
def largeMachine (p : Pmm) : Machine := ⟨fun _ => default, .boot, 0#32, p⟩

section Large

variable {p : Pmm} {b : ℕ}

theorem clearCount_large (hclear : ∀ f, 257 ≤ f → f < 131072 → Bitmap.test p.frameBitmap f = false)
    (hb : b ≤ 131072) : b - 257 ≤ Bitmap.clearCount p.frameBitmap 0 b := by
  rw [← Nat.card_Ico]
  refine Finset.card_le_card fun f hf => ?_
  obtain ⟨hlo, hhi⟩ := Finset.mem_Ico.mp hf
  exact Bitmap.mem_clearBits.mpr ⟨⟨Nat.zero_le f, hhi⟩, hclear f hlo (by omega)⟩

/-- `init_paging` succeeds, with all its tables below the window of the E1000. -/
theorem initPaging_large (sec : Sections)
    (hpmm : initPmm smallImage largeInfo (fun _ => 0#32) 0 = some p)
    (htotal : p.totalFrames = 131072#32) (hkb : p.totalMemoryKb = 524288#32)
    (hclear : ∀ f, 257 ≤ f → f < 131072 → Bitmap.test p.frameBitmap f = false) :
    ∃ s T pd, initPaging sec (largeMachine p) = some s ∧ Loaded pd s ∧
      Mapped (fun f => f < 65552 ∧ Bitmap.test p.frameBitmap f = false) 128 T pd s.mem := by
  have hlimit : (searchLimit p).toNat = 131072 := by rw [searchLimit_eq, htotal]; rfl
  have htables : directTables p = 128 := by rw [directTables, hlimit]
  have h0 : Bitmap.test p.frameBitmap 0 = true :=
    (HoldInv.init hpmm).reserved 0 (by rw [htotal]; decide) (.inl (by decide))
  have hspec := initPaging_spec (s := largeMachine p) (b := 65552)
    (D := fun f => f < 65552 ∧ Bitmap.test p.frameBitmap f = false) sec rfl
    (by show p.totalFrames.toNat = p.totalMemoryKb.toNat / 4; rw [htotal, hkb]; rfl)
    (by show p.totalMemoryKb.toNat < 4194304; rw [hkb]; decide) h0
    (by show 65552 ≤ (searchLimit p).toNat; omega)
    (by
      have := clearCount_large hclear (b := 65552) (by decide)
      show directTables p + 1 ≤ Bitmap.clearCount p.frameBitmap 0 65552
      omega)
    (fun f hf hc => ⟨hf, hc⟩)
    (fun f hf => by show f < (searchLimit p).toNat; omega)
  rcases hspec with ⟨-, hlt⟩ | ⟨s, T, pd, hs, hl, hm, -⟩
  · omega
  · exact ⟨s, T, pd, hs, hl, htables ▸ hm⟩

/-- The pages of the E1000's register window: entry `16 + i` of the 65th table of the direct map. -/
theorem e1000_page {i : ℕ} (hi : i < 32) :
    pdIdx (0xD0010000#32 + BitVec.ofNat 32 i * pageSize) = 832 ∧
      ptIdx (0xD0010000#32 + BitVec.ofNat 32 i * pageSize) = 16 + i := by
  have hv : (0xD0010000#32 + BitVec.ofNat 32 i * pageSize).toNat = 3489726464 + i * 4096 := by
    rw [BitVec.toNat_add, toNat_frame (by omega)]
    show (3489726464 + i * 4096) % 2 ^ 32 = 3489726464 + i * 4096
    omega
  rw [pdIdx_eq, ptIdx_eq, hv]
  omega

/-- The window takes over the direct page of frame 65552, and the later pages leave it so. -/
theorem e1000_window {D : ℕ → Prop} {T : ℕ → ℕ} {pd : ℕ} {s : Machine} (hl : Loaded pd s)
    (hm : Mapped D 128 T pd s.mem) (hD : ∀ f, D f → f < 65552) :
    ∃ s', pagingMapMemory s 0xFEBC0000#32 0xD0010000#32 (128#32 * 1024#32) = some s' ∧
      translate s'.cr3 s'.mem (directAddr 65552) = some 0xFEBC0 := by
  have hbase : frameOf kernelBase = 786432 := by decide
  -- by induction on the number of pages mapped, the first of them stays
  have key (c : ℕ) (hc : c ≤ 32) :
      ∃ s', (List.range c).foldlM (fun s i => mapPage s (0xFEBC0000#32 + BitVec.ofNat 32 i * pageSize)
        (0xD0010000#32 + BitVec.ofNat 32 i * pageSize)) s = some s' ∧ Loaded pd s' ∧
        Mapped D 128 T pd s'.mem ∧ (0 < c → ((s'.mem (T 64)).get 16).present = true ∧
          ((s'.mem (T 64)).get 16).frame = 0xFEBC0) := by
    induction c with
    | zero => exact ⟨s, rfl, hl, hm, fun h => absurd h (lt_irrefl 0)⟩
    | succ c ih =>
      obtain ⟨s₁, hrun, hl₁, hm₁, hfirst⟩ := ih (by omega)
      obtain ⟨hpd, hpt⟩ := e1000_page (i := c) (by omega)
      obtain ⟨hpresent, hframe⟩ := hm₁.pde 64 (by decide)
      have htable := tableFor_present hl₁ hm₁ (show 832 < 1024 by decide) hpresent
      rw [show 768 + 64 = 832 from rfl] at hpresent hframe
      rw [hframe, ← hpd] at htable
      rw [← hpd] at hpresent hframe
      obtain ⟨hmap, hm₂⟩ := mapPage_of_table (p := 0xFEBC0000#32 + BitVec.ofNat 32 c * pageSize)
        -- the window is above every frame of `D`, so no direct page is lost
        htable hl₁ hm₁ hpresent hframe fun f hf heq => by
          have := hD f hf
          rw [frameOf_eq_idx, hpd, hpt, hbase] at heq
          omega
      rw [List.range_succ, List.foldlM_append, hrun]
      simp only [Option.bind_eq_bind, Option.bind_some, List.foldlM_cons, List.foldlM_nil, hmap]
      refine ⟨_, rfl, ⟨hl₁.cr3, hl₁.directory⟩, hm₂, fun _ => ?_⟩
      dsimp only
      rw [pageMem, Function.update_self, hpt]
      cases c with
      | zero =>
        rw [Table.get_set_self _ (by decide)]
        exact ⟨rfl, show frameOf (0xFEBC0000#32 + 0#32 * pageSize) = 0xFEBC0 by decide⟩
      | succ c =>
        rw [Table.get_set_ne _ (by omega)]
        exact hfirst (Nat.succ_pos c)
  -- 128 KiB are 32 pages
  obtain ⟨s', hrun, hl', hm', hfirst⟩ := key 32 le_rfl
  obtain ⟨hpresent, hframe⟩ := hfirst (by decide)
  obtain ⟨hpde, ht⟩ := hm'.pde 64 (by decide)
  have hpd := (hm'.bound pd hm'.pd_mem).1
  have hcr3 : frameOf (s'.kernelDirectory - kernelBase) = pd := by
    rw [hl'.directory, frameOf_directAddr_sub (by omega)]
  refine ⟨{ s' with cr3 := .directory pd }, ?_, ?_⟩
  · rw [pagingMapMemory, show (numPages (128#32 * 1024#32)).toNat = 32 by decide, hrun, ← hcr3]
    rfl
  · exact translate_directory (t := T 64)
      (by rwa [pdIdx_directAddr (by decide)]) (by rwa [pdIdx_directAddr (by decide)])
      (by rwa [ptIdx_directAddr (by decide)]) (by rwa [ptIdx_directAddr (by decide)])

end Large

/-- With 512 MB, the first mapping of `init_e1000` takes the direct page of a frame that `alloc_frame`
can return. -/
theorem direct_map_lost : ∃ s₀ s s' op,
    initPmm smallImage largeInfo (fun _ => 0#32) 0 = some s₀.pmm ∧ s₀.cr3 = .boot ∧
      s₀.pmm.totalMemoryKb.toNat < 4194304 ∧
      initPaging ⟨0xC0100000#32, 0xC0101000#32, 0#32, 0#32⟩ s₀ = some s ∧
      (KernelCall.initE1000 0xFEBC0000#32).ops.head? = some op ∧ s.step op = some s' ∧
      ¬DirectMapped s₀.pmm s' := by
  obtain ⟨p, hpmm, htotal, hkb, hclear⟩ := initPmm_large
  obtain ⟨s, T, pd, hinit, hl, hm⟩ :=
    initPaging_large ⟨0xC0100000#32, 0xC0101000#32, 0#32, 0#32⟩ hpmm htotal hkb hclear
  obtain ⟨s', hmap, htr⟩ := e1000_window hl hm fun f hf => hf.1
  refine ⟨largeMachine p, s, s', _, hpmm, rfl, ?_, hinit, rfl, hmap, fun hdirect => ?_⟩
  · show p.totalMemoryKb.toNat < 4194304
    rw [hkb]
    decide
  · have hret : Returnable p 65552 :=
      ⟨by rw [searchLimit_eq, htotal]; decide,
        by rw [bitmapTest_eq]; exact hclear 65552 (by decide) (by decide)⟩
    rw [hdirect 65552 hret] at htr
    exact absurd (Option.some_injective _ htr) (by decide)

/-- A program with a heap, below the higher half. -/
theorem direct_map_kept_large : ∃ s₀ s,
    initPaging ⟨0xC0100000#32, 0xC0101000#32, 0#32, 0#32⟩ s₀ = some s ∧
      Along kernelStep (fun s => ∃ s', s = some s' ∧ DirectMapped s₀.pmm s') (some s)
        ([KernelCall.elfLoad 0x08048000#32 4096#32, .sysSbrk 0x0A000000#32 4096#32,
          .initAc97].flatMap KernelCall.ops) := by
  obtain ⟨p, hpmm, htotal, hkb, hclear⟩ := initPmm_large
  obtain ⟨s, T, pd, hinit, -⟩ :=
    initPaging_large ⟨0xC0100000#32, 0xC0101000#32, 0#32, 0#32⟩ hpmm htotal hkb hclear
  have hlimit : (searchLimit p).toNat = 131072 := by rw [searchLimit_eq, htotal]; rfl
  have hwindow {v : Word} {i : ℕ} (hi : i < (numPages 4096#32).toNat)
      (hv : frameOf v < frameOf kernelBase) (f : ℕ) :
      frameOf (v + BitVec.ofNat 32 i * pageSize) ≠ frameOf kernelBase + f := by
    have hone : (numPages 4096#32).toNat = 1 := by decide
    obtain rfl : i = 0 := by omega
    rw [show v + BitVec.ofNat 32 0 * pageSize = v by simp]
    omega
  refine ⟨largeMachine p, s, hinit, direct_map_kept hpmm rfl ?_ ?_ hinit ⟨?_, ?_, trivial, trivial⟩⟩
  · show p.totalMemoryKb.toNat < 4194304
    rw [hkb]
    decide
  · have := clearCount_large hclear (b := 131072) (by decide)
    show directTables p + 1 ≤ Bitmap.clearCount p.frameBitmap 0 (searchLimit p).toNat
    rw [directTables, hlimit]
    omega
  · exact fun s' _ i hi f _ heq => absurd heq (hwindow hi (by decide) f)
  · exact fun s' _ i hi f _ heq => absurd heq (hwindow hi (by decide) f)

end PekerOS.Mm
