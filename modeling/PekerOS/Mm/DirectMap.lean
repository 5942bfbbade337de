import PekerOS.Mm.Frames
import PekerOS.Mm.Paging

/-!
# The direct map

The kernel reaches its page tables through the direct map, frame `f` at `0xC0000000 + 4096 f`, and the
direct map is made of page tables. `Mapped` is the invariant that ties the two together: the tables of
the direct map lie in frames that the direct map covers, no other directory entry shares them, and
each of their entries says what it should. A call of `paging_map_memory` keeps it as long as the
window it maps stays clear of the frames the kernel relies on; the windows of the drivers do not, on a
machine with enough memory.

## Main definitions

* `directAddr f`: where the direct map has frame `f`
* `Mapped D n T pd s`: the frames in `D` are mapped directly, through the tables `T 0 … T (n - 1)`

## Main results

* `Mapped.translate`: the direct map works
* `mapPage_spec`, `pagingMapMemory_spec`: what mapping a window keeps
-/

namespace PekerOS.Mm

/-! ## Addresses -/

/-- `0xC0000000 + 4096 f` -/
def directAddr (f : ℕ) : Word := BitVec.ofNat 32 f * pageSize + kernelBase

theorem pdIdx_eq (v : Word) : pdIdx v = v.toNat / 4194304 := by
  rw [pdIdx, BitVec.toNat_ushiftRight, Nat.shiftRight_eq_div_pow]

theorem frameOf_eq (v : Word) : frameOf v = v.toNat / 4096 := by
  rw [frameOf, BitVec.toNat_ushiftRight, Nat.shiftRight_eq_div_pow]

theorem ptIdx_eq (v : Word) : ptIdx v = v.toNat / 4096 % 1024 := by
  rw [ptIdx, BitVec.toNat_and, BitVec.toNat_ushiftRight, Nat.shiftRight_eq_div_pow]
  exact Nat.and_two_pow_sub_one_eq_mod _ 10

theorem ptIdx_lt (v : Word) : ptIdx v < 1024 := by
  rw [ptIdx_eq]
  exact Nat.mod_lt _ (by decide)

theorem pdIdx_lt (v : Word) : pdIdx v < 1024 := by
  have := v.isLt
  rw [pdIdx_eq]
  omega

section Address

variable {f : ℕ}

theorem toNat_directAddr (hf : f < 262144) : (directAddr f).toNat = 3221225472 + f * 4096 := by
  rw [directAddr, BitVec.toNat_add, toNat_frame (by omega), BitVec.toNat_ofNat]
  omega

theorem pdIdx_directAddr (hf : f < 262144) : pdIdx (directAddr f) = 768 + f / 1024 := by
  rw [pdIdx_eq, toNat_directAddr hf]
  omega

theorem ptIdx_directAddr (hf : f < 262144) : ptIdx (directAddr f) = f % 1024 := by
  rw [ptIdx_eq, toNat_directAddr hf]
  omega

theorem frameOf_frame (hf : f < 1048576) : frameOf (BitVec.ofNat 32 f * frameSize) = f := by
  rw [frameOf_eq, toNat_frame hf, Nat.mul_div_cancel f (by decide)]

/-- `paging_map_memory` computes the address of a table from the entry that refers to it. -/
theorem shiftLeft_add_kernelBase (hf : f < 1048576) :
    BitVec.ofNat 32 f <<< 12 + kernelBase = directAddr f := by
  rw [directAddr]
  congr 1
  apply BitVec.eq_of_toNat_eq
  rw [toNat_frame hf, BitVec.toNat_shiftLeft, BitVec.toNat_ofNat,
    Nat.mod_eq_of_lt (show f < 2 ^ 32 by omega), Nat.shiftLeft_eq]
  exact Nat.mod_eq_of_lt (by omega)

theorem frameOf_directAddr_sub (hf : f < 1048576) : frameOf (directAddr f - kernelBase) = f := by
  rw [directAddr, BitVec.add_sub_cancel]
  exact frameOf_frame hf

end Address

/-! ## Stores through the translation -/

section Edit

variable {s : Machine} {table : Word} {f i : ℕ} {g : Entry → Entry} {h : ℕ → Entry → Entry}

theorem editEntry_eq (htr : translate s.cr3 s.mem table = some f) :
    editEntry s table i g =
      some { s with mem := Function.update s.mem f ((s.mem f).set i (g ((s.mem f).get i))) } := by
  rw [editEntry, htr]
  rfl

/-- A loop over a table whose own entries do not take part in its translation. -/
theorem editTable_eq
    (htr : ∀ t, translate s.cr3 (Function.update s.mem f t) table = some f) :
    editTable s table h =
      some { s with mem := Function.update s.mem f (Table.ofFn fun j => h j ((s.mem f).get j)) } := by
  -- after `n` rounds the first `n` entries are edited
  let edited (n : ℕ) : Table 1024 Entry :=
    Table.ofFn fun j => if j < n then h j ((s.mem f).get j) else (s.mem f).get j
  have key (n : ℕ) (hn : n ≤ 1024) :
      (List.range n).foldlM (fun s j => editEntry s table j (h j)) s =
        some { s with mem := Function.update s.mem f (edited n) } := by
    induction n with
    | zero =>
      have hsame : edited 0 = s.mem f := Table.ext_get fun j hj => Table.get_ofFn _ hj
      rw [hsame, Function.update_eq_self]
      rfl
    | succ n ih =>
      rw [List.range_succ, List.foldlM_append, ih (by omega)]
      simp only [Option.bind_eq_bind, Option.bind_some, List.foldlM_cons, List.foldlM_nil]
      rw [editEntry_eq (htr _)]
      simp only [Option.bind_some, Function.update_self, Function.update_idem]
      congr 3
      refine Table.ext_get fun j hj => ?_
      simp only [edited]
      rw [Table.get_set _ (by omega), Table.get_ofFn _ (by omega), Table.get_ofFn _ hj,
        Table.get_ofFn _ hj]
      by_cases hjn : j = n
      · simp [hjn]
      · simp [hjn, show j < n + 1 ↔ j < n by omega]
  rw [editTable, key 1024 le_rfl]
  congr 3
  refine Table.ext_get fun j hj => ?_
  simp only [edited]
  rw [Table.get_ofFn _ hj, Table.get_ofFn _ hj, if_pos hj]

theorem editTable_fault (htr : translate s.cr3 s.mem table = none) : editTable s table h = none := by
  rw [editTable, List.range_succ_eq_map, List.foldlM_cons, editEntry, htr]
  rfl

/-- A new table: its frame is filled and the directory refers to it. -/
def linkMem (mem : ℕ → Table 1024 Entry) (a pd k : ℕ) (t : Table 1024 Entry) : ℕ → Table 1024 Entry :=
  Function.update (Function.update mem a t) pd
    ((mem pd).set k (Entry.point a ((mem pd).get k)))

theorem linkMem_entry (mem : ℕ → Table 1024 Entry) (a pd : ℕ) {k : ℕ} (hk : k < 1024)
    (t : Table 1024 Entry) :
    (linkMem mem a pd k t pd).get k = Entry.point a ((mem pd).get k) := by
  rw [linkMem, Function.update_self, Table.get_set_self _ hk]

theorem linkTable_eq {a pd k : ℕ} (ha : a < 1048576) (hne : a ≠ pd)
    (hdir : s.kernelDirectory = directAddr pd)
    (htable : ∀ t, translate s.cr3 (Function.update s.mem a t) (directAddr a) = some a)
    (hpd : ∀ t, translate s.cr3 (Function.update s.mem a t) (directAddr pd) = some pd) :
    linkTable s k (BitVec.ofNat 32 a * frameSize) h =
      some { s with mem := linkMem s.mem a pd k (Table.ofFn fun j => h j ((s.mem a).get j)) } := by
  have hfill := editTable_eq (h := h) htable
  rw [directAddr] at hfill
  rw [linkTable, hfill]
  simp only [Option.bind_eq_bind, Option.bind_some, hdir]
  rw [editEntry_eq (f := pd) (hpd _), frameOf_frame ha]
  simp only [linkMem, Function.update_of_ne hne.symm]

end Edit

/-! ## The invariant -/

/-- The frames in `D` are mapped directly. The directory is in frame `pd`, and its entries from 768 on
refer to the tables `T 0 … T (n - 1)` of the direct map; other entries refer to other tables. -/
structure Mapped (D : ℕ → Prop) (n : ℕ) (T : ℕ → ℕ) (pd : ℕ) (mem : ℕ → Table 1024 Entry) :
    Prop where
  bound : ∀ f, D f → f < 262144 ∧ f / 1024 < n
  pd_mem : D pd
  table_mem : ∀ i < n, D (T i)
  table_inj : ∀ i < n, ∀ j < n, T i = T j → i = j
  table_ne : ∀ i < n, T i ≠ pd
  pde : ∀ i < n, ((mem pd).get (768 + i)).present = true ∧ ((mem pd).get (768 + i)).frame = T i
  other : ∀ k < 1024, k < 768 ∨ 768 + n ≤ k → ((mem pd).get k).present = true →
    D ((mem pd).get k).frame ∧ ((mem pd).get k).frame ≠ pd ∧ ∀ i < n, ((mem pd).get k).frame ≠ T i
  pte : ∀ f, D f → ((mem (T (f / 1024))).get (f % 1024)).present = true ∧
    ((mem (T (f / 1024))).get (f % 1024)).frame = f

theorem translate_directory {mem : ℕ → Table 1024 Entry} {pd t f : ℕ} {v : Word}
    (hpde : ((mem pd).get (pdIdx v)).present = true) (ht : ((mem pd).get (pdIdx v)).frame = t)
    (hpte : ((mem t).get (ptIdx v)).present = true) (hf : ((mem t).get (ptIdx v)).frame = f) :
    translate (.directory pd) mem v = some f := by
  subst ht hf
  simp [translate, hpde, hpte]

namespace Mapped

variable {D : ℕ → Prop} {n pd f k t i idx : ℕ} {T : ℕ → ℕ} {mem : ℕ → Table 1024 Entry} {e : Entry}

/-- The direct map works. -/
theorem translate (hm : Mapped D n T pd mem) (hf : D f) :
    Mm.translate (.directory pd) mem (directAddr f) = some f := by
  obtain ⟨hlt, hi⟩ := hm.bound f hf
  obtain ⟨hpde, ht⟩ := hm.pde _ hi
  obtain ⟨hpte, hframe⟩ := hm.pte f hf
  refine translate_directory (t := T (f / 1024)) ?_ ?_ ?_ ?_
  · rwa [pdIdx_directAddr hlt]
  · rwa [pdIdx_directAddr hlt]
  · rwa [ptIdx_directAddr hlt]
  · rwa [ptIdx_directAddr hlt]

/-- The table that a directory entry refers to is reachable, and is not the directory. -/
theorem table_of_present (hm : Mapped D n T pd mem) (hk : k < 1024)
    (hpresent : ((mem pd).get k).present = true) (ht : ((mem pd).get k).frame = t) :
    D t ∧ t ≠ pd := by
  subst ht
  by_cases hdirect : 768 ≤ k ∧ k < 768 + n
  · have hi : k - 768 < n := by omega
    have hframe := (hm.pde _ hi).2
    rw [show 768 + (k - 768) = k by omega] at hframe
    rw [hframe]
    exact ⟨hm.table_mem _ hi, hm.table_ne _ hi⟩
  · obtain ⟨hD, hne, -⟩ := hm.other k hk (by omega) hpresent
    exact ⟨hD, hne⟩

/-- A store outside the directory and the tables of the direct map. -/
theorem update_other (hm : Mapped D n T pd mem) (hpd : t ≠ pd) (ht : ∀ i < n, t ≠ T i)
    (m : Table 1024 Entry) : Mapped D n T pd (Function.update mem t m) where
  bound := hm.bound
  pd_mem := hm.pd_mem
  table_mem := hm.table_mem
  table_inj := hm.table_inj
  table_ne := hm.table_ne
  pde := by
    rw [Function.update_of_ne hpd.symm]
    exact hm.pde
  other := by
    rw [Function.update_of_ne hpd.symm]
    exact hm.other
  pte f hf := by
    rw [Function.update_of_ne (ht _ (hm.bound f hf).2).symm]
    exact hm.pte f hf

/-- A store into a table of the direct map: the frame it is about keeps its own entry. -/
theorem update_table (hm : Mapped D n T pd mem) (hi : i < n) (hidx : idx < 1024)
    (he : D (i * 1024 + idx) → e.present = true ∧ e.frame = i * 1024 + idx) :
    Mapped D n T pd (Function.update mem (T i) ((mem (T i)).set idx e)) where
  bound := hm.bound
  pd_mem := hm.pd_mem
  table_mem := hm.table_mem
  table_inj := hm.table_inj
  table_ne := hm.table_ne
  pde := by
    rw [Function.update_of_ne (hm.table_ne i hi).symm]
    exact hm.pde
  other := by
    rw [Function.update_of_ne (hm.table_ne i hi).symm]
    exact hm.other
  pte f hf := by
    by_cases htable : f / 1024 = i
    · rw [htable, Function.update_self, Table.get_set _ hidx]
      split
      · next hf' =>
        obtain rfl : f = i * 1024 + idx := by omega
        exact he hf
      · rw [← htable]
        exact hm.pte f hf
    · rw [Function.update_of_ne fun heq => htable (hm.table_inj _ (hm.bound f hf).2 _ hi heq)]
      exact hm.pte f hf

/-- A new directory entry, for a frame that is neither the directory nor a direct table. -/
theorem update_directory (hm : Mapped D n T pd mem) (hk : k < 1024)
    (habsent : ((mem pd).get k).present = false) (hD : D t) (hpd : t ≠ pd) (ht : ∀ i < n, t ≠ T i)
    (he : e.frame = t) : Mapped D n T pd (Function.update mem pd ((mem pd).set k e)) where
  bound := hm.bound
  pd_mem := hm.pd_mem
  table_mem := hm.table_mem
  table_inj := hm.table_inj
  table_ne := hm.table_ne
  pde i hi := by
    have hne : 768 + i ≠ k := by
      rintro rfl
      have := (hm.pde i hi).1
      rw [habsent] at this
      cases this
    rw [Function.update_self, Table.get_set_ne _ hne]
    exact hm.pde i hi
  other j hj hrange := by
    rw [Function.update_self, Table.get_set _ hk]
    split
    · intro _
      rw [he]
      exact ⟨hD, hpd, ht⟩
    · exact hm.other j hj hrange
  pte f hf := by
    rw [Function.update_of_ne (hm.table_ne _ (hm.bound f hf).2)]
    exact hm.pte f hf

/-- A new table for a directory entry that had none. -/
theorem link (hm : Mapped D n T pd mem) (hk : k < 1024)
    (habsent : ((mem pd).get k).present = false) (hD : D t) (hpd : t ≠ pd) (ht : ∀ i < n, t ≠ T i)
    (m : Table 1024 Entry) : Mapped D n T pd (linkMem mem t pd k m) := by
  have hsame : Function.update mem t m pd = mem pd := Function.update_of_ne hpd.symm _ _
  have hlink := (hm.update_other hpd ht m).update_directory hk (by rwa [hsame]) hD hpd ht
    (e := Entry.point t ((mem pd).get k)) rfl
  rwa [hsame] at hlink

/-- A page mapped by entry `idx` of the table of directory entry `k`: if it is the page of a frame in
`D`, it is mapped to that frame. -/
theorem update_page {fr : ℕ} (hm : Mapped D n T pd mem) (hk : k < 1024) (hidx : idx < 1024)
    (hpresent : ((mem pd).get k).present = true) (ht : ((mem pd).get k).frame = t)
    (hfr : ∀ f, D f → 768 + f / 1024 = k → f % 1024 = idx → fr = f) :
    Mapped D n T pd
      (Function.update mem t ((mem t).set idx (Entry.point fr ((mem t).get idx)))) := by
  by_cases hdirect : 768 ≤ k ∧ k < 768 + n
  · obtain ⟨i, hi, rfl⟩ : ∃ i < n, 768 + i = k := ⟨k - 768, by omega, by omega⟩
    obtain rfl : T i = t := (hm.pde i hi).2.symm.trans ht
    exact hm.update_table hi hidx fun hf => ⟨rfl, hfr _ hf (by omega) (by omega)⟩
  · obtain ⟨-, hpd, hne⟩ := hm.other k hk (by omega) hpresent
    rw [ht] at hpd hne
    exact hm.update_other hpd hne _

end Mapped

/-- The directory in frame `pd` is the one the processor uses and the one the kernel edits. -/
structure Loaded (pd : ℕ) (s : Machine) : Prop where
  cr3 : s.cr3 = .directory pd
  directory : s.kernelDirectory = directAddr pd

/-! ## What mapping a window keeps -/

/-- The frames that `alloc_frame` can return after `init_pmm`: nothing is freed later. -/
def Returnable (p₀ : Pmm) (f : ℕ) : Prop :=
  f < (searchLimit p₀).toNat ∧ bitmapTest p₀.frameBitmap f = false

/-- The bitmap since `init_pmm`: frames are only taken, and those of the direct map stay taken. -/
structure Kept (p₀ : Pmm) (n : ℕ) (T : ℕ → ℕ) (pd : ℕ) (p : Pmm) : Prop where
  bound : p.totalFrames.toNat ≤ 1048576
  total : p.totalFrames = p₀.totalFrames
  mono : ∀ f, Bitmap.test p₀.frameBitmap f = true → Bitmap.test p.frameBitmap f = true
  pd_ne_zero : pd ≠ 0
  pd_marked : Bitmap.test p.frameBitmap pd = true
  table_ne_zero : ∀ i < n, T i ≠ 0
  table_marked : ∀ i < n, Bitmap.test p.frameBitmap (T i) = true

section Windows

variable {D : ℕ → Prop} {p₀ p : Pmm} {n pd k f : ℕ} {T : ℕ → ℕ} {s : Machine}

theorem Kept.request (hk : Kept p₀ n T pd p) {r : Pmm × Word} {c : ℕ}
    (h : r = (p, 0#32) ∨ Taken p r.1 r.2 c) : Kept p₀ n T pd r.1 := by
  rcases h with rfl | h
  · exact hk
  · have htest (f : ℕ) (hf : Bitmap.test p.frameBitmap f = true) :
        Bitmap.test r.1.frameBitmap f = true := by
      rw [h.test hk.bound, hf, Bool.or_true]
    exact ⟨by rw [h.totalFrames]; exact hk.bound, by rw [h.totalFrames, hk.total],
      fun f hf => htest f (hk.mono f hf), hk.pd_ne_zero, htest _ hk.pd_marked, hk.table_ne_zero,
      fun i hi => htest _ (hk.table_marked i hi)⟩

/-- A frame that is clear now is neither the directory nor a table of the direct map. -/
theorem Kept.fresh (hk : Kept p₀ n T pd p) (hf : f < (searchLimit p).toNat)
    (hclear : Bitmap.test p.frameBitmap f = false) :
    Returnable p₀ f ∧ f ≠ pd ∧ ∀ i < n, f ≠ T i := by
  have hne {g : ℕ} (hg : Bitmap.test p.frameBitmap g = true) : f ≠ g := by
    rintro rfl
    rw [hg] at hclear
    cases hclear
  have hlimit : searchLimit p = searchLimit p₀ := by rw [searchLimit, searchLimit, hk.total]
  refine ⟨⟨hlimit ▸ hf, ?_⟩, hne hk.pd_marked, fun i hi => hne (hk.table_marked i hi)⟩
  rw [bitmapTest_eq]
  by_contra hset
  exact hne (hk.mono f (by simpa using hset)) rfl

/-- What `alloc_frame` returns for a new table; frame 0 if it fails. -/
theorem Kept.allocFrame (hk : Kept p₀ n T pd p) :
    ∃ a, (allocFrame p).2 = BitVec.ofNat 32 a * frameSize ∧ (a = 0 ∨ Returnable p₀ a) ∧ a ≠ pd ∧
      ∀ i < n, a ≠ T i := by
  rcases allocFrame_cases p with ⟨h, -⟩ | ⟨a, ha, hclear, -, h⟩
  · exact ⟨0, by rw [h]; rfl, .inl rfl, hk.pd_ne_zero.symm, fun i hi => (hk.table_ne_zero i hi).symm⟩
  · obtain ⟨hret, hpd, ht⟩ := hk.fresh ha hclear
    exact ⟨a, by rw [h], .inr hret, hpd, ht⟩

/-- A table is looked up without a change if the directory refers to one. -/
theorem tableFor_present (hl : Loaded pd s) (hm : Mapped D n T pd s.mem) (hlt : k < 1024)
    (hpresent : ((s.mem pd).get k).present = true) :
    tableFor s k = some (s, directAddr ((s.mem pd).get k).frame) := by
  have hD := (hm.table_of_present hlt hpresent rfl).1
  have hframe := (hm.bound _ hD).1
  rw [tableFor, readEntry, hl.directory, hl.cr3, hm.translate hm.pd_mem]
  simp only [Option.map_some, Option.bind_eq_bind, Option.bind_some, hpresent, if_true]
  rw [shiftLeft_add_kernelBase (by omega)]
  rfl

/-- The table for a directory entry is there, or it is made in a fresh frame; no page changes. -/
theorem tableFor_spec (hD : ((s.mem pd).get k).present = false → ∀ f, f = 0 ∨ Returnable p₀ f → D f)
    (hl : Loaded pd s) (hm : Mapped D n T pd s.mem) (hk : Kept p₀ n T pd s.pmm) (hlt : k < 1024) :
    ∃ s' t, tableFor s k = some (s', directAddr t) ∧ Loaded pd s' ∧ Mapped D n T pd s'.mem ∧
      Kept p₀ n T pd s'.pmm ∧ ((s'.mem pd).get k).present = true ∧ ((s'.mem pd).get k).frame = t ∧
      ∀ v, pdIdx v = k → translate (.directory pd) s'.mem v = translate (.directory pd) s.mem v := by
  cases hpresent : ((s.mem pd).get k).present with
  | true =>
    exact ⟨s, _, tableFor_present hl hm hlt hpresent, hl, hm, hk, hpresent, rfl, fun _ _ => rfl⟩
  | false =>
    obtain ⟨a, haddr, ha, hpd, ht⟩ := hk.allocFrame
    have hDa := hD hpresent a ha
    have halt := (hm.bound a hDa).1
    -- the entries of the new table do not take part in any translation yet
    have htr {f : ℕ} (hf : D f) (m : Table 1024 Entry) :
        translate s.cr3 (Function.update s.mem a m) (directAddr f) = some f := by
      rw [hl.cr3]
      exact (hm.update_other hpd ht m).translate hf
    have hlink := linkTable_eq (s := { s with pmm := (Mm.allocFrame s.pmm).1 }) (k := k)
      (h := fun _ e => { e with present := false }) (show a < 1048576 by omega) hpd hl.directory
      (htr hDa) (htr hm.pd_mem)
    let filled : Table 1024 Entry := Table.ofFn fun j => { (s.mem a).get j with present := false }
    have hentry := linkMem_entry s.mem a pd hlt filled
    refine ⟨{ s with pmm := (Mm.allocFrame s.pmm).1, mem := linkMem s.mem a pd k filled }, a, ?_,
      ⟨hl.cr3, hl.directory⟩, hm.link hlt hpresent hDa hpd ht filled,
      hk.request (allocFrame_outcome hk.bound), congrArg Entry.present hentry,
      congrArg Entry.frame hentry, fun v hv => ?_⟩
    · rw [tableFor, readEntry, hl.directory, hl.cr3, hm.translate hm.pd_mem]
      simp only [Option.map_some, Option.bind_eq_bind, Option.bind_some, hpresent,
        Bool.false_eq_true, if_false, haddr]
      rw [← hl.directory, ← hl.cr3, hlink]
      rfl
    · -- the page was not mapped, and its entry in the new table is absent
      have hfilled : linkMem s.mem a pd k filled a = filled :=
        (Function.update_of_ne hpd _ _).trans (Function.update_self _ _ _)
      have habsent : (filled.get (ptIdx v)).present = false := by
        rw [Table.get_ofFn _ (ptIdx_lt v)]
      simp only [translate, hv, hentry, hpresent]
      simp [Entry.point, hfilled, habsent]

/-- The page of a virtual address, as a directory and a table index. -/
theorem frameOf_eq_idx (v : Word) : frameOf v = pdIdx v * 1024 + ptIdx v := by
  rw [frameOf_eq, pdIdx_eq, ptIdx_eq]
  omega

/-- Memory after entry `ptIdx v` of the table in frame `t` has been pointed to the frame of `p`. -/
def pageMem (mem : ℕ → Table 1024 Entry) (t : ℕ) (p v : Word) : ℕ → Table 1024 Entry :=
  Function.update mem t
    ((mem t).set (ptIdx v) (Entry.point (frameOf p) ((mem t).get (ptIdx v))))

/-- One page of a window, once its table is there: the page of a frame in `D` has to be mapped to that
frame. -/
theorem mapPage_of_table {s' : Machine} {t : ℕ} {p v : Word}
    (htable : tableFor s (pdIdx v) = some (s', directAddr t)) (hl : Loaded pd s')
    (hm : Mapped D n T pd s'.mem) (hpresent : ((s'.mem pd).get (pdIdx v)).present = true)
    (ht : ((s'.mem pd).get (pdIdx v)).frame = t)
    (hpage : ∀ f, D f → frameOf v = frameOf kernelBase + f → frameOf p = f) :
    mapPage s p v = some { s' with mem := pageMem s'.mem t p v } ∧
      Mapped D n T pd (pageMem s'.mem t p v) := by
  have hbase : frameOf kernelBase = 786432 := by decide
  have htr := hm.translate (hm.table_of_present (pdIdx_lt v) hpresent ht).1
  rw [← hl.cr3] at htr
  constructor
  · rw [mapPage, htable]
    exact editEntry_eq htr
  · refine hm.update_page (pdIdx_lt v) (ptIdx_lt v) hpresent ht fun f hf hpd hpt => hpage f hf ?_
    rw [frameOf_eq_idx v, hbase]
    omega

/-- The pages of one directory entry after one of them has been mapped. -/
theorem translate_pageMem {mem : ℕ → Table 1024 Entry} {t : ℕ} {p v v' : Word} (hne : t ≠ pd)
    (hpresent : ((mem pd).get (pdIdx v)).present = true) (ht : ((mem pd).get (pdIdx v)).frame = t)
    (hv : pdIdx v' = pdIdx v) :
    translate (.directory pd) (pageMem mem t p v) v' =
      if ptIdx v' = ptIdx v then some (frameOf p) else translate (.directory pd) mem v' := by
  have hpd : pageMem mem t p v pd = mem pd := Function.update_of_ne hne.symm _ _
  have htable : pageMem mem t p v t =
      (mem t).set (ptIdx v) (Entry.point (frameOf p) ((mem t).get (ptIdx v))) :=
    Function.update_self _ _ _
  simp only [translate, hpd, hv, hpresent, ht, htable]
  rw [Table.get_set _ (ptIdx_lt v)]
  by_cases hidx : ptIdx v' = ptIdx v
  · simp [hidx, Entry.point]
  · simp [hidx]

/-- One page of a window. -/
theorem mapPage_spec {p v : Word}
    (hD : ((s.mem pd).get (pdIdx v)).present = false → ∀ f, f = 0 ∨ Returnable p₀ f → D f)
    (hl : Loaded pd s) (hm : Mapped D n T pd s.mem) (hk : Kept p₀ n T pd s.pmm)
    (hpage : ∀ f, D f → frameOf v = frameOf kernelBase + f → frameOf p = f) :
    ∃ s', mapPage s p v = some s' ∧ Loaded pd s' ∧ Mapped D n T pd s'.mem ∧
      Kept p₀ n T pd s'.pmm ∧ ((s'.mem pd).get (pdIdx v)).present = true ∧
      ∀ v', pdIdx v' = pdIdx v → translate (.directory pd) s'.mem v' =
        if ptIdx v' = ptIdx v then some (frameOf p) else translate (.directory pd) s.mem v' := by
  obtain ⟨s', t, htable, hl', hm', hk', hpresent, ht, hsame⟩ := tableFor_spec hD hl hm hk (pdIdx_lt v)
  obtain ⟨hmap, hm''⟩ := mapPage_of_table htable hl' hm' hpresent ht hpage
  have hne := (hm'.table_of_present (pdIdx_lt v) hpresent ht).2
  have hpd : pageMem s'.mem t p v pd = s'.mem pd := Function.update_of_ne hne.symm _ _
  refine ⟨_, hmap, ⟨hl'.cr3, hl'.directory⟩, hm'', hk', ?_, fun v' hv' => ?_⟩
  · show ((pageMem s'.mem t p v pd).get (pdIdx v)).present = true
    rwa [hpd]
  · show translate (.directory pd) (pageMem s'.mem t p v) v' = _
    rw [translate_pageMem hne hpresent ht hv', hsame v' hv']

theorem pagingMapMemory_spec (hD : ∀ f, f = 0 ∨ Returnable p₀ f → D f) (hl : Loaded pd s)
    (hm : Mapped D n T pd s.mem) (hk : Kept p₀ n T pd s.pmm) {phys virt size : Word}
    (hwindow : ∀ i < (numPages size).toNat, ∀ f, D f →
      frameOf (virt + BitVec.ofNat 32 i * pageSize) = frameOf kernelBase + f →
        frameOf (phys + BitVec.ofNat 32 i * pageSize) = f) :
    ∃ s', pagingMapMemory s phys virt size = some s' ∧ Loaded pd s' ∧ Mapped D n T pd s'.mem ∧
      Kept p₀ n T pd s'.pmm := by
  -- by induction on the number of pages mapped so far
  have key (c : ℕ) (hc : c ≤ (numPages size).toNat) :
      ∃ s', (List.range c).foldlM (fun s i => mapPage s (phys + BitVec.ofNat 32 i * pageSize)
        (virt + BitVec.ofNat 32 i * pageSize)) s = some s' ∧ Loaded pd s' ∧
        Mapped D n T pd s'.mem ∧ Kept p₀ n T pd s'.pmm := by
    induction c with
    | zero => exact ⟨s, rfl, hl, hm, hk⟩
    | succ c ih =>
      obtain ⟨s₁, hrun, hl₁, hm₁, hk₁⟩ := ih (by omega)
      obtain ⟨s₂, hpage, hl₂, hm₂, hk₂, -⟩ :=
        mapPage_spec (fun _ => hD) hl₁ hm₁ hk₁ (hwindow c (by omega))
      refine ⟨s₂, ?_, hl₂, hm₂, hk₂⟩
      rw [List.range_succ, List.foldlM_append, hrun]
      simp [hpage]
  obtain ⟨s', hrun, hl', hm', hk'⟩ := key _ le_rfl
  have hpd := (hm'.bound pd hm'.pd_mem).1
  have hcr3 : frameOf (s'.kernelDirectory - kernelBase) = pd := by
    rw [hl'.directory, frameOf_directAddr_sub (by omega)]
  refine ⟨{ s' with cr3 := .directory pd }, ?_, ⟨rfl, hl'.directory⟩, hm', hk'⟩
  rw [pagingMapMemory, hrun, ← hcr3]
  rfl

end Windows

end PekerOS.Mm
