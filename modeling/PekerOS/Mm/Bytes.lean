import PekerOS.Mm.UserPages

/-!
# The bytes of memory

An entry of a table is a word of memory, so the table that each frame would be gives all its bytes. Loads
and stores go through the page tables. A store into a frame that is no page table changes no page, and the
user pages have frames of their own, so a store into one is seen at its own address only.

## Main definitions

* `Entry.word`, `Entry.ofWord`: an entry as the word it is
* `byteAt`, `setByteAt`: the bytes of a frame
* `Machine.readByte`, `Machine.writeByte`, `memcpy`, `memset`: memory by virtual addresses
* `Written pd s s' A`: only what the addresses `A` lead to has changed
* `KernelOwned pd s v`: the address leads to a frame that is no page table and that no user page has

## Main results

* `Sound.writeByte`: a store changes no page
* `fill_written`, `fill_runs`: what the loops of `memcpy` and `memset` change, and that they end
-/

namespace PekerOS.Mm

/-! ## Words -/

/-- The fields from the most significant bit down. -/
def Entry.word (e : Entry) : Word :=
  BitVec.ofNat 20 e.frame ++
    (e.rest ++ (BitVec.ofBool e.user ++ (BitVec.ofBool e.rw ++ BitVec.ofBool e.present)))

def Entry.ofWord (w : Word) : Entry where
  present := w.getLsbD 0
  rw := w.getLsbD 1
  user := w.getLsbD 2
  rest := w.extractLsb' 3 9
  frame := (w >>> 12).toNat

/-- Byte `off` of a frame. -/
def byteAt (m : Table 1024 Entry) (off : ℕ) : Byte := wordByte (m.get (off / 4)).word (off % 4)

def setByteAt (m : Table 1024 Entry) (off : ℕ) (b : Byte) : Table 1024 Entry :=
  m.set (off / 4)
    (.ofWord (wordOfBytes (Function.update (wordByte (m.get (off / 4)).word) (off % 4) b)))

section Word

variable {b : Byte} {off : ℕ} {m : Table 1024 Entry}

theorem word_ofWord (w : Word) : (Entry.ofWord w).word = w := by
  apply BitVec.eq_of_getLsbD_eq
  intro i hi
  simp only [Entry.word, Entry.ofWord, BitVec.getLsbD_append, BitVec.getLsbD_ofBool,
    BitVec.getLsbD_extractLsb', BitVec.ofNat_toNat, BitVec.getLsbD_setWidth, BitVec.getLsbD_ushiftRight]
  by_cases h12 : i < 12
  · by_cases h3 : i < 3
    · interval_cases i <;> simp
    · rw [if_pos (by omega), if_neg (by omega), decide_eq_true (by omega), Bool.true_and]
      congr 1
      omega
  · rw [if_neg (by omega), decide_eq_true (by omega), Bool.true_and]
    congr 1
    omega

theorem wordByte_wordOfBytes {f : ℕ → Byte} {k : ℕ} (hk : k < 4) : wordByte (wordOfBytes f) k = f k := by
  apply BitVec.eq_of_getLsbD_eq
  intro i hi
  simp only [wordByte, wordOfBytes, BitVec.getLsbD_extractLsb', BitVec.getLsbD_append]
  rw [decide_eq_true hi, Bool.true_and]
  interval_cases k
  · rw [if_pos (by omega), Nat.mul_zero, Nat.zero_add]
  · rw [if_neg (by omega), if_pos (by omega)]
    congr 1
    omega
  · rw [if_neg (by omega), if_neg (by omega), if_pos (by omega)]
    congr 1
    omega
  · rw [if_neg (by omega), if_neg (by omega), if_neg (by omega)]
    congr 1
    omega

theorem byteAt_setByteAt_self (hoff : off < 4096) : byteAt (setByteAt m off b) off = b := by
  rw [byteAt, setByteAt, Table.get_set_self _ (by omega), word_ofWord,
    wordByte_wordOfBytes (Nat.mod_lt _ (by decide)), Function.update_self]

theorem byteAt_setByteAt_ne {off' : ℕ} (hoff : off < 4096) (hne : off' ≠ off) :
    byteAt (setByteAt m off b) off' = byteAt m off' := by
  rw [byteAt, setByteAt, byteAt]
  by_cases hword : off' / 4 = off / 4
  · rw [hword, Table.get_set_self _ (by omega), word_ofWord,
      wordByte_wordOfBytes (Nat.mod_lt _ (by decide)), Function.update_of_ne (by omega)]
  · rw [Table.get_set_ne _ hword]

end Word

/-! ## Loads and stores -/

/-- A load of a byte; `none` on a page fault. -/
def Machine.readByte (s : Machine) (v : Word) : Option Byte :=
  (translate s.cr3 s.mem v).map fun f => byteAt (s.mem f) (v.toNat % 4096)

/-- A store of a byte. -/
def Machine.writeByte (s : Machine) (v : Word) (b : Byte) : Option Machine :=
  (translate s.cr3 s.mem v).map fun f =>
    { s with mem := Function.update s.mem f (setByteAt (s.mem f) (v.toNat % 4096) b) }

/-- A load of `n` bytes. -/
def Machine.readBytes (s : Machine) (v : Word) (n : ℕ) : Option (List Byte) :=
  (List.range n).mapM fun i => s.readByte (v + BitVec.ofNat 32 i)

/-- A load of an `unsigned int`. -/
def Machine.readWord (s : Machine) (v : Word) : Option Word :=
  (s.readBytes v 4).map fun bs => wordOfBytes fun i => bs.getD i 0#8

/-- A load of an `unsigned short`. -/
def Machine.readHalf (s : Machine) (v : Word) : Option (BitVec 16) :=
  (s.readBytes v 2).map fun bs => bs.getD 1 0#8 ++ bs.getD 0 0#8

/-- A loop that stores byte `i` at `dest + i`, for `n` bytes. -/
def fill (next : Machine → ℕ → Option Byte) (dest : Word) (s : Machine) (n : ℕ) : Option Machine :=
  (List.range n).foldlM (fun s i => (next s i).bind fun b => s.writeByte (dest + BitVec.ofNat 32 i) b) s

/-- `memcpy` -/
def memcpy (s : Machine) (dest src n : Word) : Option Machine :=
  fill (fun s i => s.readByte (src + BitVec.ofNat 32 i)) dest s n.toNat

/-- `memset` -/
def memset (s : Machine) (p : Word) (c : Byte) (n : Word) : Option Machine :=
  fill (fun _ _ => some c) p s n.toNat

/-- The stores of a function that puts the given bytes into a buffer. -/
def storeBytes (s : Machine) (buffer : Word) (bytes : List Byte) : Option Machine :=
  fill (fun _ i => bytes[i]?) buffer s bytes.length

/-! ## What stores change -/

/-- The addresses of a loop. -/
def addresses (dest : Word) (n : ℕ) : Set Word := {v | ∃ i < n, v = dest + BitVec.ofNat 32 i}

/-- The address leads to a frame that is no page table. -/
def Plain (pd : ℕ) (s : Machine) (v : Word) : Prop :=
  ∃ f, translate s.cr3 s.mem v = some f ∧ ¬TableFrame pd s.mem f

/-- Two addresses lead to one byte of memory. -/
def SameByte (s : Machine) (v w : Word) : Prop :=
  ∃ f, translate s.cr3 s.mem v = some f ∧ translate s.cr3 s.mem w = some f ∧
    v.toNat % 4096 = w.toNat % 4096

/-- Bytes have been stored at addresses of `A`, and not into page tables: no page has changed, and no other
byte. -/
structure Written (pd : ℕ) (s s' : Machine) (A : Set Word) : Prop where
  sound : Sound pd s'
  pmm : s'.pmm = s.pmm
  table : ∀ g, TableFrame pd s.mem g → s'.mem g = s.mem g
  content : ∀ g, (∀ v ∈ A, translate s.cr3 s.mem v ≠ some g) → s'.mem g = s.mem g
  translate : ∀ v, translate s'.cr3 s'.mem v = translate s.cr3 s.mem v
  other : ∀ w, (∀ v ∈ A, ¬SameByte s v w) → s'.readByte w = s.readByte w

section Stores

variable {pd : ℕ} {s s' s'' : Machine} {v w : Word} {f : ℕ} {b : Byte} {A A' : Set Word}

/-- Translations depend on the page tables only. -/
theorem translate_of_tables {m : ℕ → Table 1024 Entry} (h : PageTables pd s)
    (hm : ∀ g, TableFrame pd s.mem g → m g = s.mem g) (v : Word) :
    translate s.cr3 m v = translate s.cr3 s.mem v := by
  rw [h.loaded.cr3, translate_eq_lookup, translate_eq_lookup, lookup_congr (by rw [hm pd (.inl rfl)])]
  exact fun hpresent => by rw [hm _ (tableFrame_entry hpresent)]

/-- What is in the frames that are no page tables does not matter. -/
theorem Sound.of_tables {m : ℕ → Table 1024 Entry} (h : Sound pd s)
    (hm : ∀ g, TableFrame pd s.mem g → m g = s.mem g) : Sound pd { s with mem := m } := by
  -- the tables are the same, so every address is translated as before
  have htr := translate_of_tables h.tables hm
  have hpd : m pd = s.mem pd := hm pd (.inl rfl)
  have htable (g : ℕ) : TableFrame pd m g ↔ TableFrame pd s.mem g := by rw [TableFrame, TableFrame, hpd]
  refine ⟨⟨⟨h.tables.loaded.cr3, h.tables.loaded.directory⟩,
    fun g hg => h.tables.frame_lt g ((htable g).mp hg),
    fun g hg => h.tables.held g ((htable g).mp hg), ?_, ?_, fun g hg => ?_⟩,
    fun g hg => h.table_lt g ((htable g).mp hg), fun g hg => ?_, h.zero, fun v g hv hg => ?_,
    fun v v' g hv hv' hg hg' => ?_⟩
  · dsimp only
    rw [hpd]
    exact h.tables.ne
  · dsimp only
    rw [hpd]
    exact h.tables.inj
  · dsimp only
    rw [htr]
    exact h.tables.reach g ((htable g).mp hg)
  · dsimp only
    rw [htr]
    exact h.direct g hg
  · dsimp only at hg ⊢
    rw [htr] at hg
    obtain ⟨hheld, hnot⟩ := h.user v g hv hg
    exact ⟨hheld, fun hg' => hnot ((htable g).mp hg')⟩
  · dsimp only at hg hg'
    rw [htr] at hg hg'
    exact h.user_inj v v' g hv hv' hg hg'

theorem Written.refl (h : Sound pd s) : Written pd s s A :=
  ⟨h, rfl, fun _ _ => rfl, fun _ _ => rfl, fun _ => rfl, fun _ _ => rfl⟩

theorem Written.trans (h : Written pd s s' A) (h' : Written pd s' s'' A') : Written pd s s'' (A ∪ A') := by
  refine ⟨h'.sound, h'.pmm.trans h.pmm, fun g hg => ?_, fun g hg => ?_,
    fun v => (h'.translate v).trans (h.translate v), fun w hw => ?_⟩
  · have hg' : TableFrame pd s'.mem g := by
      rw [TableFrame, h.table pd (.inl rfl)]
      exact hg
    rw [h'.table g hg', h.table g hg]
  · rw [h'.content g fun v hv => ?_, h.content g fun v hv => hg v (.inl hv)]
    rw [h.translate]
    exact hg v (.inr hv)
  · rw [h'.other w fun v hv => ?_, h.other w fun v hv => hw v (.inl hv)]
    rintro ⟨f, hf, hf', heq⟩
    rw [h.translate] at hf hf'
    exact hw v (.inr hv) ⟨f, hf, hf', heq⟩

theorem Written.mono (h : Written pd s s' A) (hA : A ⊆ A') : Written pd s s' A' :=
  ⟨h.sound, h.pmm, h.table, fun g hg => h.content g fun v hv => hg v (hA hv), h.translate,
    fun w hw => h.other w fun v hv => hw v (hA hv)⟩

theorem Written.plain (h : Written pd s s' A) : Plain pd s' v ↔ Plain pd s v := by
  simp only [Plain, h.translate, TableFrame, h.table pd (.inl rfl)]

/-- The frames that mapping pages takes are as many as before. -/
theorem Written.needed (h : Written pd s s' A) (vs : List Word) : needed pd s' vs = needed pd s vs := by
  rw [Mm.needed, Mm.needed, missingTables, missingTables, h.table pd (.inl rfl)]

/-- **A store** changes no page. -/
theorem Sound.writeByte (h : Sound pd s) (hv : Plain pd s v) (b : Byte) :
    ∃ s', s.writeByte v b = some s' ∧ Written pd s s' {v} ∧ s'.readByte v = some b := by
  obtain ⟨f, hf, hplain⟩ := hv
  have hm (g : ℕ) (hg : TableFrame pd s.mem g) :
      Function.update s.mem f (setByteAt (s.mem f) (v.toNat % 4096) b) g = s.mem g := by
    refine Function.update_of_ne ?_ _ _
    rintro rfl
    exact hplain hg
  have htr := translate_of_tables h.tables hm
  have hoff : v.toNat % 4096 < 4096 := Nat.mod_lt _ (by decide)
  refine ⟨_, by rw [Machine.writeByte, hf, Option.map_some], ⟨h.of_tables hm, rfl, hm, fun g hg => ?_,
    htr, fun w hw => ?_⟩, ?_⟩
  · -- a frame that no address of `{v}` leads to
    refine Function.update_of_ne ?_ _ _
    rintro rfl
    exact hg v rfl hf
  · rw [Machine.readByte, Machine.readByte]
    dsimp only
    rw [htr]
    cases hw' : Mm.translate s.cr3 s.mem w with
    | none => rfl
    | some g =>
      rw [Option.map_some, Option.map_some, Option.some_inj]
      by_cases hgf : g = f
      · -- another byte of the frame
        subst hgf
        rw [Function.update_self]
        exact byteAt_setByteAt_ne hoff fun heq => hw v rfl ⟨g, hf, hw', heq.symm⟩
      · -- a byte of another frame
        rw [Function.update_of_ne hgf]
  · rw [Machine.readByte]
    dsimp only
    rw [htr, hf, Option.map_some, Function.update_self, byteAt_setByteAt_self hoff]

/-- User pages have frames of their own, so two user addresses lead to one byte only if they are equal. -/
theorem Sound.eq_of_sameByte (h : Sound pd s) (hv : v < kernelBase) (hw : w < kernelBase)
    (hsame : SameByte s v w) : v = w := by
  obtain ⟨f, hf, hf', hoff⟩ := hsame
  have hpage := h.user_inj v w f hv hw hf hf'
  rw [frameOf_eq, frameOf_eq] at hpage
  exact BitVec.eq_of_toNat_eq (by omega)

theorem Sound.plain_user (h : Sound pd s) (hv : v < kernelBase) (hf : Mm.translate s.cr3 s.mem v = some f) :
    ¬TableFrame pd s.mem f := (h.user v f hv hf).2

end Stores

/-! ## Loops -/

section Fill

variable {pd n : ℕ} {s s' : Machine} {dest v : Word} {k : Machine → ℕ → Option Byte} {f : ℕ → Byte}

theorem fill_succ (k : Machine → ℕ → Option Byte) (dest : Word) (s : Machine) (n : ℕ) :
    fill k dest s (n + 1) = (fill k dest s n).bind fun s =>
      (k s n).bind fun b => s.writeByte (dest + BitVec.ofNat 32 n) b := by
  rw [fill, List.range_succ, List.foldlM_append]
  simp [fill]

theorem addresses_succ (dest : Word) (n : ℕ) :
    addresses dest (n + 1) = addresses dest n ∪ {dest + BitVec.ofNat 32 n} := by
  ext v
  constructor
  · rintro ⟨i, hi, rfl⟩
    rcases Nat.lt_succ_iff_lt_or_eq.mp hi with hlt | rfl
    · exact .inl ⟨i, hlt, rfl⟩
    · exact .inr rfl
  · rintro (⟨i, hi, rfl⟩ | rfl)
    · exact ⟨i, Nat.lt_succ_of_lt hi, rfl⟩
    · exact ⟨n, Nat.lt_succ_self n, rfl⟩

/-- **A loop that ends** has changed what its addresses lead to. -/
theorem fill_written (h : Sound pd s)
    (hplain : ∀ i < n, ∀ g, translate s.cr3 s.mem (dest + BitVec.ofNat 32 i) = some g →
      ¬TableFrame pd s.mem g)
    (hrun : fill k dest s n = some s') :
    Written pd s s' (addresses dest n) ∧ ∀ i < n, Plain pd s (dest + BitVec.ofNat 32 i) := by
  induction n generalizing s' with
  | zero =>
    obtain rfl := Option.some.inj hrun
    exact ⟨.refl h, fun i hi => absurd hi (Nat.not_lt_zero i)⟩
  | succ n ih =>
    rw [fill_succ] at hrun
    obtain ⟨s₁, hrun₁, hlast⟩ := Option.bind_eq_some_iff.mp hrun
    obtain ⟨b, -, hwrite⟩ := Option.bind_eq_some_iff.mp hlast
    obtain ⟨hwritten, hmapped⟩ := ih (fun i hi => hplain i (by omega)) hrun₁
    obtain ⟨g, hg, -⟩ := Option.map_eq_some_iff.mp hwrite
    rw [hwritten.translate] at hg
    have hn : Plain pd s (dest + BitVec.ofNat 32 n) := ⟨g, hg, hplain n (Nat.lt_succ_self n) g hg⟩
    obtain ⟨s₂, hs₂, hstep, -⟩ := hwritten.sound.writeByte (hwritten.plain.mpr hn) b
    obtain rfl := Option.some.inj (hs₂.symm.trans hwrite)
    refine ⟨addresses_succ dest n ▸ hwritten.trans hstep, fun i hi => ?_⟩
    rcases Nat.lt_succ_iff_lt_or_eq.mp hi with hlt | rfl
    · exact hmapped i hlt
    · exact hn

/-- **A loop ends** if its addresses lead to bytes of their own and it knows what to store; then they hold
it. -/
theorem fill_runs (h : Sound pd s) (hplain : ∀ i < n, Plain pd s (dest + BitVec.ofNat 32 i))
    (hsep : ∀ i < n, ∀ j < i, ¬SameByte s (dest + BitVec.ofNat 32 i) (dest + BitVec.ofNat 32 j))
    (hnext : ∀ i < n, ∀ s₁, Written pd s s₁ (addresses dest i) → k s₁ i = some (f i)) :
    ∃ s', fill k dest s n = some s' ∧ Written pd s s' (addresses dest n) ∧
      ∀ i < n, s'.readByte (dest + BitVec.ofNat 32 i) = some (f i) := by
  induction n with
  | zero => exact ⟨s, rfl, .refl h, fun i hi => absurd hi (Nat.not_lt_zero i)⟩
  | succ n ih =>
    obtain ⟨s₁, hrun, hwritten, hread⟩ := ih (fun i hi => hplain i (by omega))
      (fun i hi => hsep i (by omega)) fun i hi => hnext i (by omega)
    obtain ⟨s₂, hs₂, hstep, hself⟩ := hwritten.sound.writeByte
      (hwritten.plain.mpr (hplain n (Nat.lt_succ_self n))) (f n)
    refine ⟨s₂, ?_, addresses_succ dest n ▸ hwritten.trans hstep, fun i hi => ?_⟩
    · rw [fill_succ, hrun, Option.bind_some, hnext n (Nat.lt_succ_self n) s₁ hwritten, Option.bind_some,
        hs₂]
    · rcases Nat.lt_succ_iff_lt_or_eq.mp hi with hlt | rfl
      · -- the last store is to another byte
        rw [hstep.other _ fun v hv => ?_, hread i hlt]
        obtain rfl := hv
        rintro ⟨g, hg, hg', hoff⟩
        rw [hwritten.translate] at hg hg'
        exact hsep n (Nat.lt_succ_self n) i hlt ⟨g, hg, hg', hoff⟩
      · exact hself

/-- The addresses of a loop below the higher half. -/
theorem toNat_add_ofNat {i : ℕ} (hend : dest.toNat + n ≤ 2 ^ 32) (hi : i < n) :
    (dest + BitVec.ofNat 32 i).toNat = dest.toNat + i := by
  rw [BitVec.toNat_add, BitVec.toNat_ofNat]
  omega

theorem user_of_range {i : ℕ} (hend : dest.toNat + n ≤ kernelBase.toNat) (hi : i < n) :
    dest + BitVec.ofNat 32 i < kernelBase := by
  have hbase : kernelBase.toNat = 3221225472 := rfl
  rw [BitVec.lt_def, toNat_add_ofNat (by omega) hi]
  omega

/-- A loop over user addresses that ends. -/
theorem Sound.fill_user (h : Sound pd s) (hend : dest.toNat + n ≤ kernelBase.toNat)
    (hrun : fill k dest s n = some s') :
    Written pd s s' (addresses dest n) ∧ ∀ i < n, Plain pd s (dest + BitVec.ofNat 32 i) :=
  fill_written h (fun _ hi _ => h.plain_user (user_of_range hend hi)) hrun

/-- A loop over user addresses that are mapped. -/
theorem Sound.fill_user_runs (h : Sound pd s) (hend : dest.toNat + n ≤ kernelBase.toNat)
    (hplain : ∀ i < n, Plain pd s (dest + BitVec.ofNat 32 i))
    (hnext : ∀ i < n, ∀ s₁, Written pd s s₁ (addresses dest i) → k s₁ i = some (f i)) :
    ∃ s', fill k dest s n = some s' ∧ Written pd s s' (addresses dest n) ∧
      ∀ i < n, s'.readByte (dest + BitVec.ofNat 32 i) = some (f i) := by
  have hbase : kernelBase.toNat = 3221225472 := rfl
  refine fill_runs h hplain (fun i hi j hj hsame => ?_) hnext
  have heq := congrArg BitVec.toNat
    (h.eq_of_sameByte (user_of_range hend hi) (user_of_range hend (hj.trans hi)) hsame)
  rw [toNat_add_ofNat (by omega) hi, toNat_add_ofNat (by omega) (hj.trans hi)] at heq
  omega

/-- Other user addresses keep their bytes. -/
theorem Written.user {A : Set Word} (hw : Written pd s s' A) (h : Sound pd s) (hA : ∀ u ∈ A, u < kernelBase)
    (hv : v < kernelBase) (hnot : v ∉ A) : s'.readByte v = s.readByte v := by
  refine hw.other v fun u hu hsame => hnot ?_
  rwa [← h.eq_of_sameByte (hA u hu) hv hsame]

end Fill

/-! ## Memory of the kernel -/

/-- The address leads to a frame that is taken, that is no page table, and that no user page has. -/
def KernelOwned (pd : ℕ) (s : Machine) (v : Word) : Prop :=
  ∃ g, translate s.cr3 s.mem v = some g ∧ bitmapTest s.pmm.frameBitmap g = true ∧
    ¬TableFrame pd s.mem g ∧ ∀ u < kernelBase, translate s.cr3 s.mem u ≠ some g

/-- The memory of the kernel is left alone. -/
def Keeps (pd : ℕ) (s s' : Machine) : Prop :=
  ∀ v, KernelOwned pd s v → KernelOwned pd s' v ∧ s'.readByte v = s.readByte v

section Kernel

variable {pd n : ℕ} {s s' s'' : Machine} {v : Word} {A : Set Word} {vs : List Word}

theorem Keeps.refl (pd : ℕ) (s : Machine) : Keeps pd s s := fun _ hv => ⟨hv, rfl⟩

theorem Keeps.trans (h : Keeps pd s s') (h' : Keeps pd s' s'') : Keeps pd s s'' := by
  intro v hv
  obtain ⟨hv', hread⟩ := h v hv
  obtain ⟨hv'', hread'⟩ := h' v hv'
  exact ⟨hv'', hread'.trans hread⟩

/-- Mapping user pages leaves it alone. -/
theorem FramesMapped.keeps (h : FramesMapped pd s s' vs) (hvs : ∀ w ∈ vs, w < kernelBase) :
    Keeps pd s s' := by
  rintro v ⟨g, hg, hheld, hnot, huser⟩
  have hbase : kernelBase.toNat = 3221225472 := rfl
  have hhigh : ¬v < kernelBase := fun hv => huser v hv hg
  have hsame : translate s'.cr3 s'.mem v = translate s.cr3 s.mem v := by
    refine h.other v fun w hw heq => ?_
    have hlow := hvs w hw
    rw [BitVec.lt_def] at hlow hhigh
    rw [frameOf_eq, frameOf_eq] at heq
    omega
  have hnot' : ¬TableFrame pd s'.mem g := by
    intro hg'
    rcases h.table g hg' with hold | hret
    · exact hnot hold
    · exact returnable_ne hret hheld rfl
  refine ⟨⟨g, hsame.trans hg, h.held g hheld, hnot', fun u hu heq => ?_⟩, ?_⟩
  · by_cases hpage : ∃ w ∈ vs, frameOf w = frameOf u
    · obtain ⟨f, hf, hframe⟩ := h.page u hpage
      obtain rfl := Option.some.inj (heq.symm.trans hframe)
      exact returnable_ne hf hheld rfl
    · rw [h.other u fun w hw heq => hpage ⟨w, hw, heq⟩] at heq
      exact huser u hu heq
  · rw [Machine.readByte, Machine.readByte, hsame, hg, Option.map_some, Option.map_some, h.content g hnot']

/-- Stores do not change whose memory it is. -/
theorem Written.kernelOwned (h : Written pd s s' A) (hv : KernelOwned pd s v) : KernelOwned pd s' v := by
  obtain ⟨g, hg, hheld, hnot, huser⟩ := hv
  refine ⟨g, (h.translate v).trans hg, h.pmm ▸ hheld, ?_, fun u hu => ?_⟩
  · rwa [TableFrame, h.table pd (.inl rfl)]
  · rw [h.translate]
    exact huser u hu

/-- Stores into user pages leave it alone. -/
theorem Written.keeps (h : Written pd s s' A) (hA : ∀ u ∈ A, u < kernelBase) : Keeps pd s s' := by
  intro v hv
  refine ⟨h.kernelOwned hv, h.other v ?_⟩
  obtain ⟨g, hg, -, -, huser⟩ := hv
  rintro u hu ⟨f, hf, hf', -⟩
  obtain rfl := Option.some.inj (hg.symm.trans hf')
  exact huser u (hA u hu) hf

theorem mapM_congr {α β : Type} {g g' : α → Option β} {l : List α} (h : ∀ a ∈ l, g a = g' a) :
    l.mapM g = l.mapM g' := by
  induction l with
  | nil => rfl
  | cons a l ih =>
    rw [List.mapM_cons, List.mapM_cons, h a List.mem_cons_self,
      ih fun b hb => h b (List.mem_cons_of_mem a hb)]

theorem Keeps.readBytes (h : Keeps pd s s') (hv : ∀ i < n, KernelOwned pd s (v + BitVec.ofNat 32 i)) :
    s'.readBytes v n = s.readBytes v n :=
  mapM_congr fun i hi => (h _ (hv i (List.mem_range.mp hi))).2

theorem Keeps.readWord (h : Keeps pd s s') (hv : ∀ i < 4, KernelOwned pd s (v + BitVec.ofNat 32 i)) :
    s'.readWord v = s.readWord v := by
  rw [Machine.readWord, Machine.readWord, h.readBytes hv]

theorem Keeps.readHalf (h : Keeps pd s s') (hv : ∀ i < 2, KernelOwned pd s (v + BitVec.ofNat 32 i)) :
    s'.readHalf v = s.readHalf v := by
  rw [Machine.readHalf, Machine.readHalf, h.readBytes hv]

/-- The bytes that are read, one after the other. -/
theorem readBytes_eq {f : ℕ → Byte} (h : ∀ i < n, s.readByte (v + BitVec.ofNat 32 i) = some (f i)) :
    s.readBytes v n = some ((List.range n).map f) := by
  rw [Machine.readBytes, @mapM_congr _ _ _ (fun i => some (f i)) _ fun i hi => h i (List.mem_range.mp hi)]
  exact List.mapM_pure

end Kernel

end PekerOS.Mm
