import PekerOS.Drivers.E1000

/-!
# What the windows of the E1000 refer to

The pages of each window lead to the frames of the window that was mapped over them last. So two of the
receive slots are on the page of the transmit descriptors, a quarter of them is on the pages of the
transmit buffers once these are mapped, and half of the transmit slots are on pages that the driver does
not map.

## Main definitions

* `TablesApart`: the page tables lie outside the windows
* `RxAgrees`, `TxAgrees`: a byte of a slot is where the descriptor of the slot says
* `Windows`: the invariant of the driver

## Main results

* `initE1000_windows`, `Windows.step`: the invariant holds and is kept
* `windows_translate`: which slots agree with their descriptors, in every state
-/

namespace PekerOS.Drivers.E1000

open Mm

/-- The kernel reaches its page tables through direct pages outside the windows, and the first
megabyte is reserved. -/
def TablesApart (m : Machine) : Prop :=
  (∃ D n T pd, Region D n T pd 832 m ∧ ∀ f, D f → f < 65552 ∨ 65664 ≤ f) ∧
    ∀ f < 256, Bitmap.test m.pmm.frameBitmap f = true

/-- Byte `k` of receive slot `i` is where the descriptor says. -/
def RxAgrees (s : State) (i k : ℕ) : Prop :=
  physOf s.machine (rxBuffersVirt + BitVec.ofNat 32 (i * 2048 + k)) =
    some ((s.rxDescs.get i).addr.toNat + k)

/-- Byte `k` of a transmit slot is where the driver tells the card to find it. -/
def TxAgrees (s : State) (slot k : ℕ) : Prop :=
  physOf s.machine (txBuffersVirt + BitVec.ofNat 32 (slot * 2048 + k)) = some ((txAddr s slot).toNat + k)

/-- The frame that page `j` of the directory entry leads to after `init_e1000`, for the pages from the
receive buffers on and that of the receive descriptors; `before` is the one it led to before. -/
def initFrame (s : State) (before : Option ℕ) (j : ℕ) : Option ℕ :=
  if j = 64 then some (frameOf s.txDescsPhys)
  else if 48 ≤ j ∧ j < 112 then some (frameOf s.rxBuffersPhys + (j - 48))
  else if j = 32 then some (frameOf s.rxDescsPhys)
  else before

/-- The same at any time. -/
def pageFrame (s : State) (before : Option ℕ) (j : ℕ) : Option ℕ :=
  if s.txBuffers ≠ 0#32 ∧ 96 ≤ j ∧ j < 128 then some (frameOf s.txBuffersPhys + (j - 96))
  else initFrame s before j

theorem pageFrame_of_null {s : State} {before : Option ℕ} {j : ℕ} (h : s.txBuffers = 0#32) :
    pageFrame s before j = initFrame s before j := if_neg fun htx => htx.1 h

/-- The invariant, for a driver that was initialised on the machine `m`. -/
structure Windows (D : ℕ → Prop) (n : ℕ) (T : ℕ → ℕ) (pd : ℕ) (m : Machine) (s : State) : Prop where
  region : Region D n T pd 832 s.machine
  low : ∀ f < 256, Bitmap.test s.machine.pmm.frameBitmap f = true
  pages : ∀ v, pdIdx v = 832 → 48 ≤ ptIdx v ∨ ptIdx v = 32 →
    translate s.machine.cr3 s.machine.mem v = pageFrame s (translate m.cr3 m.mem v) (ptIdx v)
  rxDescs : Aligned s.rxDescsPhys 1
  txDescs : Aligned s.txDescsPhys 1
  rxBuffers : Aligned s.rxBuffersPhys 64
  rxMarked : ∀ j < 64, frameOf s.rxBuffersPhys = 0 ∨
    Bitmap.test s.machine.pmm.frameBitmap (frameOf s.rxBuffersPhys + j) = true
  txDescs_ne : frameOf s.txDescsPhys ≠ frameOf s.rxBuffersPhys + 16
  txBuffers : s.txBuffers = 0#32 ∨ s.txBuffers = txBuffersVirt ∧ Aligned s.txBuffersPhys 64 ∧
    frameOf s.txBuffersPhys ≠ frameOf s.rxBuffersPhys + 48
  rxAddr : ∀ i < 128, (s.rxDescs.get i).addr = (s.rxBuffersPhys + BitVec.ofNat 32 (i * 2048)).setWidth 64
  txCur : s.txCur < 128
  used : ∀ slot ∈ s.used, s.txBuffers ≠ 0#32 ∧
    (s.txDescs.get slot).addr = (txAddr s slot).setWidth 64

section Mapping

variable {D : ℕ → Prop} {n pd : ℕ} {T : ℕ → ℕ} {m : Machine}

/-- A window of the driver: fresh frames, and its pages lead to them. -/
theorem mapFrames_spec (count virt size : Word) (h : Region D n T pd 832 m)
    (hD : ∀ f, D f → f < 65552 ∨ 65664 ≤ f)
    (hcount : count.toNat ≤ 1048576) (hv : pdIdx virt = 832) (hlo : 16 ≤ ptIdx virt)
    (hhi : ptIdx virt + (numPages size).toNat ≤ 128) :
    ∃ m' phys, mapFrames m count virt size = some (m', phys) ∧ Region D n T pd 832 m' ∧
      Kept m.pmm n T pd m'.pmm ∧ Block m.pmm m'.pmm phys count.toNat ∧
      ∀ v, pdIdx v = 832 → translate m'.cr3 m'.mem v =
        if ptIdx virt ≤ ptIdx v ∧ ptIdx v < ptIdx virt + (numPages size).toNat then
          some (frameOf (phys + BitVec.ofNat 32 (ptIdx v - ptIdx virt) * pageSize))
        else translate m.cr3 m.mem v := by
  obtain ⟨hkept, hblock⟩ := h.kept.block hcount
  obtain ⟨m', hmap, h', hk', htr⟩ := (h.withPmm hkept).window (allocContiguousFrames m.pmm count).2
    virt size hv (by omega) fun f hf i hi => by have := hD f hf; omega
  refine ⟨m', _, ?_, h', hkept.trans hk',
    ⟨hblock.toAligned, hblock.clear, fun j hj => (hblock.marked j hj).imp_right (hk'.mono _)⟩,
    htr⟩
  rw [mapFrames]
  dsimp only
  rw [hmap]
  rfl

/-- What `init_e1000` leaves. -/
theorem initE1000_windows (h : Region D n T pd 832 m) (hD : ∀ f, D f → f < 65552 ∨ 65664 ≤ f)
    (hlow : ∀ f < 256, Bitmap.test m.pmm.frameBitmap f = true) (rx : Table 128 RxDesc)
    (tx : Table 128 TxDesc) (physAddr : Word) :
    ∃ s, initE1000 m rx tx physAddr = some s ∧ Windows D n T pd m s ∧ s.txCur = 0 := by
  have hmmio : (numPages (128#32 * 1024#32)).toNat = 32 := by decide
  have hone : (numPages 4096#32).toNat = 1 := by decide
  have hrx : (numPages (128#32 * 2048#32)).toNat = 64 := by decide
  have hpt₁ : ptIdx mmioBaseVirt = 16 := by decide
  have hpt₂ : ptIdx rxDescsVirt = 32 := by decide
  have hpt₃ : ptIdx rxBuffersVirt = 48 := by decide
  have hpt₄ : ptIdx txDescsVirt = 64 := by decide
  -- the registers, the descriptors and the buffers, each in a window of its own
  obtain ⟨m₁, hmap₁, h₁, hk₁, htr₁⟩ := h.window physAddr mmioBaseVirt
    (128#32 * 1024#32) (by decide) (by omega) fun f hf i hi => by have := hD f hf; omega
  obtain ⟨m₂, rxDescsPhys, hmap₂, h₂, hk₂, hb₂, htr₂⟩ := mapFrames_spec 1#32 rxDescsVirt
    4096#32 h₁ hD (by decide) (by decide) (by omega) (by omega)
  obtain ⟨m₃, rxBuffersPhys, hmap₃, h₃, hk₃, hb₃, htr₃⟩ := mapFrames_spec
    (128#32 * 2048#32 / 4096#32) rxBuffersVirt (128#32 * 2048#32) h₂ hD (by decide) (by decide)
    (by omega) (by omega)
  obtain ⟨m₄, txDescsPhys, hmap₄, h₄, hk₄, hb₄, htr₄⟩ := mapFrames_spec 1#32 txDescsVirt
    4096#32 h₃ hD (by decide) (by decide) (by omega) (by omega)
  have hcount : (128#32 * 2048#32 / 4096#32).toNat = 64 := by decide
  rw [hcount] at hb₃
  refine ⟨_, by
    rw [initE1000, hmap₁]
    simp only [Option.bind_eq_bind, Option.bind_some, hmap₂, hmap₃, hmap₄]
    rfl, ?_, rfl⟩
  -- the first megabyte stays reserved
  have hlow₃ (f : ℕ) (hf : f < 256) : Bitmap.test m₃.pmm.frameBitmap f = true :=
    hk₃.mono f (hk₂.mono f (hk₁.mono f (hlow f hf)))
  refine ⟨h₄, fun f hf => hk₄.mono f (hlow₃ f hf), fun v hv hj => ?_, hb₂.toAligned, hb₄.toAligned,
    hb₃.toAligned, fun j hj => (hb₃.marked j hj).imp_right (hk₄.mono _), ?_, .inl rfl, fun i hi => ?_,
    Nat.zero_lt_succ 127, fun slot hslot => absurd hslot List.not_mem_nil⟩
  · rw [htr₄ v hv, htr₃ v hv, htr₂ v hv, htr₁ v hv, hmmio, hone, hrx, hpt₁, hpt₂, hpt₃, hpt₄,
      pageFrame_of_null rfl, initFrame]
    -- the windows that were mapped later win where they overlap
    by_cases h64 : ptIdx v = 64
    · rw [if_pos (by omega), if_pos h64, h64, Nat.sub_self, frameOf_add_page hb₄.toAligned one_pos]
      rfl
    · rw [if_neg (by omega), if_neg h64]
      by_cases hrx : 48 ≤ ptIdx v ∧ ptIdx v < 112
      · rw [if_pos hrx, if_pos hrx, frameOf_add_page hb₃.toAligned (by omega)]
      · rw [if_neg hrx, if_neg hrx]
        by_cases h32 : ptIdx v = 32
        · rw [if_pos (by omega), if_pos h32, h32, Nat.sub_self, frameOf_add_page hb₂.toAligned one_pos]
          rfl
        · rw [if_neg (by omega), if_neg (by omega), if_neg h32]
  · -- the page of the descriptors is not among the receive buffers, wherever these are
    rcases hb₃.marked 16 (by decide) with h0 | hmarked
    · have hne := hb₄.frame_ne (f := 16) one_pos (hlow₃ 16 (by decide)) fun _ => by decide
      show frameOf txDescsPhys ≠ frameOf rxBuffersPhys + 16
      omega
    · exact hb₄.frame_ne one_pos hmarked fun _ => by omega
  · dsimp only
    rw [Table.get_ofFn _ hi]

end Mapping

namespace Windows

variable {D : ℕ → Prop} {n pd : ℕ} {T : ℕ → ℕ} {m : Machine} {s s' : State}

/-- The transmit buffers are mapped, over the last quarter of the receive buffers. -/
theorem ensureTxBuffers (h : Windows D n T pd m s) (hD : ∀ f, D f → f < 65552 ∨ 65664 ≤ f) :
    ∃ s', ensureTxBuffers s = some s' ∧ Windows D n T pd m s' ∧ s'.txBuffers = txBuffersVirt := by
  unfold E1000.ensureTxBuffers
  rcases h.txBuffers with hnull | hset
  · have htx : (numPages (128#32 * 1024#32)).toNat = 32 := by decide
    have hpt : ptIdx txBuffersVirt = 96 := by decide
    obtain ⟨m', phys, hmap, h', hk, hb, htr⟩ := mapFrames_spec 64#32 txBuffersVirt
      (128#32 * 1024#32) h.region hD (by decide) (by decide) (by omega) (by omega)
    rw [if_pos hnull, hmap]
    refine ⟨{ s with machine := m', txBuffers := txBuffersVirt, txBuffersPhys := phys }, rfl,
      ⟨h', fun f hf => hk.mono f (h.low f hf), fun v hv hj => ?_, h.rxDescs, h.txDescs,
      h.rxBuffers, fun j hj => (h.rxMarked j hj).imp_right (hk.mono _), h.txDescs_ne,
      .inr ⟨rfl, hb.toAligned, ?_⟩, h.rxAddr, h.txCur, fun slot hslot => ?_⟩, rfl⟩
    · rw [htr v hv, htx, hpt, h.pages v hv hj, pageFrame_of_null hnull, pageFrame]
      by_cases hnew : 96 ≤ ptIdx v ∧ ptIdx v < 128
      · have hframe := frameOf_add_page hb.toAligned (show ptIdx v - 96 < 64 by omega)
        rw [if_pos hnew, if_pos ⟨show txBuffersVirt ≠ 0#32 by decide, hnew⟩, hframe]
      · rw [if_neg hnew, if_neg fun htx => hnew htx.2]
        rfl
    · -- the new frames are not among the receive buffers, wherever these are
      rcases h.rxMarked 48 (by decide) with h0 | hmarked
      · have hne := hb.frame_ne (j := 0) (f := 48) (by decide) (h.low 48 (by decide)) fun _ => by decide
        show frameOf phys ≠ frameOf s.rxBuffersPhys + 48
        omega
      · exact hb.frame_ne (j := 0) (by decide) hmarked fun _ => by omega
    · exact absurd hnull (h.used slot hslot).1
  · rw [if_neg (by rw [hset.1]; decide)]
    exact ⟨s, rfl, h, hset.1⟩

/-- Sending a packet. -/
theorem send (h : Windows D n T pd m s) (hD : ∀ f, D f → f < 65552 ∨ 65664 ≤ f) {data : List Byte}
    (hsend : e1000SendPacket s data = some s') : Windows D n T pd m s' := by
  obtain ⟨s₁, hs₁, h₁, hset⟩ := h.ensureTxBuffers hD
  rw [e1000SendPacket, hs₁] at hsend
  simp only [Option.bind_eq_bind, Option.bind_some] at hsend
  split at hsend
  · cases hsend
    refine ⟨h₁.region, h₁.low, h₁.pages, h₁.rxDescs, h₁.txDescs, h₁.rxBuffers, h₁.rxMarked, h₁.txDescs_ne,
      h₁.txBuffers, h₁.rxAddr, Nat.mod_lt _ (by decide), fun slot hslot => ⟨by rw [hset]; decide, ?_⟩⟩
    dsimp only
    by_cases hcur : slot = s₁.txCur
    · rw [hcur, Table.get_set_self _ h₁.txCur]
      rfl
    · rw [Table.get_set_ne _ hcur]
      rcases List.mem_append.mp hslot with hold | hnew
      · exact (h₁.used slot hold).2
      · exact absurd (List.mem_singleton.mp hnew) hcur
  · cases hsend

/-- Descriptors of which only the length and the status differ. -/
theorem withRxDescs (h : Windows D n T pd m s) {t : Table 128 RxDesc}
    (ht : ∀ i < 128, (t.get i).addr = (s.rxDescs.get i).addr) (rxCur rdt : ℕ)
    (handled : List (Word × BitVec 16)) : Windows D n T pd m
      { s with rxDescs := t, rxCur := rxCur, rdt := rdt, handled := handled } :=
  ⟨h.region, h.low, h.pages, h.rxDescs, h.txDescs, h.rxBuffers, h.rxMarked, h.txDescs_ne, h.txBuffers,
    fun i hi => (ht i hi).trans (h.rxAddr i hi), h.txCur, h.used⟩

theorem received (h : Windows D n T pd m s) (done : ℕ → Option (BitVec 16)) :
    Windows D n T pd m (received s done) := by
  refine h.withRxDescs (fun i hi => ?_) s.rxCur s.rdt s.handled
  rw [Table.get_ofFn _ hi]
  dsimp only
  split <;> rfl

theorem sends (h : Windows D n T pd m s) (hD : ∀ f, D f → f < 65552 ∨ 65664 ≤ f)
    {packets : List (List Byte)} (hsends : packets.foldlM e1000SendPacket s = some s') :
    Windows D n T pd m s' := by
  induction packets generalizing s with
  | nil =>
    obtain rfl : s = s' := by simpa using hsends
    exact h
  | cons data packets ih =>
    rw [List.foldlM_cons] at hsends
    obtain ⟨s₁, hsend, hrest⟩ := Option.bind_eq_some_iff.mp hsends
    exact ih (h.send hD hsend) hrest

/-- The loop of the handler stores the status of a descriptor only. -/
theorem rxLoop (h : Windows D n T pd m s) (hD : ∀ f, D f → f < 65552 ∨ 65664 ≤ f) {c : ℕ}
    {replies : List (List (List Byte))} (hloop : rxLoop c s replies = some s') :
    Windows D n T pd m s' := by
  induction c generalizing s replies with
  | zero =>
    obtain rfl := Option.some.inj hloop
    exact h
  | succ c ih =>
    rw [E1000.rxLoop] at hloop
    split at hloop
    · obtain ⟨s₁, hsends, hrest⟩ := Option.bind_eq_some_iff.mp hloop
      have h₁ : Windows D n T pd m s₁ :=
        (h.withRxDescs (fun _ _ => rfl) s.rxCur s.rdt _).sends hD hsends
      refine ih (h₁.withRxDescs (fun i hi => ?_) _ _ s₁.handled) hrest
      by_cases hcur : i = s₁.rxCur
      · rw [hcur, Table.get_set_self _ (hcur ▸ hi)]
      · rw [Table.get_set_ne _ hcur]
    · obtain rfl := Option.some.inj hloop
      exact h

theorem step (h : Windows D n T pd m s) (hD : ∀ f, D f → f < 65552 ∨ 65664 ≤ f) {e : Event}
    (hstep : step s e = some s') : Windows D n T pd m s' := by
  cases e with
  | send data => exact h.send hD hstep
  | interrupt status done replies =>
    rw [E1000.step, e1000Handler] at hstep
    split at hstep
    · exact (h.received done).rxLoop hD hstep
    · obtain rfl := Option.some.inj hstep
      exact h.received done

theorem run (h : Windows D n T pd m s) (hD : ∀ f, D f → f < 65552 ∨ 65664 ≤ f) {es : List Event}
    (hrun : run s es = some s') : Windows D n T pd m s' := by
  induction es generalizing s with
  | nil =>
    obtain rfl : s = s' := by simpa [E1000.run] using hrun
    exact h
  | cons e es ih =>
    rw [E1000.run, List.foldlM_cons] at hrun
    obtain ⟨s₁, hstep, hrest⟩ := Option.bind_eq_some_iff.mp hrun
    exact ih (h.step hD hstep) hrest

end Windows

/-! ## Slots and descriptors -/

section Slots

variable {D : ℕ → Prop} {n pd i k slot : ℕ} {T : ℕ → ℕ} {m : Machine} {s : State}

/-- Offset `o` into a window that starts at page `b` of the directory entry. -/
theorem idx_add_offset (base : Word) (b o : ℕ) (hbase : base.toNat = 3489660928 + b * 4096)
    (ho : b * 4096 + o < 4194304) : pdIdx (base + BitVec.ofNat 32 o) = 832 ∧
      ptIdx (base + BitVec.ofNat 32 o) = b + o / 4096 ∧
      (base + BitVec.ofNat 32 o).toNat % 4096 = o % 4096 := by
  have hv : (base + BitVec.ofNat 32 o).toNat = 3489660928 + b * 4096 + o := by
    rw [BitVec.toNat_add, hbase, BitVec.toNat_ofNat, Nat.mod_eq_of_lt (by omega : o < 2 ^ 32)]
    exact Nat.mod_eq_of_lt (by omega)
  rw [pdIdx_eq, ptIdx_eq, hv]
  omega

theorem ensureTxBuffers_txCur {s' : State} (hs : ensureTxBuffers s = some s') : s'.txCur = s.txCur := by
  unfold ensureTxBuffers at hs
  split at hs
  · obtain ⟨r, -, rfl⟩ := Option.map_eq_some_iff.mp hs
    rfl
  · obtain rfl := Option.some.inj hs
    rfl

/-- Without replies the handler faults nowhere. -/
theorem rxLoop_nil (c : ℕ) (s : State) : ∃ s', rxLoop c s [] = some s' := by
  induction c generalizing s with
  | zero => exact ⟨s, rfl⟩
  | succ c ih =>
    rw [rxLoop]
    split
    · exact ih _
    · exact ⟨s, rfl⟩

namespace Windows

theorem physOf (h : Windows D n T pd m s) (base : Word) (b o : ℕ)
    (hbase : base.toNat = 3489660928 + b * 4096) (ho : b * 4096 + o < 4194304)
    (hb : 48 ≤ b + o / 4096 ∨ b + o / 4096 = 32) :
    physOf s.machine (base + BitVec.ofNat 32 o) =
      (pageFrame s (translate m.cr3 m.mem (base + BitVec.ofNat 32 o)) (b + o / 4096)).map
        fun f => f * 4096 + o % 4096 := by
  obtain ⟨hpd, hpt, hmod⟩ := idx_add_offset base b o hbase ho
  rw [Mm.physOf, h.pages _ hpd (by rwa [hpt]), hpt, hmod]

/-- The receive slots that are where their descriptors say. -/
theorem rxAgrees_iff (h : Windows D n T pd m s) (hi : i < 128) (hk : k < 2048) :
    RxAgrees s i k ↔ i ≠ 32 ∧ i ≠ 33 ∧ (s.txBuffers ≠ 0#32 → i < 96) := by
  have hbelow := h.rxBuffers.below
  have haligned := h.rxBuffers.aligned
  have hne := h.txDescs_ne
  have haddr : ((s.rxDescs.get i).addr.toNat + k) = frameOf s.rxBuffersPhys * 4096 + (i * 2048 + k) := by
    rw [frameOf_eq] at hbelow ⊢
    rw [h.rxAddr i hi, BitVec.toNat_setWidth, BitVec.toNat_add, BitVec.toNat_ofNat]
    omega
  have hphys := h.physOf rxBuffersVirt 48 (i * 2048 + k) rfl (by omega) (by omega)
  rw [RxAgrees, hphys, haddr, pageFrame]
  by_cases hnew : s.txBuffers ≠ 0#32 ∧ 96 ≤ i
  · -- the page is one of the transmit buffers
    obtain ⟨-, -, hapart⟩ := h.txBuffers.resolve_left hnew.1
    rw [if_pos ⟨hnew.1, by omega, by omega⟩, Option.map_some, Option.some.injEq]
    refine iff_of_false (by omega) fun hgood => ?_
    exact absurd (hgood.2.2 hnew.1) (by omega)
  · have hold : s.txBuffers ≠ 0#32 → i < 96 := fun htx => by
      by_contra hge
      exact hnew ⟨htx, by omega⟩
    rw [if_neg fun htx => hnew ⟨htx.1, by omega⟩, initFrame]
    by_cases hdescs : i = 32 ∨ i = 33
    · -- the page is that of the transmit descriptors
      rw [if_pos (by omega), Option.map_some, Option.some.injEq]
      exact iff_of_false (by omega) (by omega)
    · -- the page `init_e1000` mapped
      rw [if_neg (by omega), if_pos (by omega), Option.map_some, Option.some.injEq]
      exact iff_of_true (by omega) ⟨by omega, by omega, hold⟩

/-- The transmit slots that are where the card is told to find them. -/
theorem txAgrees_iff (h : Windows D n T pd m s) (htx : s.txBuffers ≠ 0#32) (hslot : slot < 128)
    (hk : k < 2048) : TxAgrees s slot k ↔ slot < 64 ∨
      Mm.physOf m (txBuffersVirt + BitVec.ofNat 32 (slot * 2048 + k)) =
        some ((txAddr s slot).toNat + k) := by
  obtain ⟨-, ⟨haligned, hbelow⟩, -⟩ := h.txBuffers.resolve_left htx
  have haddr : (txAddr s slot).toNat + k = frameOf s.txBuffersPhys * 4096 + (slot * 2048 + k) := by
    rw [frameOf_eq] at hbelow ⊢
    rw [txAddr, BitVec.toNat_add, BitVec.toNat_ofNat]
    omega
  have hphys := h.physOf txBuffersVirt 96 (slot * 2048 + k) rfl (by omega) (by omega)
  rw [TxAgrees, hphys, pageFrame]
  by_cases hmapped : slot < 64
  · rw [if_pos ⟨htx, by omega, by omega⟩, Option.map_some, haddr, Option.some.injEq]
    exact iff_of_true (by omega) (.inl hmapped)
  · -- a page behind the window, which leads where it did
    obtain ⟨-, -, hmod⟩ := idx_add_offset txBuffersVirt 96 (slot * 2048 + k) rfl (by omega)
    rw [if_neg (by omega), initFrame, if_neg (by omega), if_neg (by omega), if_neg (by omega),
      or_iff_right hmapped, Mm.physOf, hmod]

/-- The descriptors are where the card is told to find them. -/
theorem descs (h : Windows D n T pd m s) (hk : k < 4096) :
    Mm.physOf s.machine (rxDescsVirt + BitVec.ofNat 32 k) = some (s.rxDescsPhys.toNat + k) ∧
      Mm.physOf s.machine (txDescsVirt + BitVec.ofNat 32 k) = some (s.txDescsPhys.toNat + k) := by
  have hrx := h.rxDescs.aligned
  have htx := h.txDescs.aligned
  have hphys := h.physOf rxDescsVirt 32 k rfl (by omega) (by omega)
  have hphys' := h.physOf txDescsVirt 64 k rfl (by omega) (by omega)
  rw [hphys, hphys', pageFrame, pageFrame, if_neg (by omega), if_neg (by omega), initFrame, initFrame,
    if_neg (by omega), if_neg (by omega), if_pos (by omega), if_pos (by omega), Option.map_some,
    Option.map_some, frameOf_eq, frameOf_eq]
  exact ⟨congrArg some (by omega), congrArg some (by omega)⟩

/-- The first slot of the transmit buffers holds a packet. -/
theorem send_first (h : Windows D n T pd m s) (hD : ∀ f, D f → f < 65552 ∨ 65664 ≤ f) (hcur : s.txCur = 0)
    {data : List Byte} (hlen : data.length ≤ 2048) :
    ∃ s', e1000SendPacket s data = some s' ∧ 0 ∈ s'.used := by
  obtain ⟨s₁, hs₁, h₁, hset⟩ := h.ensureTxBuffers hD
  have hcur₁ : s₁.txCur = 0 := (ensureTxBuffers_txCur hs₁).trans hcur
  have hdest : s₁.txBuffers + BitVec.ofNat 32 (s₁.txCur * 2048) = txBuffersVirt := by rw [hset, hcur₁]; rfl
  have hmapped (k : ℕ) (hk : k < data.length) :
      (Mm.physOf s₁.machine (txBuffersVirt + BitVec.ofNat 32 k)).isSome = true := by
    rw [h₁.physOf txBuffersVirt 96 k rfl (by omega) (by omega), pageFrame,
      if_pos ⟨by rw [hset]; decide, by omega, by omega⟩]
    rfl
  rw [e1000SendPacket, hs₁]
  simp only [Option.bind_eq_bind, Option.bind_some, hdest]
  rw [if_pos (List.all_eq_true.mpr fun k hk => hmapped k (List.mem_range.mp hk))]
  refine ⟨_, rfl, List.mem_append_right _ ?_⟩
  rw [hcur₁]
  exact List.mem_singleton_self 0

end Windows

/-- **Windows.** In every state after `init_e1000`, exactly these agree: the receive slots other than 32
and 33, and after the first packet those below 96; the transmit slots below 64, and those whose page
led there before; and the descriptors. -/
theorem windows_translate (hm : TablesApart m) {rx : Table 128 RxDesc} {tx : Table 128 TxDesc}
    {physAddr : Word} {s₀ : State} {es : List Event} (hinit : initE1000 m rx tx physAddr = some s₀)
    (hrun : run s₀ es = some s) :
    (∀ i < 128, ∀ k < 2048, RxAgrees s i k ↔ i ≠ 32 ∧ i ≠ 33 ∧ (s.txBuffers ≠ 0#32 → i < 96)) ∧
    (s.txBuffers ≠ 0#32 → ∀ slot < 128, ∀ k < 2048, TxAgrees s slot k ↔ slot < 64 ∨
      physOf m (txBuffersVirt + BitVec.ofNat 32 (slot * 2048 + k)) = some ((txAddr s slot).toNat + k)) ∧
    (∀ slot ∈ s.used, (s.txDescs.get slot).addr = (txAddr s slot).setWidth 64) ∧
    ∀ k < 4096, physOf s.machine (rxDescsVirt + BitVec.ofNat 32 k) = some (s.rxDescsPhys.toNat + k) ∧
      physOf s.machine (txDescsVirt + BitVec.ofNat 32 k) = some (s.txDescsPhys.toNat + k) := by
  obtain ⟨⟨D, n, T, pd, hregion, hD⟩, hlow⟩ := hm
  obtain ⟨s', hinit', hwindows, -⟩ := initE1000_windows hregion hD hlow rx tx physAddr
  obtain rfl := Option.some.inj (hinit.symm.trans hinit')
  have h := hwindows.run hD hrun
  exact ⟨fun i hi k hk => h.rxAgrees_iff hi hk, fun htx slot hslot k hk => h.txAgrees_iff htx hslot hk,
    fun slot hslot => (h.used slot hslot).2, fun k hk => h.descs hk⟩

end Slots

/-! ## After boot -/

section Boot

variable {image : KernelImage} {mbi : MultibootInfo} {mem : Word → Word} {fuel : ℕ} {sec : Sections}
  {m₀ m : Machine}

/-- With a frame left, the first megabyte is reserved. -/
theorem low_of_initPmm {p : Pmm} (hpmm : initPmm image mbi mem fuel = some p)
    (hcount : 0 < Bitmap.clearCount p.frameBitmap 0 (min (searchLimit p).toNat 65536)) :
    ∀ f < 256, Bitmap.test p.frameBitmap f = true := by
  have hreserved := (HoldInv.init hpmm).reserved
  have hsearch := (searchLimit_le p).1
  -- the frame that is left is not in the first megabyte, so the first megabyte is there
  obtain ⟨a, ha, hclear, -⟩ := allocFrame_below (min_le_left _ _) hcount
  have htotal : 256 < p.totalFrames.toNat := by
    by_contra hle
    have hmarked := hreserved a (show a < p.totalFrames.toNat by omega) (.inl (by omega))
    rw [hclear] at hmarked
    cases hmarked
  exact fun f hf => hreserved f (show f < p.totalFrames.toNat by omega) (.inl hf)

/-- The page tables that `init_paging` makes lie outside the windows, if there are frames for them in
the first 256 MB. -/
theorem tablesApart_of_boot (hpmm : initPmm image mbi mem fuel = some m₀.pmm) (hboot : m₀.cr3 = .boot)
    (hkb : m₀.pmm.totalMemoryKb.toNat < 4194304)
    (hframes : directTables m₀.pmm + 1 ≤
      Bitmap.clearCount m₀.pmm.frameBitmap 0 (min (searchLimit m₀.pmm).toNat 65536))
    (hinit : initPaging sec m₀ = some m) : TablesApart m := by
  obtain ⟨htotal, hkb'⟩ := initPmm_totals hpmm
  have hlow := low_of_initPmm hpmm (by omega)
  have hspec := initPaging_spec
    (D := fun f => (f = 0 ∨ Returnable m₀.pmm f) ∧ f < min (searchLimit m₀.pmm).toNat 65536) sec hboot
    (by rw [htotal, hkb', frameCount_eq (hkb' ▸ hkb)]) hkb (hlow 0 (by decide)) (min_le_left _ _) hframes
    (fun f hf hclear => ⟨.inr ⟨by omega, by rwa [bitmapTest_eq]⟩, hf⟩) (fun f hf => by omega)
  rw [hinit] at hspec
  rcases hspec with ⟨hnone, -⟩ | ⟨s', T, pd, hs, hl, hm, hk⟩
  · cases hnone
  · obtain rfl := Option.some.inj hs
    refine ⟨⟨_, _, T, pd, ⟨hl, hm, hk.self, fun habsent f hf => ?_⟩, fun f hf => by omega⟩,
      fun f hf => hk.mono f (hlow f hf)⟩
    -- the direct map reaches the entry of the windows on a machine with more than 256 MB
    have hsmall : (searchLimit m₀.pmm).toNat ≤ 65536 := by
      by_contra hlarge
      have hpresent := (hm.pde 64 (by rw [directTables]; omega)).1
      rw [show 768 + 64 = 832 from rfl, habsent] at hpresent
      cases hpresent
    have hpos : 0 < (searchLimit m₀.pmm).toNat := by
      have := Bitmap.clearCount_le m₀.pmm.frameBitmap 0 (min (searchLimit m₀.pmm).toNat 65536)
      omega
    refine ⟨hf.imp_right hk.returnable, ?_⟩
    rcases hf with rfl | hf
    · omega
    · have := (hk.returnable hf).1
      omega

/-- A machine with 512 MB after boot. -/
theorem boot_large : ∃ m₀ m, initPmm smallImage largeInfo (fun _ => 0#32) 0 = some m₀.pmm ∧
    m₀.cr3 = .boot ∧ initPaging ⟨0xC0100000#32, 0xC0101000#32, 0#32, 0#32⟩ m₀ = some m ∧
    TablesApart m := by
  obtain ⟨p, hpmm, htotal, hkb, hclear⟩ := initPmm_large
  obtain ⟨m, T, pd, hinit, -⟩ :=
    initPaging_large ⟨0xC0100000#32, 0xC0101000#32, 0#32, 0#32⟩ hpmm htotal hkb hclear
  refine ⟨largeMachine p, m, hpmm, rfl, hinit, tablesApart_of_boot hpmm rfl ?_ ?_ hinit⟩
  · show p.totalMemoryKb.toNat < 4194304
    rw [hkb]
    decide
  · have hlimit : (searchLimit p).toNat = 131072 := by rw [searchLimit_eq, htotal]; rfl
    have hcount := clearCount_large hclear (b := 65536) (by decide)
    show directTables p + 1 ≤ Bitmap.clearCount p.frameBitmap 0 (min (searchLimit p).toNat 65536)
    rw [directTables, hlimit]
    show 129 ≤ Bitmap.clearCount p.frameBitmap 0 65536
    omega

end Boot

/-- With 512 MB: a packet is sent, and the card has filled all its buffers. -/
theorem windows_translate_large : ∃ m s,
    initE1000 m (Table.ofFn fun _ => default) (Table.ofFn fun _ => default) 0xFEBC0000#32 = some s ∧
    ∃ s', run s [.send [0#8], .interrupt 0x80#32 (fun _ => some 60#16) []] = some s' ∧
      (∀ i < 128, ∀ k < 2048, RxAgrees s' i k ↔ i ≠ 32 ∧ i ≠ 33 ∧ (s'.txBuffers ≠ 0#32 → i < 96)) ∧
      ∀ k < 4096, physOf s'.machine (rxDescsVirt + BitVec.ofNat 32 k) =
        some (s'.rxDescsPhys.toNat + k) := by
  obtain ⟨-, m, -, -, -, hm⟩ := boot_large
  obtain ⟨⟨D, n, T, pd, hregion, hD⟩, hlow⟩ := id hm
  obtain ⟨s, hs, hwindows, hcur⟩ := initE1000_windows hregion hD hlow (Table.ofFn fun _ => default)
    (Table.ofFn fun _ => default) 0xFEBC0000#32
  obtain ⟨s₁, hsend, -⟩ := hwindows.send_first hD hcur (show [0#8].length ≤ 2048 by decide)
  obtain ⟨s', hloop⟩ := rxLoop_nil 128 (received s₁ fun _ => some 60#16)
  have hrun : run s [.send [0#8], .interrupt 0x80#32 (fun _ => some 60#16) []] = some s' := by
    rw [run, List.foldlM_cons, step, hsend]
    simp only [Option.bind_eq_bind, Option.bind_some, List.foldlM_cons, List.foldlM_nil, step]
    rw [e1000Handler, if_pos (by decide), hloop]
    rfl
  have hspec := windows_translate hm hs hrun
  exact ⟨m, s, hs, s', hrun, hspec.1, fun k hk => (hspec.2.2.2 k hk).1⟩

/-- With 512 MB, receive slot 32 is on the page of the transmit descriptors, and after the first packet
receive slot 96 is on that of the first transmit slot. -/
theorem windows_overlap : ∃ m₀ m s s',
    initPmm smallImage largeInfo (fun _ => 0#32) 0 = some m₀.pmm ∧ m₀.cr3 = .boot ∧
      initPaging ⟨0xC0100000#32, 0xC0101000#32, 0#32, 0#32⟩ m₀ = some m ∧
      initE1000 m (Table.ofFn fun _ => default) (Table.ofFn fun _ => default) 0xFEBC0000#32 = some s ∧
      run s [.send [0#8]] = some s' ∧ ¬RxAgrees s 32 0 ∧ ¬RxAgrees s' 96 0 := by
  obtain ⟨m₀, m, hpmm, hboot, hinit, ⟨⟨D, n, T, pd, hregion, hD⟩, hlow⟩⟩ := boot_large
  obtain ⟨s, hs, hwindows, hcur⟩ := initE1000_windows hregion hD hlow (Table.ofFn fun _ => default)
    (Table.ofFn fun _ => default) 0xFEBC0000#32
  obtain ⟨s', hsend, hused⟩ := hwindows.send_first hD hcur (show [0#8].length ≤ 2048 by decide)
  have hrun : run s [.send [0#8]] = some s' := by
    rw [run, List.foldlM_cons, step, hsend]
    rfl
  have htx := (hwindows.send hD hsend).used 0 hused
  refine ⟨m₀, m, s, s', hpmm, hboot, hinit, hs, hrun, fun hrx => ?_, fun hrx => ?_⟩
  · exact ((hwindows.rxAgrees_iff (by decide) (by decide)).mp hrx).1 rfl
  · have hgood := ((hwindows.run hD hrun).rxAgrees_iff (by decide) (by decide)).mp hrx
    exact absurd (hgood.2.2 htx.1) (by decide)

end PekerOS.Drivers.E1000
