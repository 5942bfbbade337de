import PekerOS.Net.View

/-!
# Control blocks and sockets over time

A control block is made by a call on a socket and freed by `tcp_input`; the socket is closed by a
call. What becomes of the control block then depends on the state it was closed in, and the slot of
the socket, taken again, still points to it.

## Main definitions

* `Reclaimed`, `ReclaimOk`: every slot is owned or can be freed, and the steps that keep it so
* `RefsOk`, `CleanCreate`, `CleanSlot`: references agree, new sockets are clean, and when they are

## Main results

* `freeable_iff`: `tcp_input` can free a control block in three states, and in no others
* `pcbs_reclaimed`: the slots are reclaimed in a run exactly when each of its steps keeps it so
* `refs_consistent`: references stay consistent in a run exactly when it reuses no used slot
-/

namespace PekerOS.Net

/-! ## Slots -/

/-- No control block is in two slots. -/
def View.Inj (v : View) : Prop :=
  ∀ i j p, v.slots.get i = some p → v.slots.get j = some p → i = j

section Slots

variable {net : NetState} {op : NetOp} {v : View} {i : ℕ} {p : Ptr}

theorem View.slot_lt (h : v.slots.get i = some p) : i < 16 := by
  by_contra hi
  rw [Table.get_of_le _ (Nat.le_of_not_lt hi)] at h
  cases h

/-- After a packet: the control block is freed, or in its next state. -/
theorem packet_view (pkt : Packet) (hi : i < 16) (hslot : net.view.slots.get i = some p) :
    nextState (net.view.state p) pkt.flags = none ∧
        (∃ st, (tcpProcess net i p pkt).view = (net.view.setState p st).free i) ∨
      ∃ st, nextState (net.view.state p) pkt.flags = some st ∧
        (tcpProcess net i p pkt).view = net.view.setState p st := by
  have hview := view_tcpProcess net pkt hi hslot
  cases hnext : nextState (net.view.state p) pkt.flags with
  | none =>
    rw [show nextState (net.heap p).state pkt.flags = none from hnext] at hview
    exact .inl ⟨rfl, _, hview⟩
  | some st =>
    rw [show nextState (net.heap p).state pkt.flags = some st from hnext] at hview
    exact .inr ⟨st, rfl, hview⟩

theorem slot_of_free {j : ℕ} {q : Ptr} (h : (v.free i).slots.get j = some q) :
    j ≠ i ∧ v.slots.get j = some q := by
  have hlt := View.slot_lt h
  rw [View.free] at h
  by_cases hj : j = i
  · subst hj
    rw [Table.get_set_self _ hlt] at h
    cases h
  · exact ⟨hj, (Table.get_set_ne _ hj _).symm.trans h⟩

theorem slot_of_attach {j k : ℕ} {q : Ptr} {st : TcpState}
    (h : (v.attach i k p st).slots.get j = some q) : j = i ∧ q = p ∨ j ≠ i ∧ v.slots.get j = some q := by
  have hj := View.slot_lt h
  by_cases hji : j = i
  · subst hji
    exact .inl ⟨rfl, (Option.some_inj.mp ((Table.get_set_self _ hj _).symm.trans h)).symm⟩
  · exact .inr ⟨hji, (Table.get_set_ne _ hji _).symm.trans h⟩

theorem View.Inj.step (h : net.view.Inj) : (net.step op).view.Inj := by
  have hview := step_view net op
  generalize (net.step op).view = v' at hview ⊢
  cases hview with
  | attach hop hcallee hi hslot hfresh huse href hst =>
    intro j j' q hj hj'
    rcases slot_of_attach hj with ⟨rfl, rfl⟩ | ⟨-, hold⟩ <;>
      rcases slot_of_attach hj' with ⟨rfl, hq⟩ | ⟨-, hold'⟩
    · rfl
    · exact absurd hold' (hfresh j')
    · exact absurd (hq ▸ hold) (hfresh j)
    · exact h j j' q hold hold'
  | close _ huse =>
    intro j j' q hj hj'
    rw [View.close_slots] at hj hj'
    exact h j j' q hj hj'
  | @packet pkt _ _ _ hlookup hi hslot =>
    rcases packet_view pkt hi hslot with ⟨-, st, hview⟩ | ⟨st, -, hview⟩
    · rw [hview]
      intro j j' q hj hj'
      exact h j j' q (slot_of_free hj).2 (slot_of_free hj').2
    · rw [hview]
      exact h
  | _ => exact h

end Slots

/-! ## Reclaiming control blocks -/

/-- The connection is closed on this side and has not ended. -/
def TcpState.FinSent (st : TcpState) : Prop := st = .finWait1 ∨ st = .finWait2 ∨ st = .lastAck

/-- Packets that `tcp_input` handles for slot `i` free it. -/
def Freeable (net : NetState) (i : ℕ) (p : Ptr) : Prop :=
  ∃ pkts : List Packet, (pkts.foldl (fun net pkt => tcpProcess net i p pkt) net).tcpPcbs.get i = none

/-- A socket in use refers to the control block. -/
def View.Owned (v : View) (p : Ptr) : Prop := ∃ k, v.inUse k = true ∧ v.ref k = some p

/-- Every control block belongs to a socket in use, or is in a state in which `tcp_input` can still
free it. -/
def Reclaimed (net : NetState) : Prop :=
  ∀ i p, net.tcpPcbs.get i = some p →
    net.view.Owned p ∨ (net.heap p).state.FinSent ∧ Freeable net i p

section Free

variable {net : NetState} {i : ℕ} {p : Ptr} {st : TcpState}

theorem nextState_not_finSent (flags : Byte) (hst : ¬st.FinSent) :
    ∃ st', nextState st flags = some st' ∧ ¬st'.FinSent := by
  cases st <;> simp_all [nextState, TcpState.FinSent] <;> split <;> simp

theorem not_freed {pkts : List Packet} (hslot : net.tcpPcbs.get i = some p)
    (hst : ¬(net.heap p).state.FinSent) :
    (pkts.foldl (fun net pkt => tcpProcess net i p pkt) net).tcpPcbs.get i = some p := by
  induction pkts generalizing net with
  | nil => exact hslot
  | cons pkt pkts ih =>
    obtain ⟨st', hnext, hst'⟩ := nextState_not_finSent pkt.flags hst
    obtain ⟨hslot', hstate'⟩ := tcpProcess_state net i p pkt hslot hnext
    exact ih hslot' (hstate' ▸ hst')

/-- A packet with nothing but its flags. -/
def flagsOnly (flags : Byte) : Packet := ⟨0#32, 0#16, 0#16, 0#32, 0#32, 5#4, flags, 20#16, fun _ => 0#8⟩

/-- `tcp_input` can free a control block once its FIN is out, until it has seen a FIN and an
acknowledgement at once. -/
theorem freeable_iff (hi : i < 16) (hslot : net.tcpPcbs.get i = some p) :
    Freeable net i p ↔ (net.heap p).state.FinSent := by
  constructor
  · rintro ⟨pkts, hfreed⟩
    by_contra hst
    exact absurd (hfreed.symm.trans (not_freed hslot hst)) nofun
  · rintro (hst | hst | hst)
    · have hack : nextState (net.heap p).state (flagsOnly tcpAck).flags = some .finWait2 := by
        rw [hst]
        decide
      obtain ⟨-, hst'⟩ := tcpProcess_state net i p (flagsOnly tcpAck) hslot hack
      refine ⟨[flagsOnly tcpAck, flagsOnly tcpFin], tcpProcess_freed _ i p _ hi ?_⟩
      rw [hst']
      decide
    · refine ⟨[flagsOnly tcpFin], tcpProcess_freed _ i p _ hi ?_⟩
      rw [hst]
      decide
    · refine ⟨[flagsOnly tcpAck], tcpProcess_freed _ i p _ hi ?_⟩
      rw [hst]
      decide

/-- What `Reclaimed` says of the view. -/
def View.Reclaimed (v : View) : Prop :=
  ∀ i p, v.slots.get i = some p → v.Owned p ∨ (v.state p).FinSent

theorem reclaimed_iff : Reclaimed net ↔ net.view.Reclaimed := by
  refine forall₃_congr fun i p hslot => or_congr_right ?_
  have hi : i < 16 := View.slot_lt (v := net.view) hslot
  exact and_iff_left_of_imp (freeable_iff hi hslot).mpr

end Free

/-- A step that leaves no control block behind. A socket is closed on an open connection, or its
control block has another owner; a FIN finds a control block in `FIN_WAIT_1` only while it is owned. -/
def ReclaimOk (net : NetState) (op : NetOp) : Prop :=
  (net.halted || !op.valid net) = true ∨
    (∀ k i p, op = .close k → net.view.ref k = some p → net.tcpPcbs.get i = some p →
      (∃ j, j ≠ k ∧ net.view.inUse j = true ∧ net.view.ref j = some p) ∨
        if net.view.stream k then (net.heap p).state = .established ∨ (net.heap p).state = .closeWait
        else (net.heap p).state.FinSent) ∧
    ∀ pkt i p, op = .packet pkt → tcpLookup net pkt = some i → net.tcpPcbs.get i = some p →
      (net.heap p).state = .finWait1 → hasFlag pkt.flags tcpFin → net.view.Owned p

section Reclaim

variable {net : NetState} {op : NetOp} {v v' : View} {i k : ℕ} {p : Ptr} {st : TcpState}

/-- Control blocks stay owned if no socket is closed and no reference lost. -/
theorem View.Owned.mono (h : v.Owned p) (hinUse : ∀ k, v.inUse k = true → v'.inUse k = true)
    (href : ∀ k p, v.ref k = some p → v'.ref k = some p) : v'.Owned p := by
  obtain ⟨k, huse, hk⟩ := h
  exact ⟨k, hinUse k huse, href k p hk⟩

/-- An owned control block may be in any state. -/
theorem View.Reclaimed.setState (h : v.Reclaimed) (hp : v.Owned p) : (v.setState p st).Reclaimed := by
  intro j q hq
  by_cases hqp : q = p
  · exact .inl (hqp ▸ hp)
  · refine (h j q hq).imp_right fun hst => ?_
    rwa [View.setState_state_ne _ _ hqp]

theorem View.Reclaimed.create (h : v.Reclaimed) (stream : Bool) : (v.create k stream).Reclaimed := by
  intro j q hq
  refine (h j q hq).imp_left fun howned => howned.mono (fun k' huse => ?_) fun _ _ => id
  by_cases hk : k' = k
  · exact hk ▸ Function.update_self _ _ _
  · exact (Function.update_of_ne hk _ _).trans huse

theorem View.Reclaimed.attach (h : v.Reclaimed) (hfresh : ∀ j, v.slots.get j ≠ some p)
    (huse : v.inUse k = true) (href : v.ref k = none) : (v.attach i k p st).Reclaimed := by
  intro j q hq
  rcases slot_of_attach hq with ⟨rfl, rfl⟩ | ⟨-, hold⟩
  · exact .inl ⟨k, huse, Function.update_self _ _ _⟩
  · have hqp : q ≠ p := by
      rintro rfl
      exact hfresh j hold
    rw [View.attach_state_ne _ _ _ hqp]
    refine (h j q hold).imp_left fun howned => howned.mono (fun _ => id) fun k' r hr => ?_
    have hk : k' ≠ k := by
      rintro rfl
      exact absurd (href.symm.trans hr) nofun
    rwa [View.attach_ref_ne _ _ _ hk]

theorem closeState_finSent :
    (closeState st).FinSent ↔ st = .established ∨ st = .closeWait := by
  cases st <;> simp [closeState, TcpState.FinSent]

theorem View.close_owned : (v.close k).Owned p ↔ ∃ j, j ≠ k ∧ v.inUse j = true ∧ v.ref j = some p := by
  rw [View.Owned, View.close_inUse, View.close_ref]
  refine exists_congr fun j => ?_
  by_cases hj : j = k
  · subst hj
    simp
  · simp [hj]

theorem View.close_state_of_ne (h : v.ref k ≠ some p) : (v.close k).state p = v.state p := by
  rw [View.close]
  dsimp only
  split
  · next q _ hq =>
    have hpq : p ≠ q := by
      rintro rfl
      exact h hq
    exact Function.update_of_ne hpq _ _
  · rfl

theorem View.close_state_of_ref (h : v.ref k = some p) :
    (v.close k).state p = if v.stream k then closeState (v.state p) else v.state p := by
  rw [View.close, h]
  cases v.stream k with
  | true => exact Function.update_self _ _ _
  | false => rfl

/-- A close leaves no control block behind exactly when that of the socket is owned by another, or
waits for its end. -/
theorem View.reclaimed_close (h : v.Reclaimed) :
    (v.close k).Reclaimed ↔ ∀ i p, v.ref k = some p → v.slots.get i = some p →
      (∃ j, j ≠ k ∧ v.inUse j = true ∧ v.ref j = some p) ∨
        if v.stream k then v.state p = .established ∨ v.state p = .closeWait
        else (v.state p).FinSent := by
  -- closing moves the state of the socket's own control block alone
  have hown (p : Ptr) (href : v.ref k = some p) : ((v.close k).state p).FinSent ↔
      if v.stream k then v.state p = .established ∨ v.state p = .closeWait
      else (v.state p).FinSent := by
    rw [View.close_state_of_ref href]
    split
    · exact closeState_finSent
    · exact Iff.rfl
  constructor
  · intro h' i p href hslot
    rw [← View.close_owned, ← hown p href]
    exact h' i p (by rwa [View.close_slots])
  · intro h' i p hslot
    rw [View.close_slots] at hslot
    by_cases href : v.ref k = some p
    · rw [View.close_owned, hown p href]
      exact h' i p href hslot
    · rw [View.close_owned, View.close_state_of_ne href]
      refine (h i p hslot).imp_left ?_
      rintro ⟨j, huse, hj⟩
      refine ⟨j, ?_, huse, hj⟩
      rintro rfl
      exact href hj

/-- A packet leaves no control block behind unless its FIN finds one in `FIN_WAIT_1` that is not
owned. -/
theorem reclaimed_packet {pkt : Packet} (hinj : net.view.Inj) (h : net.view.Reclaimed) (hi : i < 16)
    (hslot : net.view.slots.get i = some p) :
    (tcpProcess net i p pkt).view.Reclaimed ↔
      (net.view.state p = .finWait1 → hasFlag pkt.flags tcpFin → net.view.Owned p) := by
  rcases packet_view pkt hi hslot with ⟨hnext, st, hview⟩ | ⟨st, hnext, hview⟩
  · -- the segment frees the control block
    rw [hview]
    refine iff_of_true (fun j q hq => ?_) fun hst => ?_
    · -- the freed control block is in no other slot
      obtain ⟨hj, hold⟩ := slot_of_free hq
      have hqp : q ≠ p := by
        rintro rfl
        exact hj (hinj j i q hold hslot)
      rw [View.free_state, View.setState_state_ne _ _ hqp]
      exact h j q hold
    · rw [hst, nextState] at hnext
      split at hnext <;> cases hnext
  · -- else its state moves on
    rw [hview]
    by_cases howned : net.view.Owned p
    · exact iff_of_true (h.setState howned) fun _ _ => howned
    · have hst := (h i p hslot).resolve_left howned
      constructor
      · -- a FIN in FIN_WAIT_1 leads out of the three states in which `tcp_input` can free the block
        intro h' hfin1 hfin
        have hkept := (h' i p hslot).resolve_left howned
        rw [View.setState_state_self] at hkept
        rw [hfin1, nextState, if_pos hfin, Option.some_inj] at hnext
        rw [← hnext] at hkept
        split at hkept <;> rcases hkept with hkept | hkept | hkept <;> cases hkept
      · intro hfin j q hq
        by_cases hqp : q = p
        · subst hqp
          right
          rw [View.setState_state_self]
          rcases hst with hst | hst | hst <;> rw [hst, nextState] at hnext
          · rw [if_neg fun hflag => howned (hfin hst hflag), Option.some_inj] at hnext
            rw [← hnext]
            split
            · exact .inr (.inl rfl)
            · exact .inl rfl
          · split at hnext
            · cases hnext
            · exact .inr (.inl (Option.some_inj.mp hnext).symm)
          · split at hnext
            · cases hnext
            · exact .inr (.inr (Option.some_inj.mp hnext).symm)
        · rw [View.setState_state_ne _ _ hqp]
          exact h j q hq

/-- One step. -/
theorem reclaimed_step (hinj : net.view.Inj) (h : net.view.Reclaimed) :
    (net.step op).view.Reclaimed ↔ ReclaimOk net op := by
  by_cases hidle : (net.halted || !op.valid net) = true
  · refine iff_of_true ?_ (.inl hidle)
    rwa [step_of_idle hidle]
  have hview := step_view net op
  rw [ReclaimOk, or_iff_right hidle]
  generalize (net.step op).view = v' at hview ⊢
  cases hview with
  | idle h => exact absurd h hidle
  | full hfree => exact iff_of_true h ⟨nofun, nofun⟩
  | create hfree hk hunused => exact iff_of_true (h.create _) ⟨nofun, nofun⟩
  | quiet hop hcallee =>
    refine iff_of_true h ⟨?_, ?_⟩ <;> rintro _ _ _ rfl <;> exact absurd hop id
  | setState hop hcallee huse href hst =>
    refine iff_of_true (h.setState ⟨_, huse, href⟩) ⟨?_, ?_⟩ <;> rintro _ _ _ rfl <;> exact absurd hop id
  | attach hop hcallee hi hslot hfresh huse href hst =>
    refine iff_of_true (h.attach hfresh huse href) ⟨?_, ?_⟩ <;> rintro _ _ _ rfl <;> exact absurd hop id
  | @close k hhalted huse =>
    -- closing is one of the two steps that can lose a control block
    rw [View.reclaimed_close h]
    refine ⟨fun hc => ⟨?_, nofun⟩, fun hc i p => hc.1 k i p rfl⟩
    rintro _ i p ⟨⟩
    exact hc i p
  | @lost pkt hlookup =>
    refine iff_of_true h ⟨nofun, ?_⟩
    rintro _ i p ⟨⟩ hi
    exact absurd (hlookup.symm.trans hi) nofun
  | @packet pkt i p hhalted hlookup hi hslot =>
    -- a segment is the other
    rw [reclaimed_packet hinj h hi hslot]
    refine ⟨fun hc => ⟨nofun, ?_⟩, fun hc => hc.2 pkt i p rfl hlookup hslot⟩
    rintro _ j q ⟨⟩ hj hq
    obtain rfl := Option.some_inj.mp (hlookup.symm.trans hj)
    obtain rfl := Option.some_inj.mp (hslot.symm.trans hq)
    exact hc

theorem init_slots (myIp : Word) (heap : Ptr → Pcb) (i : ℕ) :
    (NetState.init myIp heap).view.slots.get i = none := by
  show (Table.ofFn fun _ => none : Table 16 (Option Ptr)).get i = none
  by_cases hi : i < 16
  · exact Table.get_ofFn _ hi
  · exact Table.get_of_le _ (Nat.le_of_not_lt hi)

theorem init_inj (myIp : Word) (heap : Ptr → Pcb) : (NetState.init myIp heap).view.Inj := by
  intro i j p hi
  exact absurd ((init_slots myIp heap i).symm.trans hi) nofun

/-- **Reclaiming**: in every state of a run every slot is owned by a socket in use or can be freed,
exactly when sockets are closed on open connections only and a FIN comes after the acknowledgement of
the FIN it answers. -/
theorem pcbs_reclaimed (myIp : Word) (heap : Ptr → Pcb) (ops : List NetOp) :
    Along NetState.step Reclaimed (.init myIp heap) ops ↔
      Steps NetState.step ReclaimOk (.init myIp heap) ops := by
  refine along_iff_steps (I := fun net => net.view.Inj) View.Inj.step (fun hinj h => ?_) ?_ ?_
  · rw [reclaimed_iff] at h ⊢
    exact reclaimed_step hinj h
  · exact init_inj myIp heap
  · intro i p hi
    exact absurd ((init_slots myIp heap i).symm.trans hi) nofun

end Reclaim

/-- A socket listens and is closed. -/
def listenClose : List NetOp := [.create 2#32 sockStream 0#32, .listen 0 4096#32, .close 0]

/-- The control block of the listener stays in its slot. -/
theorem listener_stays : ¬Along NetState.step Reclaimed (.init 1#32 fun _ => newPcb) listenClose := by
  rintro ⟨-, -, -, h⟩
  rcases h 0 4096#32 (by decide +kernel) with ⟨k, huse, -⟩ | ⟨hst, -⟩
  · have hunused : ∀ k < 32,
        (listenClose.foldl NetState.step (.init 1#32 fun _ => newPcb)).view.inUse k = false := by
      decide +kernel
    exact absurd (huse.symm.trans (hunused k (inUse_lt huse))) nofun
  · rcases hst with hst | hst | hst <;> exact absurd hst (by decide +kernel)

/-! ## References -/

/-- The control block of a socket in use is in the table and points back to it. -/
def RefsOk (net : NetState) : Prop :=
  ∀ k p, (net.sockets.get k).inUse = true → (net.sockets.get k).tcpPcb = some p →
    ∃ i, net.tcpPcbs.get i = some p ∧ (net.heap p).socket = some k

/-- A socket that `socket_create` returns has no control block and no peer. -/
def CleanCreate (net : NetState) (op : NetOp) : Prop :=
  net.halted = false → ∀ domain type protocol net' k, op = .create domain type protocol →
    socketCreate net domain type protocol = some (net', k) →
      (net'.sockets.get k).tcpPcb = none ∧ (net'.sockets.get k).remoteAddr = 0#32 ∧
        (net'.sockets.get k).remotePort = 0#16

/-- `socket_create` takes a slot that no socket before has left a control block or a peer in. -/
def CleanSlot (net : NetState) (op : NetOp) : Prop :=
  net.halted = false → ∀ domain type protocol k, op = .create domain type protocol →
    freeSocket net = some k → (net.sockets.get k).tcpPcb = none ∧
      (net.sockets.get k).remoteAddr = 0#32 ∧ (net.sockets.get k).remotePort = 0#16

/-- References agree, and the control blocks that `tcp_input` can free have no socket. -/
structure View.RefInv (v : View) : Prop where
  inj : v.Inj
  slot : ∀ k p, v.inUse k = true → v.ref k = some p → ∃ i, v.slots.get i = some p
  back : ∀ k p, v.inUse k = true → v.ref k = some p → v.socket p = some k
  state : ∀ k p, v.inUse k = true → v.ref k = some p → ¬(v.state p).FinSent

section Refs

variable {net : NetState} {op : NetOp} {v : View} {i k : ℕ} {p : Ptr} {st : TcpState}

theorem cleanCreate_iff : CleanCreate net op ↔ CleanSlot net op := by
  refine forall_congr' fun _ => forall₃_congr fun domain type protocol => ?_
  rw [forall_comm]
  refine forall_congr' fun k => ?_
  constructor
  · intro h hop hfree
    have hk := List.mem_range.mp (List.mem_of_find?_eq_some hfree)
    have hclean := h _ hop (by rw [socketCreate, hfree]; rfl)
    rwa [editSocket_get_self _ _ _ hk] at hclean
  · intro h net' hop hcreate
    obtain ⟨j, hfree, heq⟩ := Option.map_eq_some_iff.mp hcreate
    have hj := List.mem_range.mp (List.mem_of_find?_eq_some hfree)
    simp only [Prod.mk.injEq] at heq
    obtain ⟨rfl, rfl⟩ := heq
    rw [editSocket_get_self _ _ _ hj]
    exact h hop hfree

theorem View.RefInv.setState (h : v.RefInv) (hst : v.Owned p → ¬st.FinSent) :
    (v.setState p st).RefInv := by
  refine ⟨h.inj, h.slot, h.back, fun k q huse href => ?_⟩
  by_cases hqp : q = p
  · subst hqp
    rw [View.setState_state_self]
    exact hst ⟨k, huse, href⟩
  · rw [View.setState_state_ne _ _ hqp]
    exact h.state k q huse href

theorem View.RefInv.not_finSent (h : v.RefInv) (hp : v.Owned p) : ¬(v.state p).FinSent := by
  obtain ⟨k, huse, href⟩ := hp
  exact h.state k p huse href

/-- A control block that no socket in use refers to may be freed. -/
theorem View.RefInv.free (h : v.RefInv) (hslot : v.slots.get i = some p) (hp : ¬v.Owned p) :
    (v.free i).RefInv := by
  refine ⟨fun j j' q hj hj' => ?_, fun k q huse href => ?_, h.back, h.state⟩
  · exact h.inj j j' q (slot_of_free hj).2 (slot_of_free hj').2
  · obtain ⟨j, hj⟩ := h.slot k q huse href
    have hji : j ≠ i := by
      rintro rfl
      obtain rfl := Option.some_inj.mp (hslot.symm.trans hj)
      exact hp ⟨k, huse, href⟩
    exact ⟨j, (Table.get_set_ne _ hji _).trans hj⟩

theorem View.RefInv.create (h : v.RefInv) (href : v.ref k = none) (stream : Bool) :
    (v.create k stream).RefInv := by
  have hold {k' : ℕ} {q : Ptr} (huse : (v.create k stream).inUse k' = true) (hq : v.ref k' = some q) :
      v.inUse k' = true := by
    have hk : k' ≠ k := by
      rintro rfl
      exact absurd (href.symm.trans hq) nofun
    exact (Function.update_of_ne hk _ _).symm.trans huse
  exact ⟨h.inj, fun k' q huse hq => h.slot k' q (hold huse hq) hq,
    fun k' q huse hq => h.back k' q (hold huse hq) hq, fun k' q huse hq => h.state k' q (hold huse hq) hq⟩

theorem View.RefInv.attach (h : v.RefInv) (hinj : (v.attach i k p st).Inj) (hi : i < 16)
    (hslot : v.slots.get i = none) (hfresh : ∀ j, v.slots.get j ≠ some p) (hst : ¬st.FinSent) :
    (v.attach i k p st).RefInv := by
  -- the other sockets refer to other control blocks, which are in other slots
  have hother {k' : ℕ} {q : Ptr} (hk : k' ≠ k) (huse : v.inUse k' = true)
      (hq : (v.attach i k p st).ref k' = some q) :
      v.ref k' = some q ∧ q ≠ p ∧ ∃ j, j ≠ i ∧ v.slots.get j = some q := by
    rw [View.attach_ref_ne _ _ _ hk] at hq
    obtain ⟨j, hj⟩ := h.slot k' q huse hq
    refine ⟨hq, ?_, j, ?_, hj⟩
    · rintro rfl
      exact hfresh j hj
    · rintro rfl
      exact absurd (hslot.symm.trans hj) nofun
  refine ⟨hinj, fun k' q huse hq => ?_, fun k' q huse hq => ?_, fun k' q huse hq => ?_⟩ <;>
    by_cases hk : k' = k
  · subst hk
    rw [View.attach_ref_self] at hq
    exact ⟨i, (Table.get_set_self _ hi _).trans hq⟩
  · obtain ⟨-, -, j, hji, hj⟩ := hother hk huse hq
    exact ⟨j, (Table.get_set_ne _ hji _).trans hj⟩
  · subst hk
    rw [View.attach_ref_self] at hq
    obtain rfl := Option.some_inj.mp hq
    exact View.attach_socket_self _ _ _ _ _
  · obtain ⟨hold, hqp, -⟩ := hother hk huse hq
    exact (View.attach_socket_ne _ _ _ hqp).trans (h.back k' q huse hold)
  · subst hk
    rw [View.attach_ref_self] at hq
    obtain rfl := Option.some_inj.mp hq
    rwa [View.attach_state_self]
  · obtain ⟨hold, hqp, -⟩ := hother hk huse hq
    rw [View.attach_state_ne _ _ _ hqp]
    exact h.state k' q huse hold

/-- The control block of the socket that is closed has no other socket. -/
theorem View.RefInv.close (h : v.RefInv) (huse : v.inUse k = true) : (v.close k).RefInv := by
  have hold {k' : ℕ} (huse' : (v.close k).inUse k' = true) : k' ≠ k ∧ v.inUse k' = true := by
    rw [View.close_inUse] at huse'
    have hk : k' ≠ k := by
      rintro rfl
      rw [Function.update_self] at huse'
      cases huse'
    exact ⟨hk, (Function.update_of_ne hk _ _).symm.trans huse'⟩
  refine ⟨fun j j' q hj hj' => ?_, fun k' q huse' hq => ?_, fun k' q huse' hq => ?_,
    fun k' q huse' hq => ?_⟩
  · rw [View.close_slots] at hj hj'
    exact h.inj j j' q hj hj'
  · rw [View.close_slots]
    rw [View.close_ref] at hq
    exact h.slot k' q (hold huse').2 hq
  · rw [View.close_socket]
    rw [View.close_ref] at hq
    exact h.back k' q (hold huse').2 hq
  · rw [View.close_ref] at hq
    obtain ⟨hk, huse''⟩ := hold huse'
    have hne : v.ref k ≠ some q := by
      intro hq'
      exact hk (Option.some_inj.mp ((h.back k' q huse'' hq).symm.trans (h.back k q huse hq')))
    rw [View.close_state_of_ne hne]
    exact h.state k' q huse'' hq

theorem View.RefInv.step (h : net.view.RefInv) (hclean : CleanSlot net op) : (net.step op).view.RefInv := by
  by_cases hidle : (net.halted || !op.valid net) = true
  · rwa [step_of_idle hidle]
  rw [Bool.not_eq_true, Bool.or_eq_false_iff] at hidle
  -- no two slots have one control block, before the step and after it
  have hinj : (net.step op).view.Inj := h.inj.step
  have hview := step_view net op
  generalize (net.step op).view = v' at hview hinj ⊢
  cases hview with
  | create hfree hk hunused => exact h.create (hclean hidle.1 _ _ _ _ rfl hfree).1 _
  | setState hop hcallee huse href hst =>
    refine h.setState fun _ => ?_
    rcases hst with rfl | rfl <;> simp [TcpState.FinSent]
  | attach hop hcallee hi hslot hfresh huse href hst =>
    refine h.attach hinj hi hslot hfresh ?_
    rcases hst with rfl | rfl <;> simp [TcpState.FinSent]
  | close hhalted huse => exact h.close huse
  | @packet pkt i p hhalted hlookup hi hslot =>
    rcases packet_view pkt hi hslot with ⟨hnext, st, hview⟩ | ⟨st, hnext, hview⟩
    · -- only control blocks that are closed on this side are freed, and they have no socket
      have hp : ¬net.view.Owned p := by
        intro hp
        obtain ⟨st', hnext', -⟩ := nextState_not_finSent pkt.flags (h.not_finSent hp)
        exact absurd (hnext.symm.trans hnext') nofun
      rw [hview]
      exact (h.setState fun howned => absurd howned hp).free hslot hp
    · rw [hview]
      refine h.setState fun hp => ?_
      obtain ⟨st', hnext', hst'⟩ := nextState_not_finSent pkt.flags (h.not_finSent hp)
      rwa [Option.some_inj.mp (hnext.symm.trans hnext')]
  | _ => exact h

theorem View.RefInv.refsOk (h : net.view.RefInv) : RefsOk net := by
  intro k p huse href
  obtain ⟨i, hi⟩ := h.slot k p huse href
  exact ⟨i, hi, h.back k p huse href⟩

theorem init_refInv (myIp : Word) (heap : Ptr → Pcb) : (NetState.init myIp heap).view.RefInv := by
  have hunused (k : ℕ) (huse : (NetState.init myIp heap).view.inUse k = true) : False :=
    absurd ((init_inUse myIp heap k).symm.trans huse) nofun
  exact ⟨init_inj myIp heap, fun k _ huse => (hunused k huse).elim,
    fun k _ huse => (hunused k huse).elim, fun k _ huse => (hunused k huse).elim⟩

/-- **References**: in every state of a run the control block of a socket in use is in the table and
points back, and new sockets are clean, exactly when `socket_create` never takes a slot in which a
control block or a peer was left. -/
theorem refs_consistent (myIp : Word) (heap : Ptr → Pcb) (ops : List NetOp) :
    Along NetState.step RefsOk (.init myIp heap) ops ∧
        Steps NetState.step CleanCreate (.init myIp heap) ops ↔
      Steps NetState.step CleanSlot (.init myIp heap) ops := by
  rw [steps_congr fun net op => cleanCreate_iff]
  refine and_iff_right_of_imp fun hclean => ?_
  have hinv : Along NetState.step (fun net => net.view.RefInv) (.init myIp heap) ops :=
    along_of_steps (I := fun _ => True) id (fun _ h hc => h.step hc) trivial (init_refInv myIp heap) hclean
  exact hinv.imp View.RefInv.refsOk

end Refs

/-- A socket connects and is closed, and its slot is taken again. -/
def connectCloseCreate : List NetOp :=
  [.create 2#32 sockStream 0#32, .connect 0 7#32 80#16 4096#32, .connectSyn 0 1, .close 0,
    .create 2#32 sockStream 0#32]

/-- The new socket has the control block and the peer of the old. -/
theorem slot_remembers : ¬(Along NetState.step RefsOk (.init 1#32 fun _ => newPcb) connectCloseCreate ∧
    Steps NetState.step CleanCreate (.init 1#32 fun _ => newPcb) connectCloseCreate) := by
  rintro ⟨-, -, -, -, -, h, -⟩
  have hfree : freeSocket ((connectCloseCreate.take 4).foldl NetState.step (.init 1#32 fun _ => newPcb)) =
      some 0 := by decide +kernel
  have hclean := cleanCreate_iff.mp h (by decide +kernel) _ _ _ 0 rfl hfree
  exact absurd hclean.1 (by decide +kernel)

end PekerOS.Net
