import PekerOS.Net.Delivery

/-!
# The end of a stream

When the peer closes its side of a connection, `tcp_input` moves the control block to `TCP_CLOSE_WAIT`
and wakes the task in `socket_recvfrom`, "to see EOF". But the waiting loop of `socket_recvfrom` looks
at the number of buffered bytes alone, so a task that has read them all sleeps again, and nothing that
comes from the peer can end its wait.

## Main definitions

* `recvCalls`: calls of `socket_recvfrom`, one after the other
* `repliesToEnd`: the bytes of a stream, and then its end
* `Drained`: a connection that the peer has closed, with all bytes read

## Main results

* `end_of_stream_iff`: the calls for which the end of the stream plays no part
* `Drained.run`: a task that waits for the end waits forever
-/

namespace PekerOS.Net

/-- The replies to calls of `socket_recvfrom` by one task. A task that sleeps makes no further call. -/
def recvCalls (k task : ℕ) : NetState → List Word → List (Option (List Byte))
  | _, [] => []
  | net, length :: lengths =>
    match socketRecvfrom net k length task with
    | (net, some bytes) => some bytes :: recvCalls k task net lengths
    | (_, none) => [none]

/-- The bytes of a stream, and then empty replies. -/
def repliesToEnd : List Byte → List Word → List (Option (List Byte))
  | _, [] => []
  | bytes, length :: lengths =>
    some (bytes.take length.toNat) :: repliesToEnd (bytes.drop length.toNat) lengths

section Calls

variable {net : NetState} {k task : ℕ} {length : Word} {lengths : List Word}

theorem buffer_eq_nil_iff : net.buffer k = [] ↔ (net.ring k).len = 0 := by
  rw [← List.length_eq_zero_iff, NetState.buffer, RingBuffer.length_contents]

/-- Without bytes a call waits, whatever the state of the connection. -/
theorem recvfrom_waits (length : Word) (task : ℕ) (h : net.buffer k = []) :
    (socketRecvfrom net k length task).2 = none := by
  rw [socketRecvfrom]
  exact congrArg Prod.snd (if_pos (buffer_eq_nil_iff.mp h))

/-- With bytes it takes as many as it can. -/
theorem recvfrom_reads (length : Word) (task : ℕ) (hk : k < 32)
    (hstream : (net.sockets.get k).type = sockStream) (hok : (net.ring k).Ok) (h : net.buffer k ≠ []) :
    ∃ net', socketRecvfrom net k length task = (net', some ((net.buffer k).take length.toNat)) ∧
      net'.buffer k = (net.buffer k).drop length.toNat ∧ (net'.ring k).Ok ∧
      (net'.sockets.get k).type = sockStream := by
  have hlen : ¬(net.sockets.get k).ring.len = 0 := fun h0 => h (buffer_eq_nil_iff.mpr h0)
  obtain ⟨hread, hrest, hok'⟩ := RingBuffer.contents_loads hok (Nat.min_le_right length.toNat _)
  rw [← RingBuffer.length_contents, ← List.take_eq_take_min] at hread
  have hdrop : (net.ring k).contents.drop (min length.toNat (net.ring k).len) =
      (net.ring k).contents.drop length.toNat := by
    rw [← RingBuffer.length_contents, ← List.drop_eq_drop_min]
  have hring := ring_editSocket_self net k
    { ((net.ring k).loads (min length.toNat (net.ring k).len)).1 with
      len := (net.ring k).len - min length.toNat (net.ring k).len } hk
  refine ⟨_, ?_, ?_, hring ▸ hok', ?_⟩
  · rw [socketRecvfrom]
    dsimp only
    rw [if_neg hlen, if_neg (by rw [hstream]; decide)]
    refine Prod.ext rfl (congrArg some ?_)
    rw [NetState.buffer, ← hread, RingBuffer.length_contents]
    rfl
  · rw [NetState.buffer, hring, hrest, hdrop]
    rfl
  · rw [editSocket_get_self _ _ _ hk]
    exact hstream

/-- **The calls** get the bytes and then the end, unless one is made after all bytes have been read. -/
theorem recvCalls_eq_iff (hk : k < 32) (hstream : (net.sockets.get k).type = sockStream)
    (hok : (net.ring k).Ok) (hpos : ∀ length ∈ lengths, 0 < length.toNat) :
    recvCalls k task net lengths = repliesToEnd (net.buffer k) lengths ↔
      lengths = [] ∨ (lengths.dropLast.map BitVec.toNat).sum < (net.buffer k).length := by
  induction lengths generalizing net with
  | nil => exact iff_of_true rfl (.inl rfl)
  | cons length lengths ih =>
    by_cases hbuffer : net.buffer k = []
    · -- the first call waits
      have hwait := recvfrom_waits length task hbuffer
      generalize hcall : socketRecvfrom net k length task = r at hwait
      obtain ⟨net', bytes⟩ := r
      obtain rfl : bytes = none := hwait
      rw [recvCalls, hcall, repliesToEnd, hbuffer]
      simp
    · obtain ⟨net', hcall, hbuffer', hok', hstream'⟩ :=
        recvfrom_reads length task hk hstream hok hbuffer
      have hrest := ih hstream' hok' fun l hl => hpos l (List.mem_cons_of_mem _ hl)
      rw [hbuffer'] at hrest
      rw [recvCalls, hcall, repliesToEnd, List.cons_inj_right, hrest]
      have hlen := List.length_pos_of_ne_nil hbuffer
      cases lengths with
      | nil => simpa using hlen
      | cons next lengths =>
        simp only [List.dropLast_cons_cons, List.map_cons, List.sum_cons, List.length_drop,
          reduceCtorEq, false_or]
        omega

end Calls

/-! ## The end of the wait -/

/-- The peer has closed the connection between control block `p` and socket `k`, and all bytes have
been read. -/
structure Drained (i k : ℕ) (p : Ptr) (net : NetState) : Prop where
  connected : Connected i k p net.view
  state : (net.heap p).state = .closeWait
  empty : net.buffer k = []
  inj : net.view.Inj
  back : net.view.BackRef
  rings : StreamRings net

/-- A step that does not end the connection on this side, and is no datagram for the socket. -/
def LeavesOpen (k : ℕ) (p : Ptr) (net : NetState) (op : NetOp) : Prop :=
  net.callee op ≠ some p ∧ ∀ d, op = .datagram d → udpTarget net d.destPort ≠ some k

section Wait

variable {i k : ℕ} {p : Ptr} {net : NetState} {op : NetOp}

/-- A connection that the peer has closed accepts nothing. -/
theorem Drained.accepted_eq_nil (h : Drained i k p net) (op : NetOp) : accepted net op k = [] := by
  cases op with
  | packet pkt =>
    rw [accepted]
    split
    · rfl
    · refine if_neg fun haccept => ?_
      cases hlookup : tcpLookup net pkt with
      | none => simp [acceptingSocket, dataPcb, hlookup] at haccept
      | some j =>
        obtain ⟨-, q, hq⟩ := tcpLookup_slot hlookup
        obtain ⟨⟨hstate, -⟩, hsocket, -⟩ := (acceptingSocket_iff hlookup hq).mp haccept
        obtain rfl := Option.some_inj.mp ((h.back j q k hq hsocket).symm.trans h.connected.ref)
        rw [h.state] at hstate
        cases hstate
  | _ => rfl

theorem Drained.step (h : Drained i k p net) (hop : LeavesOpen k p net op) :
    Drained i k p (net.step op) := by
  have hreceiving : (net.view.state p).Receiving := .inr h.state
  obtain ⟨hconnected, hstate⟩ := h.connected.step h.inj hreceiving hop.1
  have hstream : (net.sockets.get k).type = sockStream := by
    simpa [NetState.view] using h.connected.stream
  have hrings := h.rings k h.connected.inUse h.connected.stream
  have hbuffer : taken net op k ++ (net.step op).buffer k =
      net.buffer k ++ accepted net op k ++ deposited net op k :=
    (buffer_step h.connected.inUse hstream hrings).1
  -- no datagram comes to this socket
  have hdep : deposited net op k = [] := by
    cases op with
    | datagram d =>
      rw [deposited]
      split
      · rfl
      · exact if_neg fun hdep => hop.2 d rfl hdep.1
    | _ => rfl
  rw [h.empty, h.accepted_eq_nil, hdep, List.append_nil, List.append_nil,
    List.append_eq_nil_iff] at hbuffer
  refine ⟨hconnected, ?_, hbuffer.2, h.inj.step, h.back.step, h.rings.step⟩
  rcases hstate with ⟨pkt, rfl, hhalted, hlookup⟩ | hsame
  · have hslot : net.tcpPcbs.get i = some p := h.connected.slot
    rw [step_packet hhalted hlookup hslot, tcpProcess, h.state]
    exact h.state
  · exact hsame.trans h.state

/-- **The wait for the end**: whatever comes from the peer, every round of the waiting loop sleeps
again. -/
theorem Drained.run {ops : List NetOp} (h : Drained i k p net)
    (hops : Steps NetState.step (LeavesOpen k p) net ops) :
    Along NetState.step (fun net => Drained i k p net ∧
      ∀ length task, (socketRecvfrom net k length task).2 = none) net ops :=
  (along_of_steps (I := fun _ => True) (fun _ => trivial) (fun _ h hop => h.step hop) trivial h hops).imp
    fun h => ⟨h, fun length task => recvfrom_waits length task h.empty⟩

end Wait

/-- **The end of a stream**: in every state that a run can reach, for every connected stream socket whose
peer has closed its side, successive calls of `socket_recvfrom` get all buffered bytes and then the end,
none of them waiting, if and only if no call is made once the bytes have been read; one that is made then
waits until the connection is ended on this side. -/
theorem end_of_stream_iff (myIp : Word) (heap : Ptr → Pcb) (ops : List NetOp) {i k : ℕ} {p : Ptr}
    {net : NetState} (hnet : net = ops.foldl NetState.step (.init myIp heap))
    (hconnected : Connected i k p net.view) (hstate : (net.heap p).state = .closeWait) :
    (∀ task (lengths : List Word), (∀ length ∈ lengths, 0 < length.toNat) →
      (recvCalls k task net lengths = repliesToEnd (net.buffer k) lengths ↔
        lengths = [] ∨ (lengths.dropLast.map BitVec.toNat).sum < (net.buffer k).length)) ∧
      (net.buffer k = [] → ∀ later, Steps NetState.step (LeavesOpen k p) net later →
        Along NetState.step (fun net => ∀ length task, (socketRecvfrom net k length task).2 = none)
          net later) := by
  subst hnet
  have hrings := run_streamRings myIp heap ops
  refine ⟨fun task lengths hpos => ?_, fun hempty later hlater => ?_⟩
  · exact recvCalls_eq_iff (inUse_lt hconnected.inUse)
      (by simpa [NetState.view] using hconnected.stream)
      (hrings k hconnected.inUse hconnected.stream) hpos
  · have hdrained : Drained i k p (ops.foldl NetState.step (.init myIp heap)) :=
      ⟨hconnected, hstate, hempty, run_inj myIp heap ops, run_backRef myIp heap ops, hrings⟩
    exact (hdrained.run hlater).imp And.right

/-- The peer sends one byte and closes its side. -/
def closedOps : List NetOp :=
  acceptOps ++ [.packet (peerSegment 0 [7#8] tcpAck), .packet (peerSegment 1 [] (tcpFin ||| tcpAck))]

/-- The state then. -/
def closedNet : NetState := closedOps.foldl NetState.step (.init 1#32 fun _ => newPcb)

theorem closedNet_connected : Connected 0 0 4096#32 closedNet.view :=
  ⟨by decide +kernel, by decide +kernel, by decide +kernel, by decide +kernel, by decide +kernel⟩

/-- One call gets the byte. -/
theorem end_of_stream_byte : Connected 0 0 4096#32 closedNet.view ∧
    (closedNet.heap 4096#32).state = .closeWait ∧ 0 < (10#32).toNat ∧
    recvCalls 0 1 closedNet [10#32] = repliesToEnd (closedNet.buffer 0) [10#32] := by
  have hnet : closedNet = closedOps.foldl NetState.step (.init 1#32 fun _ => newPcb) := rfl
  have hstate : (closedNet.heap 4096#32).state = .closeWait := by decide +kernel
  have hiff := (end_of_stream_iff 1#32 (fun _ => newPcb) closedOps hnet closedNet_connected hstate).1
  have hpos : ∀ length ∈ [10#32], 0 < length.toNat := by
    rintro length hmem
    rw [List.mem_singleton.mp hmem]
    decide
  refine ⟨closedNet_connected, hstate, by decide, (hiff 1 [10#32] hpos).mpr (.inr ?_)⟩
  decide +kernel

/-- The next call waits, where it should return 0. -/
theorem end_of_stream_missed : Connected 0 0 4096#32 closedNet.view ∧
    (closedNet.heap 4096#32).state = .closeWait ∧ closedNet.buffer 0 = [7#8] ∧
    recvCalls 0 1 closedNet [10#32, 10#32] = [some [7#8], none] ∧
    repliesToEnd (closedNet.buffer 0) [10#32, 10#32] = [some [7#8], some []] :=
  ⟨closedNet_connected, by decide +kernel, by decide +kernel, by decide +kernel, by decide +kernel⟩

end PekerOS.Net
