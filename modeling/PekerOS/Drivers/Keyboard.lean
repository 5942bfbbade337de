import PekerOS.Lib.RingBuffer
import PekerOS.Lib.Run
import PekerOS.Core.CString

/-!
# The keyboard queue

Characters that are typed while the shell is not active go into a ring of 256 bytes, from which
`sys_getchar` takes them. The ring is empty when its two indexes are the same, and nothing is asked before a
character is stored: the 256th character that is pending makes the indexes meet.

## Main definitions

* `State`, `keyboardPut`, `keyboardGet`: the variables and the two functions
* `retained`: the characters from the tail up to the head
* `Call`, `step`, `typed`, `returned`: runs of calls, the characters put into the queue and those taken
* `Serves`, `Behaves`: what is expected of a call, and of a run
* `HasRoom`: fewer than 255 characters are pending when one is put

## Main results

* `retained_put`, `retained_get`: the two functions on what is retained
* `keyboard_queue_iff`: a run behaves exactly if every character that is put has room
-/

namespace PekerOS.Drivers.Keyboard

/-- The queue of `keyboard.c`, `shell_active`, and the characters given to `shell_input`. -/
structure State where
  kbdBuffer : Table 256 Byte
  kbdBufHead : ℕ
  kbdBufTail : ℕ
  shellActive : Bool
  shellInput : List Byte

/-- The variables at boot. -/
def boot (active : Bool) : State := ⟨Table.ofFn fun _ => 0#8, 0, 0, active, []⟩

/-- `keyboard_put` -/
def keyboardPut (s : State) (c : Byte) : State :=
  if s.shellActive then { s with shellInput := s.shellInput ++ [c] }
  else
    -- the tail is not looked at
    { s with
      kbdBuffer := s.kbdBuffer.set s.kbdBufHead c
      kbdBufHead := (s.kbdBufHead + 1) % 256 }

/-- `keyboard_get` -/
def keyboardGet (s : State) : State × Byte :=
  if s.kbdBufHead = s.kbdBufTail then (s, 0#8)
  else ({ s with kbdBufTail := (s.kbdBufTail + 1) % 256 }, s.kbdBuffer.get s.kbdBufTail)

/-! ## What is retained -/

/-- The ring, with the number of characters that the indexes say. -/
def ring (s : State) : RingBuffer 256 Byte :=
  ⟨s.kbdBuffer, s.kbdBufHead, s.kbdBufTail, (s.kbdBufHead + 256 - s.kbdBufTail) % 256⟩

/-- The characters that are pending, the oldest one first. -/
def retained (s : State) : List Byte := (ring s).contents

/-- The indexes are in the ring. -/
structure InRing (s : State) : Prop where
  head : s.kbdBufHead < 256
  tail : s.kbdBufTail < 256

section Retained

variable {s : State} {c : Byte}

theorem InRing.ok (h : InRing s) : (ring s).Ok := by
  obtain ⟨hhead, htail⟩ := h
  refine ⟨?_, htail, ?_⟩
  · exact (Nat.mod_lt _ (by decide)).le
  · change s.kbdBufHead = (s.kbdBufTail + (s.kbdBufHead + 256 - s.kbdBufTail) % 256) % 256
    omega

theorem length_retained (s : State) :
    (retained s).length = (s.kbdBufHead + 256 - s.kbdBufTail) % 256 := RingBuffer.length_contents _

theorem retained_eq_nil (h : InRing s) : retained s = [] ↔ s.kbdBufHead = s.kbdBufTail := by
  obtain ⟨hhead, htail⟩ := h
  rw [← List.length_eq_zero_iff, length_retained]
  omega

theorem keyboardPut_active (h : s.shellActive = true) :
    keyboardPut s c = { s with shellInput := s.shellInput ++ [c] } := if_pos h

theorem keyboardPut_inactive (h : s.shellActive = false) :
    keyboardPut s c =
      { s with
        kbdBuffer := s.kbdBuffer.set s.kbdBufHead c
        kbdBufHead := (s.kbdBufHead + 1) % 256 } := if_neg (by simp [h])

theorem InRing.put (h : InRing s) (c : Byte) : InRing (keyboardPut s c) := by
  rw [keyboardPut]
  split
  · exact ⟨h.head, h.tail⟩
  · exact ⟨Nat.mod_lt _ (by decide), h.tail⟩

theorem InRing.get (h : InRing s) : InRing (keyboardGet s).1 := by
  rw [keyboardGet]
  split
  · exact h
  · exact ⟨h.head, Nat.mod_lt _ (by decide)⟩

/-- **A character that is put** is appended, and the 256th leaves nothing. -/
theorem retained_put (h : InRing s) (hactive : s.shellActive = false) :
    retained (keyboardPut s c) = if (retained s).length < 255 then retained s ++ [c] else [] := by
  have hput := keyboardPut_inactive (c := c) hactive
  obtain ⟨hhead, htail⟩ := h
  by_cases hlen : (retained s).length < 255
  · rw [if_pos hlen]
    rw [length_retained] at hlen
    have hring : ring (keyboardPut s c) = { (ring s).store c with len := (ring s).len + 1 } := by
      have hcount : ((s.kbdBufHead + 1) % 256 + 256 - s.kbdBufTail) % 256 =
          (s.kbdBufHead + 256 - s.kbdBufTail) % 256 + 1 := by omega
      rw [hput]
      simp only [ring, RingBuffer.store, hcount]
    rw [retained, hring]
    exact (RingBuffer.contents_store (InRing.ok ⟨hhead, htail⟩) (Nat.lt_succ_of_lt hlen) c).1
  · rw [if_neg hlen]
    rw [length_retained] at hlen
    rw [retained_eq_nil (InRing.put ⟨hhead, htail⟩ c), hput]
    dsimp only
    omega

/-- **A character that is taken** is the oldest one. -/
theorem retained_get (h : InRing s) :
    retained (keyboardGet s).1 = (retained s).tail ∧ (keyboardGet s).2 = (retained s).headD 0#8 := by
  rw [keyboardGet]
  by_cases hempty : s.kbdBufHead = s.kbdBufTail
  · rw [if_pos hempty, (retained_eq_nil h).mpr hempty]
    exact ⟨rfl, rfl⟩
  · rw [if_neg hempty]
    have hpos : 1 ≤ (ring s).len := by
      have hne := (not_congr (retained_eq_nil h)).mpr hempty
      rw [← Ne, ← List.length_pos_iff, length_retained] at hne
      exact hne
    obtain ⟨hload, hrest, -⟩ := RingBuffer.contents_loads h.ok hpos
    have hring : ring { s with kbdBufTail := (s.kbdBufTail + 1) % 256 } =
        { ((ring s).loads 1).1 with len := (ring s).len - 1 } := by
      have hcount : (s.kbdBufHead + 256 - (s.kbdBufTail + 1) % 256) % 256 =
          (s.kbdBufHead + 256 - s.kbdBufTail) % 256 - 1 := by
        obtain ⟨hhead, htail⟩ := h
        omega
      simp only [ring, RingBuffer.loads, RingBuffer.load, hcount]
    refine ⟨?_, ?_⟩
    · rw [retained, hring, hrest, List.drop_one]
      rfl
    · have hfirst : [s.kbdBuffer.get s.kbdBufTail] = (retained s).take 1 := hload
      cases hretained : retained s with
      | nil => simp [hretained] at hfirst
      | cons b bs => simpa [hretained] using hfirst

end Retained

/-! ## Runs -/

/-- A character that is typed, which `keyboard_handler` puts only if it is not 0, a call of
`keyboard_get`, or a change of `shell_active`. -/
inductive Call
  | put (c : Byte) (typed : c ≠ 0#8)
  | get
  | setActive (active : Bool)

def step (s : State) : Call → State
  | .put c _ => keyboardPut s c
  | .get => (keyboardGet s).1
  | .setActive active => { s with shellActive := active }

/-- What is expected of a call: a character is appended, and if more than 255 would be pending some may be
discarded, but not all; the oldest one is taken, and 0 says that there is none. -/
def Serves (s : State) : Call → Prop
  | .put c _ =>
    if s.shellActive then retained (keyboardPut s c) = retained s
    else if (retained s).length < 255 then retained (keyboardPut s c) = retained s ++ [c]
    else retained (keyboardPut s c) ≠ [] ∧ (retained (keyboardPut s c)).Sublist (retained s ++ [c])
  | .get =>
    retained s = [] ∧ (keyboardGet s).2 = 0#8 ∧ retained (keyboardGet s).1 = [] ∨
      (keyboardGet s).2 ≠ 0#8 ∧ retained s = (keyboardGet s).2 :: retained (keyboardGet s).1
  | .setActive active => retained { s with shellActive := active } = retained s

/-- The characters put into the queue during a run. -/
def typed : State → List Call → List Byte
  | _, [] => []
  | s, .put c h :: cs => (if s.shellActive then [] else [c]) ++ typed (step s (.put c h)) cs
  | s, c :: cs => typed (step s c) cs

/-- The characters that `keyboard_get` returns during a run. -/
def returned : State → List Call → List Byte
  | _, [] => []
  | s, .get :: cs =>
    (if (keyboardGet s).2 = 0#8 then [] else [(keyboardGet s).2]) ++ returned (step s .get) cs
  | s, c :: cs => returned (step s c) cs

/-- Every call does what is expected, and the characters returned, with those still pending, are some of the
characters put, in their order. -/
structure Behaves (s : State) (cs : List Call) : Prop where
  serves : Steps step Serves s cs
  inOrder : (returned s cs ++ retained (cs.foldl step s)).Sublist (retained s ++ typed s cs)

/-- Fewer than 255 characters are pending when one is put into the queue. -/
def HasRoom (s : State) : Call → Prop
  | .put _ _ => s.shellActive = false → (retained s).length < 255
  | _ => True

/-- The indexes are in the ring, and 0 is not among the characters. -/
structure Inv (s : State) : Prop where
  inRing : InRing s
  typed : ∀ c ∈ retained s, c ≠ 0#8

section Run

variable {s : State} {c : Call} {cs : List Call}

theorem inv_boot (active : Bool) : Inv (boot active) :=
  have hring : InRing (boot active) := ⟨Nat.zero_lt_succ _, Nat.zero_lt_succ _⟩
  ⟨hring, fun c hc => absurd hc (by simp [(retained_eq_nil hring).mpr rfl])⟩

theorem Inv.step (h : Inv s) (c : Call) : Inv (step s c) := by
  cases c with
  | put b hb =>
    refine ⟨h.inRing.put b, fun c hc => ?_⟩
    cases hactive : s.shellActive with
    | true =>
      rw [Keyboard.step, keyboardPut_active hactive] at hc
      exact h.typed c hc
    | false =>
      rw [Keyboard.step, retained_put h.inRing hactive] at hc
      split at hc
      · rcases List.mem_append.mp hc with hc | hc
        · exact h.typed c hc
        · exact List.mem_singleton.mp hc ▸ hb
      · exact absurd hc List.not_mem_nil
  | get =>
    refine ⟨h.inRing.get, fun c hc => h.typed c ?_⟩
    rw [Keyboard.step, (retained_get h.inRing).1] at hc
    exact List.mem_of_mem_tail hc
  | setActive active => exact ⟨⟨h.inRing.head, h.inRing.tail⟩, h.typed⟩

/-- **One call** does what is expected exactly if a character that is put has room. -/
theorem serves_iff (h : Inv s) (c : Call) : Serves s c ↔ HasRoom s c := by
  cases c with
  | put b hb =>
    rw [Serves, HasRoom]
    cases hactive : s.shellActive with
    | true =>
      rw [if_pos rfl, keyboardPut_active hactive]
      exact iff_of_true rfl nofun
    | false =>
      rw [if_neg Bool.false_ne_true, retained_put h.inRing hactive]
      by_cases hlen : (retained s).length < 255
      · rw [if_pos hlen, if_pos hlen]
        exact iff_of_true rfl fun _ => hlen
      · -- the 256th character discards all
        rw [if_neg hlen, if_neg hlen]
        exact iff_of_false (fun hall => hall.1 rfl) fun hroom => hlen (hroom rfl)
  | get =>
    obtain ⟨hrest, hfirst⟩ := retained_get h.inRing
    refine iff_of_true ?_ trivial
    rw [Serves, hrest, hfirst]
    cases hretained : retained s with
    | nil => exact .inl ⟨rfl, rfl, rfl⟩
    | cons b bs => exact .inr ⟨h.typed b (hretained ▸ List.mem_cons_self), rfl⟩
  | setActive active => exact iff_of_true rfl trivial

/-- A full queue is discarded. -/
theorem not_serves_of_full (h : Inv s) (hactive : s.shellActive = false) (hfull : 255 ≤ (retained s).length)
    {b : Byte} (hb : b ≠ 0#8) : ¬Serves s (.put b hb) := fun hserves =>
  absurd ((serves_iff h _).mp hserves hactive) (Nat.not_lt.mpr hfull)

theorem inv_foldl (active : Bool) (cs : List Call) : Inv (cs.foldl step (boot active)) :=
  invariant_run (fun h => h.step _) (inv_boot active)

theorem returned_cons (s : State) (c : Call) (cs : List Call) :
    returned s (c :: cs) = returned s [c] ++ returned (step s c) cs := by
  cases c <;> simp [returned]

theorem typed_cons (s : State) (c : Call) (cs : List Call) :
    typed s (c :: cs) = typed s [c] ++ typed (step s c) cs := by
  cases c <;> simp [typed]

/-- What a call returns and leaves, when it does what is expected: nothing new but the character put. -/
theorem inOrder_step (hserves : Serves s c) :
    (returned s [c] ++ retained (step s c)).Sublist (retained s ++ typed s [c]) := by
  cases c with
  | put b hb =>
    rw [Serves] at hserves
    simp only [returned, typed, step, List.nil_append, List.append_nil]
    split at hserves
    · next hactive => simp [hserves, hactive]
    · next hactive =>
      rw [if_neg hactive]
      split at hserves
      · rw [hserves]
      · exact hserves.2
  | get =>
    simp only [returned, typed, step, List.append_nil]
    rcases hserves with ⟨hnil, hzero, hrest⟩ | ⟨hne, hcons⟩
    · rw [if_pos hzero, hnil, hrest]
      exact List.Sublist.refl _
    · rw [if_neg hne, hcons]
      exact List.Sublist.refl _
  | setActive active =>
    have hsame : retained (step s (.setActive active)) = retained s := hserves
    simp [returned, typed, hsame]

/-- A run of calls that do what is expected keeps the order. -/
theorem inOrder_of_serves (h : Steps step Serves s cs) :
    (returned s cs ++ retained (cs.foldl step s)).Sublist (retained s ++ typed s cs) := by
  induction cs generalizing s with
  | nil => simp [returned, typed]
  | cons c cs ih =>
    obtain ⟨hserves, hrest⟩ := h
    have hstep := (inOrder_step hserves).append_right (typed (step s c) cs)
    rw [returned_cons, typed_cons, List.foldl_cons, List.append_assoc]
    refine ((ih hrest).append_left (returned s [c])).trans ?_
    rwa [← List.append_assoc, ← List.append_assoc]

end Run

/-- **The keyboard queue**: from boot, in every interleaving of characters typed, calls of `keyboard_get`
and changes of `shell_active`, every call does what is expected and the characters come out in order if
and only if fewer than 255 are pending whenever one is put into the queue. -/
theorem keyboard_queue_iff (active : Bool) (cs : List Call) :
    Behaves (boot active) cs ↔ Steps step HasRoom (boot active) cs := by
  have hinv := inv_boot active
  have hserves : Steps step Serves (boot active) cs ↔ Steps step HasRoom (boot active) cs :=
    ⟨fun h => h.imp (fun hi _ => hi.step _) (fun hi hc => (serves_iff hi _).mp hc) hinv,
      fun h => h.imp (fun hi _ => hi.step _) (fun hi hc => (serves_iff hi _).mpr hc) hinv⟩
  exact ⟨fun h => hserves.mp h.serves, fun h => ⟨hserves.mpr h, inOrder_of_serves (hserves.mpr h)⟩⟩

/-- 256 characters are typed, and the queue is empty. -/
theorem full_queue_discarded :
    let a : Call := .put 97#8 (by decide)
    (retained ((List.replicate 255 a).foldl step (boot false))).length = 255 ∧
      (keyboardGet ((List.replicate 256 a).foldl step (boot false))).2 = 0#8 ∧
      ¬Behaves (boot false) (List.replicate 256 a) := by
  intro a
  have hlength : (retained ((List.replicate 255 a).foldl step (boot false))).length = 255 := by
    decide +kernel
  have hactive : ((List.replicate 255 a).foldl step (boot false)).shellActive = false := by
    decide +kernel
  refine ⟨hlength, by decide +kernel, fun h => ?_⟩
  have hsplit : List.replicate 256 a = List.replicate 255 a ++ [a] := List.replicate_succ'
  have hsteps := steps_append.mp (hsplit ▸ h.serves)
  have hinv := inv_foldl false (List.replicate 255 a)
  generalize (List.replicate 255 a).foldl step (boot false) = s at hinv hlength hactive hsteps
  exact not_serves_of_full hinv hactive hlength.ge _ hsteps.2.1

end PekerOS.Drivers.Keyboard
