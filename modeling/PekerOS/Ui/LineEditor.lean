import PekerOS.Lib.Recent
import PekerOS.Core.CString

/-!
# The line editor of the shell

`shell_input` takes one character at a time. It keeps the line that is being typed in a buffer of 256
bytes and the lines that have been given in ten rows of 256 bytes; when all rows are taken, they move up
by one. The arrows copy a row into the buffer, up to its terminator, and leave behind it what was there.
To the user it is a line, a list of lines that have been given, and a place in their history; the buffers
simulate that. What is printed on the screen is left out, and so is what the commands do.

## Main definitions

* `Editor`, `initShell`: the variables, and the state that the shell starts in
* `shellInput`: one character
* `Editor.rows`: the lines in the history
* `Prompt`, `Prompt.press`: what the user sees, and what each key does to it
* `Shows`: the buffers hold a session

## Main results

* `Shows.press`, `shows_run`: the keys do to the buffers what they do to the session
* `line_editor`: the session, the bounds, the lines in the history, and the arrow up
-/

namespace PekerOS.Ui

/-- The variables of the editor, and the lines that `execute_command` has been called with. -/
structure Editor where
  inputBuffer : Table 256 Byte
  bufferIdx : ℕ
  historyBuffer : Table 10 (Table 256 Byte)
  historyCount : ℕ
  historyNavIdx : ℤ
  executed : List (List Byte)

/-- `init_shell`. The rows keep what they hold. -/
def initShell (s : Editor) : Editor :=
  { s with
    bufferIdx := 0
    historyCount := 0
    historyNavIdx := 0
    inputBuffer := Table.ofFn fun _ => 0#8
    executed := [] }

/-- `'\n'` -/
abbrev newline : Byte := 10#8

/-- `'\x11'` -/
abbrev arrowUp : Byte := 0x11#8

/-- `'\x12'` -/
abbrev arrowDown : Byte := 0x12#8

/-- `'\b'` -/
abbrev backspace : Byte := 8#8

/-- `input_buffer[buffer_idx] = '\0'` -/
def Editor.terminate (s : Editor) : Editor := { s with inputBuffer := s.inputBuffer.set s.bufferIdx 0#8 }

/-- The row with the line in it; behind the terminator the row is as it was. -/
def Editor.stored (s : Editor) (row : Table 256 Byte) : Table 256 Byte :=
  row.patch 0 (s.bufferIdx + 1) s.inputBuffer.get

/-- The rows, moved up by one; the last one stays as well. -/
def Editor.shifted (s : Editor) : Table 10 (Table 256 Byte) :=
  Table.ofFn fun i => if i < 9 then s.historyBuffer.get (i + 1) else s.historyBuffer.get i

/-- A line that is not empty, and not the one before, goes into the history. -/
def Editor.remember (s : Editor) : Editor :=
  if 0 < s.bufferIdx ∧ (s.historyCount = 0 ∨
      strcmp (cstrAt (s.historyBuffer.get (s.historyCount - 1)) 0) (cstrAt s.inputBuffer 0) ≠ 0) then
    -- neither an empty line nor the last one again
    if s.historyCount < 10 then
      { s with
        historyBuffer := s.historyBuffer.set s.historyCount (s.stored (s.historyBuffer.get s.historyCount))
        historyCount := s.historyCount + 1 }
    -- the oldest line makes room
    else { s with historyBuffer := s.shifted.set 9 (s.stored (s.shifted.get 9)) }
  else s

/-- `execute_command` gets the line, and the buffer is cleared. -/
def Editor.submit (s : Editor) : Editor :=
  { s with
    executed := s.executed ++ [cstrAt s.inputBuffer 0]
    bufferIdx := 0
    inputBuffer := Table.ofFn fun _ => 0#8
    historyNavIdx := s.historyCount }

/-- A row is copied into the buffer, up to its terminator. -/
def Editor.recall (s : Editor) (row : Table 256 Byte) : Editor :=
  { s with
    inputBuffer := (s.inputBuffer.patch 0 (cstrAt row 0).length row.get).set (cstrAt row 0).length 0#8
    bufferIdx := (cstrAt row 0).length }

/-- `shell_input` -/
def shellInput (vbeIsActive : Bool) (c : Byte) (s : Editor) : Editor :=
  if vbeIsActive then s
  else if c = newline then
    s.terminate.remember.submit
  else if c = arrowUp then
    if s.historyCount > 0 ∧ s.historyNavIdx > 0 then
      let s := { s with historyNavIdx := s.historyNavIdx - 1 }
      s.recall (s.historyBuffer.get s.historyNavIdx.toNat)
    else s
  else if c = arrowDown then
    if s.historyNavIdx < s.historyCount then
      let s := { s with historyNavIdx := s.historyNavIdx + 1 }
      -- behind the last line the input is empty
      if s.historyNavIdx = s.historyCount then
        { s with bufferIdx := 0, inputBuffer := s.inputBuffer.set 0 0#8 }
      else s.recall (s.historyBuffer.get s.historyNavIdx.toNat)
    else s
  else if c = backspace then
    if s.bufferIdx > 0 then
      { s with bufferIdx := s.bufferIdx - 1, inputBuffer := s.inputBuffer.set (s.bufferIdx - 1) 0#8 }
    else s
  else if s.bufferIdx < 255 then
    { s with inputBuffer := s.inputBuffer.set s.bufferIdx c, bufferIdx := s.bufferIdx + 1 }
  else s

/-- A character, and whether the graphics are on when it comes. -/
abbrev Key : Type := Bool × Byte

def press (s : Editor) (k : Key) : Editor := shellInput k.1 k.2 s

/-- The strings in the rows of the history that are in use. -/
def Editor.rows (s : Editor) : List (List Byte) :=
  (List.range s.historyCount).map fun i => cstrAt (s.historyBuffer.get i) 0

/-- The line that is being typed. -/
def Editor.line (s : Editor) : List Byte := (List.range s.bufferIdx).map s.inputBuffer.get

/-! ## What the keys do -/

/-- The line that is being typed, the lines that have been given, and where the arrows are in the history,
counted from its oldest line. -/
structure Prompt where
  line : List Byte
  given : List (List Byte)
  place : ℕ
deriving DecidableEq

/-- The last ten lines that have been given and are not empty, without repetitions. -/
def history (given : List (List Byte)) : List (List Byte) := recent 10 (given.filter (· ≠ []))

def Prompt.start : Prompt := ⟨[], [], 0⟩

/-- What a key does. Behind the last line of the history there is an empty one. -/
def Prompt.press (a : Prompt) (k : Key) : Prompt :=
  if k.1 then a
  else if k.2 = newline then
    { line := [], given := a.given ++ [a.line], place := (history (a.given ++ [a.line])).length }
  else if k.2 = arrowUp then
    if 0 < a.place then
      { a with line := (history a.given).getD (a.place - 1) [], place := a.place - 1 }
    else a
  else if k.2 = arrowDown then
    if a.place < (history a.given).length then
      { a with line := (history a.given).getD (a.place + 1) [], place := a.place + 1 }
    else a
  else if k.2 = backspace then { a with line := a.line.dropLast }
  else if a.line.length < 255 then { a with line := a.line ++ [k.2] }
  else a

/-! ## The invariant -/

/-- What holds between two characters. -/
structure Editor.Kept (s : Editor) : Prop where
  idx : s.bufferIdx ≤ 255
  typed : ∀ j < s.bufferIdx, s.inputBuffer.get j ≠ 0#8
  count : s.historyCount ≤ 10
  nav : 0 ≤ s.historyNavIdx
  nav_le : s.historyNavIdx ≤ s.historyCount
  short : ∀ r ∈ s.rows, r.length < 256
  rows : s.rows = history s.executed

section Strings

variable {s : Editor}

@[simp] theorem Editor.terminate_bufferIdx (s : Editor) : s.terminate.bufferIdx = s.bufferIdx := rfl

@[simp] theorem Editor.terminate_rows (s : Editor) : s.terminate.rows = s.rows := rfl

theorem Editor.terminate_get {j : ℕ} (h : j < s.bufferIdx) :
    s.terminate.inputBuffer.get j = s.inputBuffer.get j :=
  Table.get_set_ne _ h.ne _

theorem Editor.line_length (s : Editor) : s.line.length = s.bufferIdx := by
  rw [Editor.line, List.length_map, List.length_range]

theorem Editor.getElem_line {k : ℕ} (h : k < s.line.length) : s.line[k] = s.inputBuffer.get k := by
  simp [Editor.line]

theorem Editor.rows_length (s : Editor) : s.rows.length = s.historyCount := by
  rw [Editor.rows, List.length_map, List.length_range]

theorem Editor.mem_rows {i : ℕ} (h : i < s.historyCount) : cstrAt (s.historyBuffer.get i) 0 ∈ s.rows :=
  List.mem_map.mpr ⟨i, List.mem_range.mpr h, rfl⟩

theorem Editor.Kept.line_ne_zero (h : s.Kept) : ∀ c ∈ s.line, c ≠ 0#8 := by
  intro c hc
  obtain ⟨j, hj, rfl⟩ := List.mem_map.mp hc
  exact h.typed j (List.mem_range.mp hj)

/-- With its terminator behind it the line is the string in the buffer. -/
theorem Editor.Kept.cstrAt_terminated (h : s.Kept) :
    cstrAt s.terminate.inputBuffer 0 = s.line := by
  have hidx := h.idx
  refine cstrAt_eq_of_bytes h.line_ne_zero (by rw [s.line_length]; omega) (fun k hk => ?_) ?_
  · rw [s.line_length] at hk
    rw [Nat.zero_add, Editor.terminate_get hk, Editor.getElem_line]
  · rw [s.line_length, Nat.zero_add]
    exact Table.get_set_self _ (by omega) _

/-- Copied into a row it is the string in the row. -/
theorem Editor.Kept.cstrAt_stored (h : s.Kept) (row : Table 256 Byte) :
    cstrAt (s.terminate.stored row) 0 = s.line := by
  have hidx := h.idx
  rw [← h.cstrAt_terminated]
  have hlen : (cstrAt s.terminate.inputBuffer 0).length < s.bufferIdx + 1 := by
    rw [h.cstrAt_terminated, s.line_length]
    exact Nat.lt_succ_self _
  refine cstrAt_congr hlen (by omega) fun k hk => ?_
  rw [Nat.zero_add, Editor.stored, Table.get_patch _ _ (by omega),
    if_pos ⟨Nat.zero_le _, by simpa using hk⟩, Nat.sub_zero]

end Strings

/-! ## One character -/

namespace Editor.Kept

variable {s : Editor} {i : ℕ}

/-- After `init_shell`, whatever the rows hold. -/
theorem initShell (s : Editor) : (initShell s).Kept where
  idx := Nat.zero_le _
  typed := fun _ hj => absurd hj (Nat.not_lt_zero _)
  count := Nat.zero_le _
  nav := le_rfl
  nav_le := le_rfl
  short := fun _ hr => absurd hr List.not_mem_nil
  rows := recent_nil.symm

/-- A row that is copied into the buffer is the line in it. -/
theorem copied (h : s.Kept) (hi : i < s.historyCount) :
    (s.recall (s.historyBuffer.get i)).Kept ∧
      (s.recall (s.historyBuffer.get i)).line = cstrAt (s.historyBuffer.get i) 0 := by
  have hlen := h.short _ (Editor.mem_rows hi)
  have hget (j : ℕ) (hj : j < (cstrAt (s.historyBuffer.get i) 0).length) :
      (s.recall (s.historyBuffer.get i)).inputBuffer.get j = (cstrAt (s.historyBuffer.get i) 0)[j] := by
    have hrow := get_cstrAt (s.historyBuffer.get i) hj
    rw [Nat.zero_add] at hrow
    rw [Editor.recall, Table.get_set_ne _ hj.ne, Table.get_patch _ _ (by omega), if_pos (by omega),
      Nat.sub_zero, hrow]
  refine ⟨{ h with idx := Nat.le_of_lt_succ hlen, typed := fun j hj => ?_ }, ?_⟩
  · rw [hget j hj]
    exact cstrAt_noNul _ _ _ (List.getElem_mem hj)
  · refine List.ext_getElem (Editor.line_length _) fun j hj _ => ?_
    rw [Editor.line_length] at hj
    rw [Editor.getElem_line]
    exact hget j hj

/-- The terminator behind the line. -/
theorem terminate (h : s.Kept) : s.terminate.Kept ∧ s.terminate.line = s.line := by
  refine ⟨{ h with typed := fun j hj => ?_ }, List.map_congr_left fun j hj => ?_⟩
  · rw [Editor.terminate_bufferIdx] at hj
    rw [Editor.terminate_get hj]
    exact h.typed j hj
  · exact Editor.terminate_get (List.mem_range.mp hj)

theorem getLast?_rows (s : Editor) (h : s.historyCount ≠ 0) :
    s.rows.getLast? = some (cstrAt (s.historyBuffer.get (s.historyCount - 1)) 0) := by
  obtain ⟨n, hn⟩ := Nat.exists_eq_succ_of_ne_zero h
  rw [Editor.rows, hn, List.range_succ, List.map_append, List.map_singleton, List.getLast?_concat]
  rfl

/-- The comparison of the line with the last row. -/
theorem differs_iff (s : Editor) : (s.historyCount = 0 ∨
    strcmp (cstrAt (s.historyBuffer.get (s.historyCount - 1)) 0) (cstrAt s.inputBuffer 0) ≠ 0) ↔
      s.rows.getLast? ≠ some (cstrAt s.inputBuffer 0) := by
  by_cases h : s.historyCount = 0
  · refine iff_of_true (.inl h) ?_
    rw [Editor.rows, h]
    exact nofun
  · rw [getLast?_rows s h, or_iff_right h, ne_eq, ne_eq,
      strcmp_eq_zero_iff (cstrAt_noNul _ _) (cstrAt_noNul _ _), Option.some.injEq]

/-- A row that was not in use. -/
theorem rows_add (s : Editor) (row : Table 256 Byte) (h : s.historyCount < 10) :
    ({ s with
      historyBuffer := s.historyBuffer.set s.historyCount row
      historyCount := s.historyCount + 1 } : Editor).rows = s.rows ++ [cstrAt row 0] := by
  rw [Editor.rows, List.range_succ, List.map_append, List.map_singleton, Table.get_set_self _ h]
  congr 1
  exact List.map_congr_left fun i hi => by rw [Table.get_set_ne _ (List.mem_range.mp hi).ne]

/-- All rows have moved up. -/
theorem rows_shift (s : Editor) (row : Table 256 Byte) (h : s.historyCount = 10) :
    ({ s with historyBuffer := s.shifted.set 9 row } : Editor).rows = s.rows.tail ++ [cstrAt row 0] := by
  have htail : s.rows.tail = (List.range 9).map fun i => cstrAt (s.historyBuffer.get (i + 1)) 0 := by
    rw [Editor.rows, h, List.range_succ_eq_map, List.map_cons, List.tail_cons, List.map_map]
    rfl
  rw [htail, Editor.rows]
  dsimp only
  rw [h, List.range_succ, List.map_append, List.map_singleton, Table.get_set_self _ (by decide)]
  refine congrArg (· ++ _) (List.map_congr_left fun i hi => ?_)
  have hlt := List.mem_range.mp hi
  rw [Table.get_set_ne _ hlt.ne, Editor.shifted, Table.get_ofFn _ (by omega), if_pos hlt]

/-- The rows after the line has been remembered. -/
theorem rows_remember (h : s.Kept) (hline : cstrAt s.inputBuffer 0 = s.line)
    (hstored : ∀ row, cstrAt (s.stored row) 0 = s.line) : s.remember.rows =
      if s.line = [] ∨ s.rows.getLast? = some s.line then s.rows else (s.rows ++ [s.line]).rtake 10 := by
  have hempty : 0 < s.bufferIdx ↔ s.line ≠ [] := by
    rw [← s.line_length]
    exact List.length_pos_iff
  have hskip_iff : s.line ≠ [] ∧ s.rows.getLast? ≠ some (cstrAt s.inputBuffer 0) ↔
      ¬(s.line = [] ∨ s.rows.getLast? = some s.line) := by rw [hline, not_or]
  have hcond := (and_congr hempty (differs_iff s)).trans hskip_iff
  by_cases hskip : s.line = [] ∨ s.rows.getLast? = some s.line
  · rw [Editor.remember, if_pos hskip, if_neg fun hdiffers => hcond.mp hdiffers hskip]
  · have hcount := h.count
    rw [Editor.remember, if_neg hskip, if_pos (hcond.mpr hskip),
      rtake_concat _ _ (s.rows_length.trans_le hcount), s.rows_length]
    by_cases hroom : s.historyCount < 10
    · rw [if_pos hroom, if_pos (Nat.le_of_lt_succ hroom)]
      exact rows_add s _ hroom ▸ hstored _ ▸ rfl
    · rw [if_neg hroom, if_neg (by omega)]
      exact rows_shift s _ (by omega) ▸ hstored _ ▸ rfl

/-- What `remember` leaves alone. -/
theorem remember_frame (s : Editor) : s.remember.inputBuffer = s.inputBuffer ∧
    s.remember.bufferIdx = s.bufferIdx ∧ s.remember.executed = s.executed := by
  rw [Editor.remember]
  split
  · split <;> exact ⟨rfl, rfl, rfl⟩
  · exact ⟨rfl, rfl, rfl⟩

/-- A newline: the line is executed, and the history has it. -/
theorem newline (h : s.Kept) : (shellInput false newline s).Kept ∧
    (shellInput false newline s).executed = s.executed ++ [s.line] := by
  change s.terminate.remember.submit.Kept ∧ s.terminate.remember.submit.executed = _
  -- the line is terminated, then remembered, then executed
  obtain ⟨hterm, hline⟩ := h.terminate
  have hinput : cstrAt s.terminate.inputBuffer 0 = s.terminate.line := h.cstrAt_terminated.trans hline.symm
  have hrows := rows_remember hterm hinput fun row => (h.cstrAt_stored row).trans hline.symm
  obtain ⟨hframe, hidx, hexecuted⟩ := remember_frame s.terminate
  have hexec : s.terminate.remember.submit.executed = s.executed ++ [s.line] := by
    rw [Editor.submit, hframe, hexecuted, hinput, hline]
    rfl
  refine ⟨?_, hexec⟩
  rw [hline, Editor.terminate_rows] at hrows
  -- an empty line is executed but not remembered
  have hkeep : s.terminate.remember.rows = history (s.executed ++ [s.line]) := by
    by_cases hempty : s.line = []
    · rw [hrows, if_pos (.inl hempty), hempty, history, List.filter_append, List.filter_singleton]
      simpa [history] using h.rows
    · have hfilter : (s.executed ++ [s.line]).filter (· ≠ []) = s.executed.filter (· ≠ []) ++ [s.line] := by
        rw [List.filter_append, List.filter_singleton]
        simp [hempty]
      rw [history, hfilter, recent_concat, ← history, ← h.rows, hrows]
      simp only [hempty, false_or]
  have hlen : s.terminate.remember.historyCount ≤ 10 := by
    rw [← Editor.rows_length, hkeep]
    exact recent_length_le _
  exact
    { idx := Nat.zero_le _
      typed := fun _ hj => absurd hj (Nat.not_lt_zero _)
      count := hlen
      nav := Int.natCast_nonneg _
      nav_le := le_rfl
      short := by
        intro r hr
        change r ∈ s.terminate.remember.rows at hr
        rw [hrows] at hr
        split at hr
        · exact h.short r hr
        · -- one of the rows before, or the line
          rcases List.mem_append.mp (List.mem_of_mem_drop hr) with hr | hr
          · exact h.short r hr
          · rw [List.mem_singleton.mp hr, s.line_length]
            exact Nat.lt_succ_of_le h.idx
      rows := hexec ▸ hkeep }

theorem type (h : s.Kept) {c : Byte} (hc : c ≠ 0#8) (hlt : s.bufferIdx < 255) :
    ({ s with
      inputBuffer := s.inputBuffer.set s.bufferIdx c
      bufferIdx := s.bufferIdx + 1 } : Editor).Kept :=
  { h with
    idx := hlt
    typed := by
      intro j hj
      change (s.inputBuffer.set s.bufferIdx c).get j ≠ 0#8
      rw [Table.get_set _ (by omega)]
      split
      · exact hc
      · exact h.typed j (by change j < s.bufferIdx + 1 at hj; omega) }

theorem line_type (s : Editor) (c : Byte) (hlt : s.bufferIdx < 255) :
    ({ s with
      inputBuffer := s.inputBuffer.set s.bufferIdx c
      bufferIdx := s.bufferIdx + 1 } : Editor).line = s.line ++ [c] := by
  rw [Editor.line, List.range_succ, List.map_append, List.map_singleton, Table.get_set_self _ (by omega)]
  refine congrArg (· ++ _) (List.map_congr_left fun j hj => ?_)
  exact Table.get_set_ne _ (List.mem_range.mp hj).ne _

theorem erase (h : s.Kept) :
    ({ s with
      bufferIdx := s.bufferIdx - 1
      inputBuffer := s.inputBuffer.set (s.bufferIdx - 1) 0#8 } : Editor).Kept :=
  { h with
    idx := (Nat.sub_le _ _).trans h.idx
    typed := by
      intro j hj
      change j < s.bufferIdx - 1 at hj
      change (s.inputBuffer.set (s.bufferIdx - 1) 0#8).get j ≠ 0#8
      rw [Table.get_set_ne _ hj.ne]
      exact h.typed j (by omega) }

theorem line_erase (s : Editor) :
    ({ s with
      bufferIdx := s.bufferIdx - 1
      inputBuffer := s.inputBuffer.set (s.bufferIdx - 1) 0#8 } : Editor).line = s.line.dropLast := by
  refine List.ext_getElem ?_ fun j hj hj' => ?_
  · rw [Editor.line_length, List.length_dropLast, Editor.line_length]
  · rw [Editor.line_length] at hj
    rw [Editor.getElem_line, List.getElem_dropLast, Editor.getElem_line]
    exact Table.get_set_ne _ hj.ne _

/-- The arrow up, when there is a line to go back to. -/
theorem arrowUp (h : s.Kept) (hpos : 0 < s.historyNavIdx) : (shellInput false arrowUp s).Kept ∧
    (shellInput false arrowUp s).executed = s.executed ∧
    (shellInput false arrowUp s).historyNavIdx = s.historyNavIdx - 1 ∧
    s.rows[(s.historyNavIdx - 1).toNat]? = some (shellInput false arrowUp s).line := by
  have hle := h.nav_le
  have hback : ({ s with historyNavIdx := s.historyNavIdx - 1 } : Editor).Kept :=
    { h with
      nav := Int.sub_nonneg_of_le hpos
      nav_le := (Int.sub_le_self _ Int.one_nonneg).trans hle }
  have hi : (s.historyNavIdx - 1).toNat < s.historyCount := by omega
  have hinput : shellInput false Ui.arrowUp s =
      if s.historyCount > 0 ∧ s.historyNavIdx > 0 then
        Editor.recall { s with historyNavIdx := s.historyNavIdx - 1 }
          (s.historyBuffer.get (s.historyNavIdx - 1).toNat)
      else s := rfl
  obtain ⟨hkept, hline⟩ := hback.copied hi
  rw [hinput, if_pos ⟨by omega, hpos⟩]
  refine ⟨hkept, rfl, rfl, ?_⟩
  rw [hline, Editor.rows, List.getElem?_map, List.getElem?_range hi]
  rfl

/-- The arrow down, when the arrows are not behind the last line. -/
theorem arrowDown (h : s.Kept) (hlt : s.historyNavIdx < s.historyCount) :
    (shellInput false arrowDown s).Kept ∧
    (shellInput false arrowDown s).executed = s.executed ∧
    (shellInput false arrowDown s).historyNavIdx = s.historyNavIdx + 1 ∧
    (shellInput false arrowDown s).line = s.rows.getD (s.historyNavIdx + 1).toNat [] := by
  have hnav := h.nav
  have hnext : ({ s with historyNavIdx := s.historyNavIdx + 1 } : Editor).Kept :=
    { h with nav := Int.add_nonneg hnav Int.one_nonneg, nav_le := hlt }
  have hinput : shellInput false Ui.arrowDown s =
      if s.historyNavIdx < s.historyCount then
        if s.historyNavIdx + 1 = s.historyCount then
          { s with historyNavIdx := s.historyNavIdx + 1, bufferIdx := 0, inputBuffer := s.inputBuffer.set 0 0#8 }
        else
          Editor.recall { s with historyNavIdx := s.historyNavIdx + 1 }
            (s.historyBuffer.get (s.historyNavIdx + 1).toNat)
      else s := rfl
  rw [hinput, if_pos hlt]
  split
  · next heq =>
    refine ⟨{ hnext with idx := Nat.zero_le _, typed := fun _ hj => absurd hj (Nat.not_lt_zero _) }, rfl, rfl, ?_⟩
    rw [List.getD_eq_default _ _ (by rw [s.rows_length]; omega)]
    rfl
  · next hne =>
    have hi : (s.historyNavIdx + 1).toNat < s.historyCount := by omega
    obtain ⟨hkept, hline⟩ := hnext.copied hi
    refine ⟨hkept, rfl, rfl, hline.trans ?_⟩
    rw [List.getD_eq_getElem?_getD, Editor.rows, List.getElem?_map, List.getElem?_range hi]
    rfl

end Editor.Kept

/-! ## The simulation -/

/-- The buffers hold the line, and the rows the history. -/
structure Shows (a : Prompt) (s : Editor) : Prop where
  kept : s.Kept
  line : s.line = a.line
  given : s.executed = a.given
  place : s.historyNavIdx = a.place

namespace Shows

variable {a : Prompt} {s : Editor}

theorem start (s : Editor) : Shows .start (initShell s) := ⟨.initShell s, rfl, rfl, rfl⟩

theorem rows (h : Shows a s) : s.rows = history a.given := h.given ▸ h.kept.rows

theorem historyCount (h : Shows a s) : s.historyCount = (history a.given).length := by
  rw [← h.rows, s.rows_length]

theorem bufferIdx (h : Shows a s) : s.bufferIdx = a.line.length := by
  rw [← h.line, s.line_length]

theorem newline (h : Shows a s) : Shows (a.press (false, Ui.newline)) (shellInput false Ui.newline s) := by
  obtain ⟨hkept, hexecuted⟩ := h.kept.newline
  rw [h.given, h.line] at hexecuted
  refine ⟨hkept, rfl, hexecuted, ?_⟩
  have hcount : (shellInput false Ui.newline s).historyCount = (history (a.given ++ [a.line])).length := by
    rw [← hexecuted, ← hkept.rows, Editor.rows_length]
  exact congrArg Int.ofNat hcount

theorem arrowUp (h : Shows a s) : Shows (a.press (false, Ui.arrowUp)) (shellInput false Ui.arrowUp s) := by
  change Shows (if 0 < a.place then _ else a) _
  by_cases hpos : 0 < a.place
  · have hnav : 0 < s.historyNavIdx := by
      rw [h.place]
      exact_mod_cast hpos
    obtain ⟨hkept, hexecuted, hplace, hline⟩ := h.kept.arrowUp hnav
    have hindex : (s.historyNavIdx - 1).toNat = a.place - 1 := by
      rw [h.place]
      omega
    rw [if_pos hpos]
    refine ⟨hkept, ?_, hexecuted.trans h.given, ?_⟩
    · dsimp only
      rw [List.getD_eq_getElem?_getD, ← h.rows, ← hindex, hline]
      rfl
    · rw [hplace, h.place]
      dsimp only
      omega
  · rw [if_neg hpos]
    have hnav : ¬s.historyNavIdx > 0 := by
      rw [h.place]
      exact_mod_cast hpos
    change Shows a (if s.historyCount > 0 ∧ s.historyNavIdx > 0 then _ else s)
    rwa [if_neg fun hback => hnav hback.2]

theorem arrowDown (h : Shows a s) :
    Shows (a.press (false, Ui.arrowDown)) (shellInput false Ui.arrowDown s) := by
  change Shows (if a.place < (history a.given).length then _ else a) _
  have hiff : s.historyNavIdx < s.historyCount ↔ a.place < (history a.given).length := by
    rw [h.place, h.historyCount, Nat.cast_lt]
  by_cases hlt : a.place < (history a.given).length
  · obtain ⟨hkept, hexecuted, hplace, hline⟩ := h.kept.arrowDown (hiff.mpr hlt)
    have hindex : (s.historyNavIdx + 1).toNat = a.place + 1 := by
      rw [h.place]
      omega
    rw [hindex, h.rows] at hline
    rw [if_pos hlt]
    exact ⟨hkept, hline, hexecuted.trans h.given, by rw [hplace, h.place]; rfl⟩
  · rw [if_neg hlt]
    change Shows a (if s.historyNavIdx < s.historyCount then _ else s)
    rwa [if_neg fun hdown => hlt (hiff.mp hdown)]

theorem backspace (h : Shows a s) :
    Shows (a.press (false, Ui.backspace)) (shellInput false Ui.backspace s) := by
  change Shows { a with line := a.line.dropLast } (if s.bufferIdx > 0 then _ else s)
  split
  · exact ⟨h.kept.erase, (Editor.Kept.line_erase s).trans (by rw [h.line]), h.given, h.place⟩
  · next hzero =>
    -- there is nothing to take away
    have hempty : a.line = [] := List.eq_nil_of_length_eq_zero (by rw [← h.bufferIdx]; omega)
    exact ⟨h.kept, h.line.trans (by rw [hempty]; rfl), h.given, h.place⟩

/-- What one character does. -/
theorem press (h : Shows a s) {k : Key} (hk : k.2 ≠ 0#8) : Shows (a.press k) (Ui.press s k) := by
  obtain ⟨active, c⟩ := k
  -- the graphical shell takes no characters here
  cases active with
  | true => exact h
  | false =>
    by_cases hnewline : c = Ui.newline
    · exact hnewline ▸ h.newline
    by_cases hup : c = Ui.arrowUp
    · exact hup ▸ h.arrowUp
    by_cases hdown : c = Ui.arrowDown
    · exact hdown ▸ h.arrowDown
    by_cases hback : c = Ui.backspace
    · exact hback ▸ h.backspace
    · rw [Ui.press, shellInput, Prompt.press, if_neg Bool.false_ne_true, if_neg Bool.false_ne_true,
        if_neg hnewline, if_neg hnewline, if_neg hup, if_neg hup, if_neg hdown, if_neg hdown, if_neg hback,
        if_neg hback, h.bufferIdx]
      split
      · next hlt =>
        rw [← h.bufferIdx] at hlt ⊢
        exact ⟨h.kept.type hk hlt, (Editor.Kept.line_type s c hlt).trans (by rw [h.line]), h.given, h.place⟩
      · exact h

end Shows

/-- After every sequence of characters. -/
theorem shows_run (s : Editor) {keys : List Key} (h : ∀ k ∈ keys, k.2 ≠ 0#8) :
    Shows (keys.foldl Prompt.press .start) (keys.foldl press (initShell s)) := by
  induction keys using List.reverseRecOn with
  | nil => exact .start s
  | append_singleton keys k ih =>
    rw [List.foldl_append, List.foldl_append]
    have hkeys := ih fun k' hk' => h k' (List.mem_append_left _ hk')
    exact hkeys.press (h k (List.mem_append_right _ List.mem_cons_self))

/-- A string in a row that is shorter than the row has a terminator there. -/
theorem exists_terminator {row : Table 256 Byte} (h : (cstrAt row 0).length < 256) :
    ∃ j < 256, row.get j = 0#8 := by
  refine ⟨_, h, ?_⟩
  have hend := @get_cstrAt_length 256 row 0 (by omega)
  rwa [Nat.zero_add] at hend

/-- **The line editor.** After any characters the buffers hold the line, the given lines and the place in
the history that the keys make; the indices are in their bounds, each row in use has a terminator, the rows
are the last ten of the lines that have been given and are not empty, without repetitions, and with a line
to go back to, the arrow up and a newline execute that line. -/
theorem line_editor (s : Editor) (keys : List Key) (h : ∀ k ∈ keys, k.2 ≠ 0#8) :
    let s' := keys.foldl press (initShell s)
    let a := keys.foldl Prompt.press .start
    (s'.line = a.line ∧ s'.executed = a.given ∧ s'.historyNavIdx = a.place) ∧
      s'.bufferIdx ≤ 255 ∧
      (0 ≤ s'.historyNavIdx ∧ s'.historyNavIdx ≤ s'.historyCount ∧ s'.historyCount ≤ 10) ∧
      (∀ i < s'.historyCount, ∃ j < 256, (s'.historyBuffer.get i).get j = 0#8) ∧
      s'.rows = ((a.given.filter (· ≠ [])).destutter (· ≠ ·)).rtake 10 ∧
      (0 < a.place → ∃ line, s'.rows[a.place - 1]? = some line ∧
        (shellInput false newline (shellInput false arrowUp s')).executed = a.given ++ [line]) := by
  intro s' a
  have hshows : Shows a s' := shows_run s h
  have hkept := hshows.kept
  refine ⟨⟨hshows.line, hshows.given, hshows.place⟩, hkept.idx, ⟨hkept.nav, hkept.nav_le, hkept.count⟩,
    fun i hi => ?_, hshows.rows, fun hpos => ?_⟩
  · exact exists_terminator (hkept.short _ (Editor.mem_rows hi))
  · have hnav : 0 < s'.historyNavIdx := by
      rw [hshows.place]
      exact_mod_cast hpos
    obtain ⟨hup, hexecuted, -, hline⟩ := hkept.arrowUp hnav
    refine ⟨_, ?_, hshows.given ▸ hexecuted ▸ hup.newline.2⟩
    rw [← hline, hshows.place]
    congr 1
    omega

/-- Two lines, in the second of which a letter is taken back; the arrow up and a newline give it again. -/
theorem line_editor_recalled :
    let keys := [(false, 97#8), (false, newline), (false, 98#8), (false, backspace), (false, 99#8),
      (false, newline)]
    let s' := keys.foldl press (initShell ⟨default, 0, default, 0, -1, []⟩)
    s'.executed = [[97#8], [99#8]] ∧ s'.rows = [[97#8], [99#8]] ∧
      (shellInput false newline (shellInput false arrowUp s')).executed = [[97#8], [99#8], [99#8]] := by
  intro keys s'
  obtain ⟨⟨-, hexecuted, -⟩, -, -, -, hrows, hup⟩ := line_editor ⟨default, 0, default, 0, -1, []⟩ keys
    (by simp [keys, newline, backspace])
  obtain ⟨line, hline, hgiven⟩ := hup (by decide)
  have hlines : s'.rows = [[97#8], [99#8]] := hrows.trans (by decide)
  rw [hlines] at hline
  obtain rfl : [99#8] = line := Option.some.inj hline
  exact ⟨hexecuted.trans (by decide), hlines, hgiven.trans (by decide)⟩

end PekerOS.Ui
