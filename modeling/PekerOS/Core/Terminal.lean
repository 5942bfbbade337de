import PekerOS.Lib.Screen
import PekerOS.Core.CString

/-!
# The text terminal

The text screen is 4000 bytes at `0xC00B8000`, a character and an attribute for each cell of 25 rows of 80.
`put_char` writes a cell and moves the cursor; when the cursor comes below the last row, `scroll` copies
the rows up, byte by byte, and blanks the last one. The bytes are those of a scrolling screen, so they show
the last 25 rows of what an endless screen would hold.

## Main definitions

* `State`, `clearScr`, `scroll`, `putChar`, `putStr`: the variables and the functions of `kernel.c`
* `stroke`, `layout`: a character on a screen, and the endless screen with all of them
* `Holds`: the bytes are the cells of a screen

## Main results

* `Holds.putChar`, `Holds.putChars`: one character, and a sequence of them
* `terminal_shows_tail`: the cursor, the stores and the screen after a sequence of characters
-/

namespace PekerOS.Terminal

/-- A character and its attribute. -/
abbrev Cell : Type := Byte × Byte

/-- A blank, in the attribute that everything is written in. -/
def blank : Cell := (32#8, 0x07#8)

/-- The variables of `kernel.c`; `videoMemory i` is `video_memory[i]`. What has been stored to, and what has
gone to ports, to `serial_write` and to `vbe_write`, is kept in order. -/
structure State where
  terminalRow : Word
  terminalCol : Word
  videoMemory : ℤ → Byte
  stores : List ℤ
  outs : List (BitVec 16 × Byte)
  serial : List Byte
  vbe : List CString

/-- `video_memory[i] = b` -/
def State.store (s : State) (i : ℤ) (b : Byte) : State :=
  { s with videoMemory := Function.update s.videoMemory i b, stores := s.stores ++ [i] }

/-- `video_memory[pos] = c; video_memory[pos+1] = 0x07` -/
def State.putCell (s : State) (pos : ℤ) (c : Byte) : State :=
  (s.store pos c).store (pos + 1) 0x07#8

/-- The loop that blanks `n` cells from byte `i` on. -/
def State.blankCells (s : State) (i n : ℕ) : State :=
  (List.range' i n 2).foldl (fun (s : State) (i : ℕ) => s.putCell i 32#8) s

/-- The loop that copies `n` bytes to one row above. -/
def State.copyUp (s : State) (n : ℕ) : State :=
  (List.range n).foldl (fun (s : State) (i : ℕ) => s.store i (s.videoMemory (i + 80 * 2))) s

/-- `update_cursor` -/
def updateCursor (s : State) : State :=
  let pos := (s.terminalRow * 80#32 + s.terminalCol).setWidth 16
  { s with
    outs := s.outs ++
      [(0x3D4#16, 0x0F#8), (0x3D5#16, (pos &&& 0xFF#16).setWidth 8),
        (0x3D4#16, 0x0E#8), (0x3D5#16, (pos >>> 8 &&& 0xFF#16).setWidth 8)] }

/-- `clear_scr` -/
def clearScr (s : State) : State :=
  updateCursor { s.blankCells 0 (80 * 25) with terminalRow := 0#32, terminalCol := 0#32 }

/-- `scroll` -/
def scroll (s : State) : State :=
  if 25#32 ≤ s.terminalRow then
    { (s.copyUp (24 * 80 * 2)).blankCells (24 * 80 * 2) 80 with terminalRow := 24#32 }
  else s

/-- `(terminal_row * 80 + terminal_col) * 2`, as an `int` -/
def State.pos (s : State) : ℤ := ((s.terminalRow * 80#32 + s.terminalCol) * 2#32).toInt

/-- `'\n'` -/
abbrev newline : Byte := 10#8

/-- `'\b'` -/
abbrev backspace : Byte := 8#8

/-- `terminal_col = 0; terminal_row++` -/
def State.nextRow (s : State) : State :=
  { s with terminalCol := 0#32, terminalRow := s.terminalRow + 1#32 }

/-- The branches of `put_char` in text mode. -/
def State.advance (s : State) (c : Byte) : State :=
  if c = newline then s.nextRow
  else if c = backspace then
    -- at the left edge a backspace does nothing
    if 0#32 < s.terminalCol then
      let s := { s with terminalCol := s.terminalCol - 1#32 }
      s.putCell s.pos 32#8
    else s
  else
    let s := s.putCell s.pos c
    let s := { s with terminalCol := s.terminalCol + 1#32 }
    -- a full row is left at once
    if 80#32 ≤ s.terminalCol then s.nextRow else s

theorem advance_newline (s : State) : s.advance newline = s.nextRow := if_pos rfl

/-- `put_char` -/
def putChar (vbeIsActive : Bool) (s : State) (c : Byte) : State :=
  let s := { s with serial := s.serial ++ [c] }
  if vbeIsActive then { s with vbe := s.vbe ++ [CString.ofBytes [c, 0#8]] }
  else updateCursor (scroll (s.advance c))

/-- One call of `put_char` after the other. -/
def putChars (vbeIsActive : Bool) (s : State) (cs : List Byte) : State :=
  cs.foldl (putChar vbeIsActive) s

/-- `put_str` -/
def putStr (vbeIsActive : Bool) (s : State) (str : CString) : State :=
  putChars vbeIsActive s str.chars

/-! ## The cells of the screen -/

/-- The two bytes from byte `i` on. -/
def State.cellAt (s : State) (i : ℤ) : Cell := (s.videoMemory i, s.videoMemory (i + 1))

/-- The cell in a row and a column. -/
def State.cell (s : State) (r c : ℕ) : Cell := s.cellAt (2 * (80 * r + c))

/-- All stores have gone to the screen. -/
def State.Inside (s : State) : Prop := ∀ i ∈ s.stores, 0 ≤ i ∧ i < 4000

section Cells

variable {s : State} {i j : ℤ} {c : Byte} {a k n : ℕ}

@[simp] theorem store_videoMemory (s : State) (i : ℤ) (b : Byte) (j : ℤ) :
    (s.store i b).videoMemory j = if j = i then b else s.videoMemory j :=
  Function.update_apply _ _ _ _

@[simp] theorem putCell_terminalCol (s : State) (i : ℤ) (c : Byte) :
    (s.putCell i c).terminalCol = s.terminalCol := rfl

theorem cellAt_putCell_self : (s.putCell i c).cellAt i = (c, 0x07#8) := by
  simp [State.cellAt, State.putCell]

theorem cellAt_putCell_ne (h : j + 2 ≤ i ∨ i + 2 ≤ j) : (s.putCell i c).cellAt j = s.cellAt j := by
  have h₁ : j ≠ i ∧ j ≠ i + 1 := by omega
  have h₂ : j + 1 ≠ i ∧ j + 1 ≠ i + 1 := by omega
  simp only [State.cellAt, State.putCell, store_videoMemory, if_neg h₁.1, if_neg h₁.2, if_neg h₂.1,
    if_neg h₂.2]

theorem State.Inside.store (h : s.Inside) (hi : 0 ≤ i ∧ i < 4000) (b : Byte) :
    (s.store i b).Inside := by
  intro j hj
  rcases List.mem_append.mp hj with hj | hj
  · exact h j hj
  · rwa [List.mem_singleton.mp hj]

theorem State.Inside.putCell (h : s.Inside) (hi : 0 ≤ i ∧ i + 1 < 4000) (c : Byte) :
    (s.putCell i c).Inside :=
  (h.store ⟨hi.1, by omega⟩ c).store ⟨by omega, hi.2⟩ _

/-! ### The loops -/

theorem blankCells_succ (s : State) (a n : ℕ) :
    s.blankCells a (n + 1) = (s.blankCells a n).putCell (a + 2 * n : ℕ) 32#8 := by
  rw [State.blankCells, List.range'_concat, List.foldl_append]
  rfl

theorem copyUp_succ (s : State) (n : ℕ) :
    s.copyUp (n + 1) = (s.copyUp n).store n ((s.copyUp n).videoMemory (n + 80 * 2)) := by
  rw [State.copyUp, List.range_succ, List.foldl_append]
  rfl

theorem cellAt_blankCells_ne (h : j + 2 ≤ a ∨ a + 2 * n ≤ j) :
    (s.blankCells a n).cellAt j = s.cellAt j := by
  induction n with
  | zero => rfl
  | succ n ih =>
    rw [blankCells_succ, cellAt_putCell_ne (by omega)]
    exact ih (by omega)

theorem cellAt_blankCells (h : k < n) : (s.blankCells a n).cellAt (a + 2 * k : ℕ) = blank := by
  induction n with
  | zero => exact absurd h (Nat.not_lt_zero k)
  | succ n ih =>
    rw [blankCells_succ]
    rcases Nat.lt_succ_iff_lt_or_eq.mp h with h | rfl
    · rw [cellAt_putCell_ne (by omega)]
      exact ih h
    · exact cellAt_putCell_self

/-- A byte that is copied has not been overwritten, because the bytes are copied in their order. -/
theorem copyUp_videoMemory (s : State) (n : ℕ) (j : ℤ) : (s.copyUp n).videoMemory j =
    if 0 ≤ j ∧ j < n then s.videoMemory (j + 80 * 2) else s.videoMemory j := by
  induction n generalizing j with
  | zero => rw [if_neg (by omega)]; rfl
  | succ n ih =>
    rw [copyUp_succ, store_videoMemory, ih, ih]
    by_cases hj : j = n
    · rw [if_pos hj, if_neg (by omega), if_pos (by omega), hj]
    · have hiff : (0 ≤ j ∧ j < (n + 1 : ℕ)) ↔ 0 ≤ j ∧ j < n := by omega
      simp only [if_neg hj, hiff]

theorem cellAt_copyUp (h : 0 ≤ j ∧ j + 1 < n) : (s.copyUp n).cellAt j = s.cellAt (j + 80 * 2) := by
  simp only [State.cellAt, copyUp_videoMemory]
  rw [if_pos (by omega), if_pos (by omega), add_right_comm j 1]

theorem blankCells_terminalCol (s : State) (a n : ℕ) :
    (s.blankCells a n).terminalCol = s.terminalCol := by
  induction n with
  | zero => rfl
  | succ n ih => rw [blankCells_succ, putCell_terminalCol, ih]

theorem copyUp_terminalCol (s : State) (n : ℕ) : (s.copyUp n).terminalCol = s.terminalCol := by
  induction n with
  | zero => rfl
  | succ n ih => rw [copyUp_succ, ← ih]; rfl

theorem State.Inside.blankCells (h : s.Inside) (hn : a + 2 * n ≤ 4000) :
    (s.blankCells a n).Inside := by
  induction n with
  | zero => exact h
  | succ n ih =>
    rw [blankCells_succ]
    exact (ih (by omega)).putCell (by omega) _

theorem State.Inside.copyUp (h : s.Inside) (hn : n ≤ 4000) : (s.copyUp n).Inside := by
  induction n with
  | zero => exact h
  | succ n ih =>
    rw [copyUp_succ]
    exact (ih (by omega)).store (by omega) _

/-- The cells after the two loops of `scroll`. -/
theorem cell_scrolled (s : State) {r c : ℕ} (hr : r < 25) (hc : c < 80) :
    ((s.copyUp (24 * 80 * 2)).blankCells (24 * 80 * 2) 80).cell r c =
      if r < 24 then s.cell (r + 1) c else blank := by
  rw [State.cell]
  split
  · next hrow =>
    have habove : (2 * (80 * r + c) + 80 * 2 : ℤ) = 2 * (80 * (r + 1 : ℕ) + c) := by push_cast; ring
    rw [cellAt_blankCells_ne (by omega), cellAt_copyUp (by omega), habove, State.cell]
  · next hlast =>
    have hcell : (2 * (80 * r + c) : ℤ) = (24 * 80 * 2 + 2 * c : ℕ) := by omega
    rw [hcell]
    exact cellAt_blankCells hc

/-- The cells after the loop of `clear_scr`. -/
theorem cell_cleared (s : State) {r c : ℕ} (hr : r < 25) (hc : c < 80) :
    (s.blankCells 0 (80 * 25)).cell r c = blank := by
  have hcell : (2 * (80 * r + c) : ℤ) = (0 + 2 * (80 * r + c) : ℕ) := by omega
  rw [State.cell, hcell]
  exact cellAt_blankCells (by omega)

end Cells

/-! ## The terminal as a scrolling screen -/

/-- What a character does on a screen. -/
def stroke (c : Byte) : Stroke Cell :=
  if c = newline then .newline
  else if c = backspace then .erase
  else .put (c, 0x07#8)

/-- The endless screen of rows of 80 cells, with the characters written on it. -/
def layout (cs : List Byte) : Screen 80 Cell :=
  (cs.map stroke).foldl (Screen.type Screen.lineFeed blank) (Screen.empty 80 blank)

/-- The variables and the bytes of the terminal are those of the screen `g`. -/
structure Holds (s : State) (g : Screen 80 Cell) : Prop where
  row : s.terminalRow.toNat = g.row
  col : s.terminalCol.toNat = g.col
  row_lt : g.row < 25
  cells : ∀ r < 25, ∀ c < 80, s.cell r c = g.cells r c
  inside : s.Inside

section Holds

variable {s : State} {g : Screen 80 Cell}

theorem Holds.updateCursor (h : Holds s g) : Holds (updateCursor s) g :=
  ⟨h.row, h.col, h.row_lt, h.cells, h.inside⟩

theorem Holds.pos (h : Holds s g) : s.pos = 2 * (80 * g.row + g.col) := by
  have hrow := h.row
  have hcol := h.col
  have hlt := h.row_lt
  have hcol_lt := g.col_lt
  have hpos : ((s.terminalRow * 80#32 + s.terminalCol) * 2#32).toNat = 2 * (80 * g.row + g.col) := by
    rw [BitVec.toNat_mul, BitVec.toNat_add, BitVec.toNat_mul, hrow, hcol]
    simp only [BitVec.toNat_ofNat]
    omega
  rw [State.pos, BitVec.toInt_eq_toNat_of_lt (by omega), hpos]
  push_cast
  rfl

theorem Holds.putCell (h : Holds s g) (c : Byte) :
    Holds (s.putCell s.pos c) (g.write (c, 0x07#8)) where
  row := h.row
  col := h.col
  row_lt := h.row_lt
  cells r hr c' hc' := by
    have hlt := g.col_lt
    rw [h.pos, State.cell]
    by_cases heq : r = g.row ∧ c' = g.col
    · rw [heq.1, heq.2, cellAt_putCell_self]
      exact (if_pos ⟨rfl, rfl⟩).symm
    · rw [cellAt_putCell_ne (by omega)]
      exact (h.cells r hr c' hc').trans (if_neg heq).symm
  inside := by
    have hlt := g.col_lt
    have hrow := h.row_lt
    rw [h.pos]
    exact h.inside.putCell (by omega) c

theorem Holds.move (h : Holds s g) {w : Word} {c : ℕ} (hc : c < 80) (hw : w.toNat = c) :
    Holds { s with terminalCol := w } (g.move hc) :=
  ⟨h.row, hw, h.row_lt, h.cells, h.inside⟩

/-- On a row of the screen nothing is to be scrolled. -/
theorem Holds.scroll_eq (h : Holds s g) : scroll s = s := by
  have hrow := h.row
  have hlt := h.row_lt
  rw [scroll, if_neg]
  rw [BitVec.le_def, BitVec.toNat_ofNat]
  omega

/-- **Scrolling** after the cursor has gone to the next row. -/
theorem Holds.scroll_nextRow (h : Holds s g) :
    Holds (scroll s.nextRow) (g.scrollFeed 24 blank) := by
  have hrow := h.row
  have hlt := h.row_lt
  have hnext : s.nextRow.terminalRow.toNat = g.row + 1 := by
    rw [State.nextRow, BitVec.toNat_add, BitVec.toNat_ofNat]
    omega
  rw [Screen.scrollFeed]
  split
  · next hroom =>
    -- there is a row below
    have hg : Holds s.nextRow g.lineFeed :=
      ⟨hnext, rfl, Nat.succ_lt_succ hroom, h.cells, h.inside⟩
    rwa [hg.scroll_eq]
  · next hfull =>
    have hge : 25#32 ≤ s.nextRow.terminalRow := by
      rw [BitVec.le_def, hnext, BitVec.toNat_ofNat]
      omega
    have hcol : ((s.nextRow.copyUp (24 * 80 * 2)).blankCells (24 * 80 * 2) 80).terminalCol = 0#32 := by
      rw [blankCells_terminalCol, copyUp_terminalCol]
      rfl
    have hinside : ((s.nextRow.copyUp (24 * 80 * 2)).blankCells (24 * 80 * 2) 80).Inside := by
      have hs : s.nextRow.Inside := h.inside
      exact (hs.copyUp (by omega)).blankCells (by omega)
    have hcells := fun r hr c hc => cell_scrolled s.nextRow (r := r) (c := c) hr hc
    -- the rows move up by one, and the last is blank
    rw [scroll, if_pos hge]
    generalize (s.nextRow.copyUp (24 * 80 * 2)).blankCells (24 * 80 * 2) 80 = t at hcol hinside hcells ⊢
    refine ⟨?_, congrArg BitVec.toNat hcol, hlt, fun r hr c hc => ?_, hinside⟩
    · change 24 = g.row
      omega
    · refine (hcells r hr c hc).trans ?_
      change (if r < 24 then s.cell (r + 1) c else blank) = if r < 24 then g.cells (r + 1) c else blank
      split
      · next hlt24 => exact h.cells (r + 1) (Nat.succ_lt_succ hlt24) c hc
      · rfl

theorem Holds.scroll_backspace (h : Holds s g) :
    Holds (scroll (s.advance backspace)) (g.type (Screen.scrollFeed 24 blank) blank .erase) := by
  have hcol := h.col
  change Holds (scroll (if 0#32 < s.terminalCol then _ else s)) _
  rw [Screen.type]
  by_cases hpos : 0 < g.col
  · have hpos' : 0#32 < s.terminalCol := by
      rw [BitVec.lt_def, hcol]
      exact hpos
    have hw : (s.terminalCol - 1#32).toNat = g.col - 1 := by
      rw [BitVec.toNat_sub_of_le hpos', hcol]
      rfl
    have herased := (h.move ((Nat.sub_le g.col 1).trans_lt g.col_lt) hw).putCell 32#8
    rw [if_pos hpos, if_pos hpos', herased.scroll_eq]
    exact herased
  · have hpos' : ¬0#32 < s.terminalCol := by
      rw [BitVec.lt_def, hcol]
      exact hpos
    rw [if_neg hpos, if_neg hpos', h.scroll_eq]
    exact h

theorem Holds.scroll_put (h : Holds s g) {c : Byte} (hn : c ≠ newline) (hb : c ≠ backspace) :
    Holds (scroll (s.advance c)) (g.type (Screen.scrollFeed 24 blank) blank (.put (c, 0x07#8))) := by
  have hput := h.putCell c
  have hlt := g.col_lt
  have hw : ((s.putCell s.pos c).terminalCol + 1#32).toNat = g.col + 1 := by
    rw [putCell_terminalCol, BitVec.toNat_add, h.col, BitVec.toNat_ofNat]
    omega
  have hfull : 80#32 ≤ (s.putCell s.pos c).terminalCol + 1#32 ↔ ¬g.col + 1 < 80 := by
    rw [BitVec.le_def, hw, BitVec.toNat_ofNat]
    omega
  rw [State.advance, if_neg hn, if_neg hb, Screen.type]
  dsimp only
  by_cases hroom : g.col + 1 < 80
  · have hmove := hput.move hroom hw
    rw [dif_pos hroom, if_neg (mt hfull.mp (not_not.mpr hroom)), hmove.scroll_eq]
    exact hmove
  · rw [dif_neg hroom, if_pos (hfull.mpr hroom)]
    exact hput.scroll_nextRow

/-- **A character** on the terminal and on the screen. -/
theorem Holds.putChar (h : Holds s g) (c : Byte) :
    Holds (putChar false s c) (g.type (Screen.scrollFeed 24 blank) blank (stroke c)) := by
  have hs : Holds { s with serial := s.serial ++ [c] } g :=
    ⟨h.row, h.col, h.row_lt, h.cells, h.inside⟩
  refine Holds.updateCursor ?_
  generalize { s with serial := s.serial ++ [c] } = t at hs ⊢
  rw [stroke]
  split
  · next hn =>
    rw [hn, advance_newline]
    exact hs.scroll_nextRow
  · next hn =>
    split
    · next hb =>
      rw [hb]
      exact hs.scroll_backspace
    · next hb => exact hs.scroll_put hn hb

/-- **A sequence of characters**. -/
theorem Holds.putChars (h : Holds s g) (cs : List Byte) :
    Holds (putChars false s cs)
      ((cs.map stroke).foldl (Screen.type (Screen.scrollFeed 24 blank) blank) g) := by
  induction cs generalizing s g with
  | nil => exact h
  | cons c cs ih => exact ih (h.putChar c)

theorem Holds.putStr (h : Holds s g) (str : CString) :
    Holds (putStr false s str)
      ((str.chars.map stroke).foldl (Screen.type (Screen.scrollFeed 24 blank) blank) g) :=
  h.putChars str.chars

theorem holds_clearScr (hs : s.Inside) : Holds (clearScr s) (Screen.empty 80 blank) := by
  have hinside := hs.blankCells (a := 0) (n := 80 * 25) (by omega)
  have hcells := fun r hr c hc => cell_cleared s (r := r) (c := c) hr hc
  rw [clearScr]
  generalize s.blankCells 0 (80 * 25) = t at hinside hcells ⊢
  exact Holds.updateCursor ⟨rfl, rfl, by decide, hcells, hinside⟩

end Holds

/-- **The terminal shows the last rows.** After `clear_scr`, from whatever state, and any characters in text
mode, the cursor is on the screen, everything has been stored on the screen, and the screen shows the last
25 rows of the endless one. -/
theorem terminal_shows_tail (s : State) (cs : List Byte) :
    let t := putChars false (clearScr { s with stores := [] }) cs
    t.terminalRow.toNat < 25 ∧ t.terminalCol.toNat < 80 ∧
      (∀ i ∈ t.stores, 0 ≤ i ∧ i < 4000) ∧
      ∀ r < 25, ∀ c < 80, t.cell r c = (layout cs).cells ((layout cs).row - 24 + r) c := by
  have hclear : Holds (clearScr { s with stores := [] }) (Screen.empty 80 blank) :=
    holds_clearScr fun _ h => absurd h List.not_mem_nil
  have hholds := hclear.putChars cs
  have hshows : Screen.Shows 24 blank (layout cs) _ := Screen.shows_empty.foldl (cs.map stroke)
  refine ⟨hholds.row ▸ hholds.row_lt, hholds.col ▸ Screen.col_lt _, hholds.inside, fun r hr c hc => ?_⟩
  rw [hholds.cells r hr c hc]
  exact hshows.cells r (Nat.le_of_lt_succ hr) c hc

end PekerOS.Terminal
