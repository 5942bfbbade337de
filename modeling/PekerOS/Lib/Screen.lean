import Mathlib

/-!
# Screens

Characters are typed on rows of `w` cells: a newline starts a row, a cell that fills its row starts one
too, and erasing goes back on the row of the cursor only. A screen without end starts a row below the
last one. A screen of `n + 1` rows does so while there is room, and then moves its rows up instead. What it
shows at any time are the last `n + 1` rows of the endless screen on which the same has been typed.

## Main definitions

* `Screen w α`: the cells and the cursor
* `Screen.type`: a stroke, for a screen that feeds lines in its own way
* `lineFeed`, `scrollFeed n`: the endless screen, and the one with `n + 1` rows
* `Shows`: the screen shows the last rows of the page

## Main results

* `Shows.type`, `Shows.foldl`: one stroke, and all that are typed
-/

universe u

/-- What is typed at the cursor. -/
inductive Stroke (α : Type u) where
  | newline
  | erase
  | put (a : α)

/-- Rows of `w` cells, and a cursor on one of them. -/
structure Screen (w : ℕ) (α : Type u) where
  cells : ℕ → ℕ → α
  row : ℕ
  col : ℕ
  col_lt : col < w

namespace Screen

variable {w n : ℕ} {α : Type u} {blank : α}

/-- The cursor is at the start of the first of the blank rows. -/
def empty (w : ℕ) [NeZero w] (blank : α) : Screen w α := ⟨fun _ _ => blank, 0, 0, NeZero.pos w⟩

/-- The cell at the cursor. -/
def write (g : Screen w α) (a : α) : Screen w α :=
  { g with cells := fun r c => if r = g.row ∧ c = g.col then a else g.cells r c }

/-- The cursor on another column of its row. -/
def move (g : Screen w α) {c : ℕ} (h : c < w) : Screen w α := { g with col := c, col_lt := h }

/-- One stroke, on a screen that starts rows with `feed`. -/
def type (feed : Screen w α → Screen w α) (blank : α) (g : Screen w α) : Stroke α → Screen w α
  | .newline => feed g
  | .erase => if 0 < g.col then (g.move ((Nat.sub_le g.col 1).trans_lt g.col_lt)).write blank else g
  | .put a => if h : g.col + 1 < w then (g.write a).move h else feed (g.write a)

/-- A new row below. -/
def lineFeed (g : Screen w α) : Screen w α :=
  { g with row := g.row + 1, col := 0, col_lt := Nat.zero_lt_of_lt g.col_lt }

/-- The rows move up by one, and the last of the `n + 1` is blank. -/
def scrolled (n : ℕ) (blank : α) (g : Screen w α) : Screen w α :=
  { g with cells := fun r c => if r < n then g.cells (r + 1) c else blank }

/-- A new row on a screen of `n + 1` rows. -/
def scrollFeed (n : ℕ) (blank : α) (g : Screen w α) : Screen w α :=
  if g.row < n then g.lineFeed
  else { g.scrolled n blank with col := 0, col_lt := Nat.zero_lt_of_lt g.col_lt }

/-- `g` shows the rows of the page `p` that end `n` rows below the first one, or with that of its
cursor. -/
structure Shows (n : ℕ) (blank : α) (p g : Screen w α) : Prop where
  row : g.row = min p.row n
  col : g.col = p.col
  cells : ∀ r ≤ n, ∀ c < w, g.cells r c = p.cells (p.row - n + r) c
  /-- Nothing has been written below the cursor. -/
  below : ∀ r, p.row < r → ∀ c, p.cells r c = blank

section Shows

variable {p g : Screen w α}

theorem shows_empty [NeZero w] : Shows n blank (empty w blank) (empty w blank) where
  row := (Nat.zero_min n).symm
  col := rfl
  cells _ _ _ _ := rfl
  below _ _ _ := rfl

theorem Shows.write (h : Shows n blank p g) (a : α) : Shows n blank (p.write a) (g.write a) where
  row := h.row
  col := h.col
  cells r hr c hc := by
    have hcells := h.cells r hr c hc
    have hrow := h.row
    -- the cursor is on the same row of the page in both
    have hcursor : r = g.row ↔ p.row - n + r = p.row := by omega
    simp only [Screen.write, hcursor, h.col, hcells]
  below r hr c := by
    have hr : p.row < r := hr
    have hne : ¬(r = p.row ∧ c = p.col) := fun heq => hr.ne' heq.1
    simp only [Screen.write, if_neg hne]
    exact h.below r hr c

theorem Shows.move (h : Shows n blank p g) {c : ℕ} (hc : c < w) :
    Shows n blank (p.move hc) (g.move hc) where
  row := h.row
  col := rfl
  cells := h.cells
  below := h.below

theorem Shows.feed (h : Shows n blank p g) :
    Shows n blank p.lineFeed (g.scrollFeed n blank) := by
  have hbelow : ∀ r, p.row + 1 < r → ∀ c, p.cells r c = blank := fun r hr =>
    h.below r (Nat.lt_of_succ_lt hr)
  have hrow := h.row
  rw [scrollFeed]
  split
  · next hlt =>
    -- there is room, and the page is shown from its first row on
    refine ⟨?_, rfl, fun r hr c hc => ?_, hbelow⟩
    · change g.row + 1 = min (p.row + 1) n
      omega
    · have hcells := h.cells r hr c hc
      change g.cells r c = p.cells (p.row + 1 - n + r) c
      rwa [show p.row + 1 - n + r = p.row - n + r by omega]
  · next hlt =>
    refine ⟨?_, rfl, fun r hr c hc => ?_, hbelow⟩
    · change g.row = min (p.row + 1) n
      omega
    · change (if r < n then g.cells (r + 1) c else blank) = p.cells (p.row + 1 - n + r) c
      split
      · next hrn =>
        rw [h.cells (r + 1) hrn c hc]
        congr 1
        omega
      · next hrn =>
        -- the row that comes in is the one below the cursor
        exact (h.below _ (by omega) c).symm

/-- **A stroke** on the page and on the screen. -/
theorem Shows.type (h : Shows n blank p g) (k : Stroke α) :
    Shows n blank (p.type lineFeed blank k) (g.type (scrollFeed n blank) blank k) := by
  cases k with
  | newline => exact h.feed
  | erase =>
    simp only [Screen.type, h.col]
    split
    · exact (h.move _).write blank
    · exact h
  | put a =>
    simp only [Screen.type, h.col]
    split
    · exact (h.write a).move _
    · exact (h.write a).feed

/-- **All that is typed**: the screen shows the last rows of the page. -/
theorem Shows.foldl (h : Shows n blank p g) (ks : List (Stroke α)) :
    Shows n blank (ks.foldl (Screen.type lineFeed blank) p)
      (ks.foldl (Screen.type (scrollFeed n blank) blank) g) := by
  induction ks generalizing p g with
  | nil => exact h
  | cons k ks ih => exact ih (h.type k)

end Shows

end Screen
