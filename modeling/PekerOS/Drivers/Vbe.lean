import PekerOS.Lib.Layers
import PekerOS.Lib.Table

/-!
# The graphics screen

All drawing goes to the back buffer, pixel by pixel: `vbe_put_pixel` drops those that are not on the
screen, and `vbe_update` copies the buffer to the card. The loops add to coordinates as machine words, so
a shape covers the points that are less than its width and its height behind its corner, whatever the
corner is. Each function paints one layer, and stores nothing outside the buffer.

`back_buffer` is not null, as `vbe_init` sees to before it makes the screen active. What nothing calls
(`vbe_clear_screen`, `vbe_draw_gradient`, `vbe_draw_cursor` with `vbe_get_pixel` and `vbe_update_rect`) and
the text of `vbe_write` are left out. The glyphs are those of any `font8x16`.

## Main definitions

* `State`, `vbePutPixel`, `vbeDrawRect`, `vbeDrawChar`, `vbeWriteAt`, `vbeDrawCursorSimple`, `vbeUpdate`:
  the variables and the functions of `vbe.c`
* `rect`, `glyph`, `text`, `cursor`: the layers that they paint
* `Draws`: a layer is painted, and nothing else happens

## Main results

* `Draws.trans`, `draws_foldl`: one function after the other
* `vbeDrawRect_draws`, `vbeWriteAt_draws`, `vbeDrawCursorSimple_draws`: what the functions paint
* `vbeUpdate_shown`: the card shows the back buffer
-/

namespace PekerOS.Drivers.Vbe

/-- The variables of `vbe.c`; `frameBuffer` is what `vbe_info.address` points to. Both buffers are indexed
by pixels of four bytes. -/
structure State where
  width : Word
  height : Word
  pitch : Word
  backBuffer : Word → Word
  frameBuffer : Word → Word

/-- `font8x16`: the rows of each character. -/
abbrev Font : Type := Byte → ℕ → Byte

/-- `vbe_put_pixel`; the comparisons with the width and the height are unsigned. -/
def vbePutPixel (s : State) (x y color : Word) : State :=
  if x.slt 0#32 ∨ s.width ≤ x ∨ y.slt 0#32 ∨ s.height ≤ y then s
  else { s with backBuffer := Function.update s.backBuffer (y * s.width + x) color }

/-- The rounds of `for (int i = 0; i < n; i++)`. -/
def rounds (n : Word) : ℕ := n.toInt.toNat

/-- `vbe_draw_rect` -/
def vbeDrawRect (s : State) (x y w h color : Word) : State :=
  (List.range (rounds h)).foldl (fun s i =>
    (List.range (rounds w)).foldl (fun s j =>
      vbePutPixel s (x + BitVec.ofNat 32 j) (y + BitVec.ofNat 32 i) color) s) s

/-- `vbe_draw_char` -/
def vbeDrawChar (font : Font) (s : State) (x y : Word) (c : Byte) (color : Word) : State :=
  (List.range 16).foldl (fun s i =>
    (List.range 8).foldl (fun s j =>
      if font c i &&& 0x80#8 >>> j ≠ 0#8 then
        vbePutPixel s (x + BitVec.ofNat 32 j) (y + BitVec.ofNat 32 i) color
      else s) s) s

/-- `vbe_write_at`, on the characters of a string. -/
def vbeWriteAt (font : Font) (s : State) (x y : Word) (str : List Byte) (color : Word) : State :=
  (str.foldl (fun (s, curX) c => (vbeDrawChar font s curX y c color, curX + 8#32)) (s, x)).1

/-- The table in `vbe_draw_cursor_simple`. -/
def cursorRows : List (List ℕ) :=
  [[2, 2, 0, 0, 0, 0, 0, 0],
   [2, 1, 2, 0, 0, 0, 0, 0],
   [2, 1, 1, 2, 0, 0, 0, 0],
   [2, 1, 1, 1, 2, 0, 0, 0],
   [2, 1, 1, 1, 1, 2, 0, 0],
   [2, 1, 1, 2, 2, 2, 0, 0],
   [2, 1, 2, 0, 0, 0, 0, 0],
   [2, 2, 0, 0, 0, 0, 0, 0]]

/-- The colour of a cell of the cursor. -/
def cursorColor (i j : ℕ) : Option Word :=
  match (cursorRows.getD i []).getD j 0 with
  | 1 => some 0xFFFFFF#32
  | 2 => some 0#32
  | _ => none

/-- `vbe_draw_cursor_simple` -/
def vbeDrawCursorSimple (s : State) (x y : Word) : State :=
  (List.range 8).foldl (fun s i =>
    (List.range 8).foldl (fun s j =>
      match cursorColor i j with
      | some color => vbePutPixel s (x + BitVec.ofNat 32 j) (y + BitVec.ofNat 32 i) color
      | none => s) s) s

/-- `vbe_update`: `width * height` pixels are copied. -/
def vbeUpdate (s : State) : State :=
  { s with frameBuffer := fun i => if i < s.width * s.height then s.backBuffer i else s.frameBuffer i }

/-! ## Points -/

/-- A pixel, by its coordinates. -/
abbrev Point : Type := Word × Word

/-- The back buffer fits into the address space. -/
def Fits (s : State) : Prop := 4 * (s.width.toNat * s.height.toNat) < 2 ^ 32

def OnScreen (s : State) (p : Point) : Prop :=
  p.1.toNat < s.width.toNat ∧ p.2.toNat < s.height.toNat

/-- Where the pixel is in the back buffer. -/
def index (s : State) (p : Point) : Word := p.2 * s.width + p.1

/-- A pixel of the back buffer. -/
def pixel (s : State) (p : Point) : Word := s.backBuffer (index s p)

/-- A pixel of the picture that the card shows, whose rows are `pitch` bytes apart. -/
def shown (s : State) (p : Point) : Word := s.frameBuffer (p.2 * (s.pitch / 4#32) + p.1)

section Points

variable {s : State} {p q : Point}

theorem OnScreen.bounds (hp : OnScreen s p) (hs : Fits s) :
    p.2.toNat * s.width.toNat + p.1.toNat < s.width.toNat * s.height.toNat ∧
      s.width.toNat < 2 ^ 30 ∧ s.height.toNat < 2 ^ 30 := by
  obtain ⟨hx, hy⟩ := hp
  have hrow : (p.2.toNat + 1) * s.width.toNat ≤ s.height.toNat * s.width.toNat :=
    Nat.mul_le_mul_right _ hy
  have hwide : s.width.toNat * 1 ≤ s.width.toNat * s.height.toNat := Nat.mul_le_mul_left _ (by omega)
  have htall : 1 * s.height.toNat ≤ s.width.toNat * s.height.toNat := Nat.mul_le_mul_right _ (by omega)
  rw [Fits] at hs
  rw [Nat.add_mul, Nat.mul_comm s.height.toNat] at hrow
  omega

theorem index_toNat (hp : OnScreen s p) (hs : Fits s) :
    (index s p).toNat = p.2.toNat * s.width.toNat + p.1.toNat := by
  have hb := (hp.bounds hs).1
  rw [Fits] at hs
  rw [index, BitVec.toNat_add, BitVec.toNat_mul, Nat.mod_add_mod, Nat.mod_eq_of_lt (by omega)]

/-- Different pixels are at different places. -/
theorem index_inj (hp : OnScreen s p) (hq : OnScreen s q) (hs : Fits s) (h : index s p = index s q) :
    p = q := by
  have hw : 0 < s.width.toNat := by
    have hx := hp.1
    omega
  have hnat := congrArg BitVec.toNat h
  rw [index_toNat hp hs, index_toNat hq hs, Nat.mul_comm, Nat.mul_comm q.2.toNat] at hnat
  -- the row is the quotient by the width, the column the remainder
  have hrow := congrArg (· / s.width.toNat) hnat
  have hcol := congrArg (· % s.width.toNat) hnat
  simp only [Nat.mul_add_div hw, Nat.mul_add_mod, Nat.div_eq_of_lt hp.1, Nat.div_eq_of_lt hq.1,
    Nat.mod_eq_of_lt hp.1, Nat.mod_eq_of_lt hq.1, Nat.add_zero] at hrow hcol
  exact Prod.ext (BitVec.eq_of_toNat_eq hcol) (BitVec.eq_of_toNat_eq hrow)

/-- The test of `vbe_put_pixel`. -/
theorem clipped_iff (hs : Fits s) (hp : OnScreen s p) (x y : Word) :
    (x.slt 0#32 ∨ s.width ≤ x ∨ y.slt 0#32 ∨ s.height ≤ y) ↔ ¬OnScreen s (x, y) := by
  obtain ⟨-, hw, hh⟩ := hp.bounds hs
  have hneg (v : Word) : v.slt 0#32 = true ↔ 2 ^ 31 ≤ v.toNat := by
    rw [BitVec.slt_iff_toInt_lt, BitVec.toInt_eq_toNat_cond]
    have hv := v.isLt
    split <;> simp only [BitVec.toInt_zero] <;> omega
  rw [hneg, hneg, BitVec.le_def, BitVec.le_def, OnScreen]
  dsimp only
  omega

end Points

/-! ## Painting -/

/-- The layer is painted on the back buffer, and the rest of the state stays as it is. -/
structure Draws (s s' : State) (l : Layer Point Word) : Prop where
  width : s'.width = s.width
  height : s'.height = s.height
  pitch : s'.pitch = s.pitch
  frameBuffer : s'.frameBuffer = s.frameBuffer
  pixel : ∀ p, OnScreen s p → pixel s' p = l.onto (pixel s) p
  outside : ∀ i : Word, s.width.toNat * s.height.toNat ≤ i.toNat → s'.backBuffer i = s.backBuffer i

section Painting

variable {s s' s'' : State} {l m : Layer Point Word} {p : Point} {x y w h color : Word} {α : Type}

theorem Draws.fits (hd : Draws s s' l) (hs : Fits s) : Fits s' := by
  rwa [Fits, hd.width, hd.height]

theorem Draws.onScreen (hd : Draws s s' l) : OnScreen s' p ↔ OnScreen s p := by
  rw [OnScreen, hd.width, hd.height, OnScreen]

theorem Draws.nothing (s : State) : Draws s s fun _ => none :=
  ⟨rfl, rfl, rfl, rfl, fun _ _ => rfl, fun _ _ => rfl⟩

theorem Draws.congr (hd : Draws s s' l) (h : ∀ p, l p = m p) : Draws s s' m := funext h ▸ hd

theorem Draws.trans (hd : Draws s s' l) (hd' : Draws s' s'' m) :
    Draws s s'' fun p => (m p).or (l p) where
  width := hd'.width.trans hd.width
  height := hd'.height.trans hd.height
  pitch := hd'.pitch.trans hd.pitch
  frameBuffer := hd'.frameBuffer.trans hd.frameBuffer
  pixel p hp := by
    rw [hd'.pixel p (hd.onScreen.mpr hp), Layer.onto, hd.pixel p hp, ← Layer.onto_onto]
    rfl
  outside i hi := by
    rw [hd'.outside i (by rwa [hd.width, hd.height]), hd.outside i hi]

/-- What is drawn in the rounds of a loop lies in a pile. -/
theorem draws_foldl {f : State → α → State} {l : α → Layer Point Word} (as : List α)
    (hf : ∀ a ∈ as, ∀ s, Fits s → Draws s (f s a) (l a)) (hs : Fits s) :
    Draws s (as.foldl f s) (Layer.pile (as.map l)) := by
  induction as generalizing s with
  | nil => exact Draws.nothing s
  | cons a as ih =>
    have hfirst := hf a List.mem_cons_self s hs
    have hrest := ih (fun b hb => hf b (List.mem_cons_of_mem a hb)) (hfirst.fits hs)
    exact (hfirst.trans hrest).congr fun p => Layer.pile_cons.symm

/-- One pixel. -/
abbrev dot (x y color : Word) : Layer Point Word := Layer.region (fun p => p = (x, y)) color

theorem vbePutPixel_draws (hs : Fits s) (x y color : Word) :
    Draws s (vbePutPixel s x y color) (dot x y color) := by
  unfold vbePutPixel
  split
  · next hclip =>
    refine ⟨rfl, rfl, rfl, rfl, fun p hp => ?_, fun _ _ => rfl⟩
    have hout := (clipped_iff hs hp x y).mp hclip
    have hne : p ≠ (x, y) := fun heq => hout (heq ▸ hp)
    rw [Layer.onto, dot, Layer.region, if_neg (by simpa using hne)]
    rfl
  · next hclip =>
    refine ⟨rfl, rfl, rfl, rfl, fun p hp => ?_, fun i hi => ?_⟩
    · have hin := not_not.mp ((clipped_iff hs hp x y).not.mp hclip)
      rw [Layer.onto, dot, Layer.region]
      by_cases heq : p = (x, y)
      · subst heq
        rw [if_pos (by simp)]
        exact Function.update_self ..
      · rw [if_neg (by simpa using heq)]
        exact Function.update_of_ne (fun hidx => heq (index_inj hp hin hs hidx)) _ _
    · refine Function.update_of_ne ?_ _ _
      rintro rfl
      simp only [not_or, BitVec.not_le, BitVec.lt_def] at hclip
      have hin : OnScreen s (x, y) := ⟨hclip.2.1, hclip.2.2.2⟩
      have hlt := (hin.bounds hs).1
      rw [← index_toNat hin hs] at hlt
      exact absurd hi (Nat.not_le.mpr hlt)

/-! ## Shapes -/

/-- The points that are less than `w` and `h` behind the corner. -/
def within (x y : Word) (w h : ℕ) (p : Point) : Bool := (p.1 - x).toNat < w && (p.2 - y).toNat < h

theorem within_iff {w h : ℕ} : within x y w h p = true ↔
    (p.1 - x).toNat < w ∧ (p.2 - y).toNat < h := by
  rw [within, Bool.and_eq_true, decide_eq_true_iff, decide_eq_true_iff]

theorem eq_add_ofNat_iff {v : Word} {k : ℕ} (hk : k < 2 ^ 32) :
    v = x + BitVec.ofNat 32 k ↔ (v - x).toNat = k := by
  constructor
  · rintro rfl
    rw [BitVec.add_comm, BitVec.add_sub_cancel, BitVec.toNat_ofNat, Nat.mod_eq_of_lt hk]
  · rintro rfl
    rw [BitVec.ofNat_toNat, BitVec.setWidth_eq, BitVec.add_comm, BitVec.sub_add_cancel]

/-- A rectangle in one colour. -/
def rect (x y w h color : Word) : Layer Point Word :=
  Layer.region (within x y (rounds w) (rounds h)) color

theorem rounds_lt (n : Word) : rounds n < 2 ^ 31 := by
  have hn := BitVec.toInt_lt (x := n)
  rw [rounds]
  omega

/-- The part of a row that is less than `w` behind `x`. -/
abbrev row (x y : Word) (w : ℕ) (color : Word) : Layer Point Word :=
  Layer.region (fun p => (p.1 - x).toNat < w && p.2 = y) color

theorem pile_dots (x y color : Word) {w : ℕ} (hw : w < 2 ^ 31) (p : Point) :
    Layer.pile ((List.range w).map fun j => dot (x + BitVec.ofNat 32 j) y color) p = row x y w color p := by
  refine Layer.pile_map_region ?_
  rw [Bool.and_eq_true, decide_eq_true_iff, decide_eq_true_iff]
  constructor
  · rintro ⟨hx, hy⟩
    refine ⟨_, List.mem_range.mpr hx, decide_eq_true (Prod.ext ?_ hy)⟩
    exact (eq_add_ofNat_iff (by omega)).mpr rfl
  · rintro ⟨j, hj, hp⟩
    rw [List.mem_range] at hj
    obtain rfl := of_decide_eq_true hp
    exact ⟨((eq_add_ofNat_iff (by omega)).mp rfl).trans_lt hj, rfl⟩

theorem pile_rows (x y color : Word) (w : ℕ) {h : ℕ} (hh : h < 2 ^ 31) (p : Point) :
    Layer.pile ((List.range h).map fun i => row x (y + BitVec.ofNat 32 i) w color) p =
      Layer.region (within x y w h) color p := by
  refine Layer.pile_map_region ?_
  simp only [within_iff, Bool.and_eq_true, decide_eq_true_iff, List.mem_range]
  constructor
  · rintro ⟨hx, hy⟩
    exact ⟨_, hy, hx, (eq_add_ofNat_iff (by omega)).mpr rfl⟩
  · rintro ⟨i, hi, hx, hy⟩
    exact ⟨hx, ((eq_add_ofNat_iff (by omega)).mp hy).trans_lt hi⟩

theorem row_draws (hs : Fits s) (x y w color : Word) : Draws s
    ((List.range (rounds w)).foldl (fun s j => vbePutPixel s (x + BitVec.ofNat 32 j) y color) s)
    (row x y (rounds w) color) := by
  have hall := draws_foldl (List.range (rounds w))
    (fun j _ s hs => vbePutPixel_draws (s := s) hs (x + BitVec.ofNat 32 j) y color) hs
  exact hall.congr (pile_dots x y color (rounds_lt w))

theorem vbeDrawRect_draws (hs : Fits s) (x y w h color : Word) :
    Draws s (vbeDrawRect s x y w h color) (rect x y w h color) := by
  have hall := draws_foldl (List.range (rounds h))
    (fun i _ s hs => row_draws (s := s) hs x (y + BitVec.ofNat 32 i) w color) hs
  exact hall.congr (pile_rows x y color (rounds w) (rounds_lt h))

/-! ## Characters -/

/-- At most one pixel. -/
def spot (x y : Word) (color : Option Word) : Layer Point Word := fun p =>
  if p = (x, y) then color else none

theorem spot_draws (hs : Fits s) (x y : Word) (c : Option Word) :
    Draws s (c.elim s (vbePutPixel s x y)) (spot x y c) := by
  cases c with
  | none => exact (Draws.nothing s).congr fun p => (ite_self none).symm
  | some color =>
    exact (vbePutPixel_draws hs x y color).congr fun p => if_congr decide_eq_true_iff rfl rfl

/-- `w` by `h` cells behind a corner, some of which are covered. -/
def cells (x y : Word) (w h : ℕ) (cell : ℕ → ℕ → Option Word) : Layer Point Word := fun p =>
  if within x y w h p then cell (p.2 - y).toNat (p.1 - x).toNat else none

theorem pile_spots (x y : Word) {w : ℕ} (hw : w < 2 ^ 31) (cell : ℕ → Option Word) (p : Point) :
    Layer.pile ((List.range w).map fun j => spot (x + BitVec.ofNat 32 j) y (cell j)) p =
      if p.2 = y ∧ (p.1 - x).toNat < w then cell (p.1 - x).toNat else none := by
  rw [Layer.pile_map_of_forall_ne (b := (p.1 - x).toNat)]
  · have hcol : p.1 = x + BitVec.ofNat 32 (p.1 - x).toNat := (eq_add_ofNat_iff (by omega)).mpr rfl
    have hspot : spot (x + BitVec.ofNat 32 (p.1 - x).toNat) y (cell (p.1 - x).toNat) p =
        if p.2 = y then cell (p.1 - x).toNat else none :=
      if_congr (Prod.ext_iff.trans (and_iff_right hcol)) rfl rfl
    rw [hspot, ← ite_and]
    exact if_congr (by rw [List.mem_range, and_comm]) rfl rfl
  · intro j hj hne
    refine if_neg fun hp => hne ?_
    rw [List.mem_range] at hj
    exact ((eq_add_ofNat_iff (by omega)).mp (congrArg Prod.fst hp)).symm

/-- What loops over the cells paint. -/
theorem pile_cells (x y : Word) {w h : ℕ} (hw : w < 2 ^ 31) (hh : h < 2 ^ 31)
    (cell : ℕ → ℕ → Option Word) (p : Point) :
    Layer.pile ((List.range h).map fun i => Layer.pile ((List.range w).map fun j =>
      spot (x + BitVec.ofNat 32 j) (y + BitVec.ofNat 32 i) (cell i j))) p = cells x y w h cell p := by
  rw [Layer.pile_map_of_forall_ne (b := (p.2 - y).toNat)]
  · have hrow : p.2 = y + BitVec.ofNat 32 (p.2 - y).toNat := (eq_add_ofNat_iff (by omega)).mpr rfl
    rw [pile_spots _ _ hw, ← ite_and, cells]
    refine if_congr ?_ rfl rfl
    rw [List.mem_range, within_iff, and_iff_right hrow, and_comm]
  · intro i hi hne
    rw [pile_spots _ _ hw]
    refine if_neg fun hp => hne ?_
    rw [List.mem_range] at hi
    exact ((eq_add_ofNat_iff (by omega)).mp hp.1).symm

/-- The loops over the cells, in `vbe_draw_char` and in `vbe_draw_cursor_simple`. -/
theorem cells_draws (hs : Fits s) (x y : Word) {w h : ℕ} (hw : w < 2 ^ 31) (hh : h < 2 ^ 31)
    (cell : ℕ → ℕ → Option Word) :
    Draws s ((List.range h).foldl (fun s i => (List.range w).foldl (fun s j =>
      (cell i j).elim s (vbePutPixel s (x + BitVec.ofNat 32 j) (y + BitVec.ofNat 32 i))) s) s)
      (cells x y w h cell) := by
  have hall := draws_foldl (List.range h) (fun i _ s hs => draws_foldl (s := s) (List.range w)
    (fun j _ s hs => spot_draws (s := s) hs (x + BitVec.ofNat 32 j) (y + BitVec.ofNat 32 i) (cell i j))
    hs) hs
  exact hall.congr (pile_cells x y hw hh cell)

/-- The bits of a character that are set. -/
def glyph (font : Font) (x y : Word) (c : Byte) (color : Word) : Layer Point Word :=
  cells x y 8 16 fun i j => if font c i &&& 0x80#8 >>> j ≠ 0#8 then some color else none

theorem vbeDrawChar_draws (font : Font) (hs : Fits s) (x y : Word) (c : Byte) (color : Word) :
    Draws s (vbeDrawChar font s x y c color) (glyph font x y c color) := by
  have hdraws := cells_draws hs x y (w := 8) (h := 16) (by omega) (by omega)
    fun i j => if font c i &&& 0x80#8 >>> j ≠ 0#8 then some color else none
  have hput (s : State) (i j : ℕ) : (if font c i &&& 0x80#8 >>> j ≠ 0#8 then
      vbePutPixel s (x + BitVec.ofNat 32 j) (y + BitVec.ofNat 32 i) color else s) =
      (if font c i &&& 0x80#8 >>> j ≠ 0#8 then some color else none).elim s
        (vbePutPixel s (x + BitVec.ofNat 32 j) (y + BitVec.ofNat 32 i)) := by
    split <;> rfl
  simp only [vbeDrawChar, hput]
  exact hdraws

/-- The cursor, with its corner at the position of the mouse. -/
def cursor (x y : Word) : Layer Point Word := cells x y 8 8 cursorColor

theorem vbeDrawCursorSimple_draws (hs : Fits s) (x y : Word) :
    Draws s (vbeDrawCursorSimple s x y) (cursor x y) := by
  have hdraws := cells_draws hs x y (w := 8) (h := 8) (by omega) (by omega) cursorColor
  have hput (s : State) (i j : ℕ) : (match cursorColor i j with
      | some color => vbePutPixel s (x + BitVec.ofNat 32 j) (y + BitVec.ofNat 32 i) color
      | none => s) = (cursorColor i j).elim s (vbePutPixel s (x + BitVec.ofNat 32 j)
        (y + BitVec.ofNat 32 i)) := by
    cases cursorColor i j <;> rfl
  simp only [vbeDrawCursorSimple, hput]
  exact hdraws

/-- The characters of a string, each eight pixels behind the one before. -/
def text (font : Font) (x y : Word) (str : List Byte) (color : Word) : Layer Point Word :=
  Layer.pile ((List.range str.length).map fun k =>
    glyph font (x + BitVec.ofNat 32 (8 * k)) y (str.getD k 0#8) color)

theorem text_cons (font : Font) (x y : Word) (c : Byte) (str : List Byte) (color : Word) (p : Point) :
    text font x y (c :: str) color p =
      (text font (x + 8#32) y str color p).or (glyph font x y c color p) := by
  rw [text, List.length_cons, List.range_succ_eq_map, List.map_cons, Layer.pile_cons, List.map_map, text,
    List.getD_cons_zero, Nat.mul_zero, BitVec.add_zero]
  have hnext (k : ℕ) : x + BitVec.ofNat 32 (8 * (k + 1)) = x + 8#32 + BitVec.ofNat 32 (8 * k) := by
    rw [Nat.mul_succ, Nat.add_comm, BitVec.ofNat_add, BitVec.add_assoc]
  simp only [Function.comp_def, Nat.succ_eq_add_one, hnext, List.getD_cons_succ]

theorem vbeWriteAt_draws (font : Font) (hs : Fits s) (x y : Word) (str : List Byte) (color : Word) :
    Draws s (vbeWriteAt font s x y str color) (text font x y str color) := by
  induction str generalizing s x with
  | nil => exact Draws.nothing s
  | cons c str ih =>
    have hfirst := vbeDrawChar_draws font hs x y c color
    have hrest := ih (hfirst.fits hs) (x + 8#32)
    exact (hfirst.trans hrest).congr fun p => (text_cons font x y c str color p).symm

/-! ## The card -/

/-- **The card shows the back buffer**, if its rows follow each other without a gap. -/
theorem vbeUpdate_shown (hs : Fits s) (hpitch : s.pitch.toNat = 4 * s.width.toNat) (hp : OnScreen s p) :
    shown (vbeUpdate s) p = pixel s p := by
  have hrows : s.pitch / 4#32 = s.width := by
    apply BitVec.eq_of_toNat_eq
    rw [BitVec.toNat_udiv, hpitch]
    exact Nat.mul_div_cancel_left _ (by omega)
  have hlt : index s p < s.width * s.height := by
    rw [BitVec.lt_def, index_toNat hp hs, BitVec.toNat_mul, Nat.mod_eq_of_lt]
    · exact (hp.bounds hs).1
    · rw [Fits] at hs
      omega
  rw [shown, vbeUpdate]
  dsimp only
  rw [hrows]
  exact if_pos hlt

end Painting

end PekerOS.Drivers.Vbe
