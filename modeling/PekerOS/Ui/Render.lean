import PekerOS.Core.CString
import PekerOS.Drivers.Vbe
import PekerOS.Ui.Windows

/-!
# What the screen shows

`graphics_task` draws the whole desktop again for each frame: the background and the icons, the windows
from the back to the front, the panel with the clock, and the cursor; then it copies the back buffer to the
card. So each pixel of the desktop shows the part that lies on top there, and nothing of the frames before
is left. On a screen that is larger, what the back buffer has outside the desktop stays there.

A frame is drawn without an interrupt in between. All windows are active, and all texts are drawn in the
colour that `gui_create_label` and `gui_create_button` are called with. The time is that of `rtc_get_time`.

## Main definitions

* `guiDrawIcon`, `guiDrawWidget`, `guiDrawWindow`, `guiRender`: the functions of `gui.c` that draw
* `graphicsFrame`: one round of `graphics_task`
* `Owner`, `scene`: what is drawn, and the layers of a frame

## Main results

* `guiDrawWindow_draws`, `guiRender_draws`: what the functions paint
* `window_seen`: where a window is seen
* `frames_shown`: what is seen after any number of frames
-/

namespace PekerOS.Gui

open Drivers.Vbe

/-- The characters of a string. -/
def literal (str : String) : List Byte :=
  (CString.ofBytes (str.toUTF8.data.toList.map UInt8.toBitVec)).chars

def Text.bytes (t : Text) : List Byte := literal t.chars

/-- The colour of the borders and of the texts in the windows. -/
abbrev ink : Word := 0x002F3542#32

/-- `gui_draw_icon` -/
def guiDrawIcon (font : Font) (s : State) (x y : Word) (label : String) (color : Word) : State :=
  let s := vbeDrawRect s (x + 5#32) y 32#32 32#32 color
  let s := vbeDrawRect s (x + 5#32) y 32#32 1#32 0x00FFFFFF#32
  vbeWriteAt font s x (y + 35#32) (literal label) 0x00FFFFFF#32

/-- A widget of the window at `x`, `y`, as `gui_draw_window` draws it. -/
def guiDrawWidget (font : Font) (x y : Word) (s : State) (w : Widget) : State :=
  let absX := x + w.x
  let absY := y + w.y
  if w.isButton then
    let s := vbeDrawRect s absX absY w.w w.h w.bgColor
    let s := vbeDrawRect s absX absY w.w 1#32 ink
    let s := vbeDrawRect s absX (absY + w.h - 1#32) w.w 1#32 ink
    let s := vbeDrawRect s absX absY 1#32 w.h ink
    let s := vbeDrawRect s (absX + w.w - 1#32) absY 1#32 w.h ink
    let textLen := BitVec.ofNat 32 w.text.bytes.length
    vbeWriteAt font s (absX + w.w.sdiv 2#32 - textLen * 4#32) (absY + w.h.sdiv 2#32 - 8#32) w.text.bytes ink
  else vbeWriteAt font s absX absY w.text.bytes ink

/-- `gui_draw_window` -/
def guiDrawWindow (font : Font) (s : State) (win : Window) : State :=
  let s := vbeDrawRect s (win.x + 3#32) (win.y + 3#32) win.w win.h 0x002F3640#32
  let s := vbeDrawRect s win.x win.y win.w win.h 0x00F1F2F6#32
  let s := vbeDrawRect s win.x win.y win.w 25#32 0x0074B9FF#32
  let s := vbeDrawRect s (win.x + win.w - 20#32) (win.y + 5#32) 15#32 15#32 0x00FF4757#32
  let s := vbeDrawRect s win.x win.y win.w 1#32 ink
  let s := vbeDrawRect s win.x (win.y + win.h - 1#32) win.w 1#32 ink
  let s := vbeDrawRect s win.x win.y 1#32 win.h ink
  let s := vbeDrawRect s (win.x + win.w - 1#32) win.y 1#32 win.h ink
  let s := vbeWriteAt font s (win.x + 10#32) (win.y + 5#32) win.title.bytes ink
  win.widgets.foldl (guiDrawWidget font win.x win.y) s

/-- The loop of `gui_render` over the windows; `none` if it goes on. -/
def drawWindows (font : Font) (window : Word → Window) : ℕ → Word → State → Option State
  | 0, _, _ => none
  | rounds + 1, curr, s =>
    if curr = 0#32 then some s
    else drawWindows font window rounds (window curr).next (guiDrawWindow font s (window curr))

/-- The colour of a row of the background. -/
def gradient (y : ℕ) : Word :=
  let b := BitVec.ofNat 8 (180 + y * 70 / 600)
  let g := BitVec.ofNat 8 (120 + y * 40 / 600)
  g.setWidth 32 <<< 8 ||| b.setWidth 32

/-- The hours, the minutes and the seconds. -/
structure Time where
  h : ℕ
  m : ℕ
  s : ℕ

/-- `time_str` -/
def Time.chars (t : Time) : List Byte :=
  let digit (n : ℕ) : Byte := BitVec.ofNat 8 (n + 48)
  (CString.ofBytes [digit (t.h / 10), digit (t.h % 10), 58#8, digit (t.m / 10), digit (t.m % 10), 58#8,
    digit (t.s / 10), digit (t.s % 10)]).chars

/-- `gui_render`. There are `2 ^ 32` addresses, and a list that is longer never ends. -/
def guiRender (font : Font) (g : Desktop) (time : Time) (s : State) : Option State := do
  let s := (List.range 600).foldl (fun s y =>
    vbeDrawRect s 0#32 (BitVec.ofNat 32 y) 800#32 1#32 (gradient y)) s
  let s := guiDrawIcon font s 20#32 40#32 "Storage" 0x00FFA502#32
  let s := guiDrawIcon font s 20#32 110#32 "Terminal" 0x002F3542#32
  let s := guiDrawIcon font s 20#32 180#32 "Files" 0x001E90FF#32
  let s := guiDrawIcon font s 20#32 250#32 "Network" 0x002ED573#32
  let s ← drawWindows font g.window (2 ^ 32) g.head s
  let s := vbeDrawRect s 300#32 0#32 200#32 30#32 0x00DCDDE1#32
  let s := vbeDrawRect s 300#32 30#32 200#32 1#32 0x007F8C8D#32
  return vbeWriteAt font s 360#32 8#32 time.chars 0x002F3640#32

/-- A round of `graphics_task`, with the mouse at `x`, `y`. -/
def graphicsFrame (font : Font) (g : Desktop) (time : Time) (x y : Word) (s : State) : Option State := do
  let s ← guiRender font g time s
  return vbeUpdate (vbeDrawCursorSimple s x y)

/-! ## The layers of a frame -/

/-- What a part of the picture belongs to. -/
inductive Owner
  | backdrop
  | icon
  | shadow (win : Word)
  | window (win : Word)
  | panel
  | cursor

/-- The layers of the background. -/
def backdropParts : List (Layer Point Word) :=
  (List.range 600).map fun y => rect 0#32 (BitVec.ofNat 32 y) 800#32 1#32 (gradient y)

def iconParts (font : Font) (x y : Word) (label : String) (color : Word) : List (Layer Point Word) :=
  [rect (x + 5#32) y 32#32 32#32 color, rect (x + 5#32) y 32#32 1#32 0x00FFFFFF#32,
    text font x (y + 35#32) (literal label) 0x00FFFFFF#32]

/-- The four icons. -/
def iconLayers (font : Font) : List (Layer Point Word) :=
  iconParts font 20#32 40#32 "Storage" 0x00FFA502#32 ++
    iconParts font 20#32 110#32 "Terminal" 0x002F3542#32 ++
    iconParts font 20#32 180#32 "Files" 0x001E90FF#32 ++
    iconParts font 20#32 250#32 "Network" 0x002ED573#32

def widgetParts (font : Font) (x y : Word) (w : Widget) : List (Layer Point Word) :=
  let absX := x + w.x
  let absY := y + w.y
  if w.isButton then
    [rect absX absY w.w w.h w.bgColor, rect absX absY w.w 1#32 ink,
      rect absX (absY + w.h - 1#32) w.w 1#32 ink, rect absX absY 1#32 w.h ink,
      rect (absX + w.w - 1#32) absY 1#32 w.h ink,
      text font (absX + w.w.sdiv 2#32 - BitVec.ofNat 32 w.text.bytes.length * 4#32)
        (absY + w.h.sdiv 2#32 - 8#32) w.text.bytes ink]
  else [text font absX absY w.text.bytes ink]

def shadowOf (win : Window) : Layer Point Word :=
  rect (win.x + 3#32) (win.y + 3#32) win.w win.h 0x002F3640#32

/-- A window without its shadow. -/
def windowParts (font : Font) (win : Window) : List (Layer Point Word) :=
  [rect win.x win.y win.w win.h 0x00F1F2F6#32, rect win.x win.y win.w 25#32 0x0074B9FF#32,
    rect (win.x + win.w - 20#32) (win.y + 5#32) 15#32 15#32 0x00FF4757#32,
    rect win.x win.y win.w 1#32 ink, rect win.x (win.y + win.h - 1#32) win.w 1#32 ink,
    rect win.x win.y 1#32 win.h ink, rect (win.x + win.w - 1#32) win.y 1#32 win.h ink,
    text font (win.x + 10#32) (win.y + 5#32) win.title.bytes ink] ++
    win.widgets.flatMap (widgetParts font win.x win.y)

def panelParts (font : Font) (time : Time) : List (Layer Point Word) :=
  [rect 300#32 0#32 200#32 30#32 0x00DCDDE1#32, rect 300#32 30#32 200#32 1#32 0x007F8C8D#32,
    text font 360#32 8#32 time.chars 0x002F3640#32]

/-- Layers that belong to one owner. -/
def owned (o : Owner) (ls : List (Layer Point Word)) : List (Layer Point (Owner × Word)) :=
  ls.map (Layer.recolor (Prod.mk o))

/-- The layers of the windows, in their order. -/
def windowLayers (font : Font) (window : Word → Window) (ws : List Word) :
    List (Layer Point (Owner × Word)) :=
  ws.flatMap fun a =>
    owned (.shadow a) [shadowOf (window a)] ++ owned (.window a) (windowParts font (window a))

/-- The layers of a frame. -/
def scene (font : Font) (window : Word → Window) (ws : List Word) (time : Time) (x y : Word) :
    List (Layer Point (Owner × Word)) :=
  owned .backdrop backdropParts ++ owned .icon (iconLayers font) ++ windowLayers font window ws ++
    owned .panel (panelParts font time) ++ owned .cursor [cursor x y]

section Drawing

variable {font : Font} {s s' : State} {ls : List (Layer Point Word)} {x y : Word} {g : Desktop} {ws : List Word}

/-- Nothing has been drawn so far. -/
theorem draws_start (s : State) : Draws s s (Layer.pile []) := Draws.nothing s

theorem draws_then {l : Layer Point Word} {s'' : State} (hd : Draws s s' (Layer.pile ls)) (hs : Fits s)
    (h : Fits s' → Draws s' s'' l) : Draws s s'' (Layer.pile (ls ++ [l])) :=
  (hd.trans (h (hd.fits hs))).congr fun _ => Layer.pile_concat.symm

theorem draws_append {ms : List (Layer Point Word)} {s'' : State} (hd : Draws s s' (Layer.pile ls))
    (hs : Fits s) (h : Fits s' → Draws s' s'' (Layer.pile ms)) : Draws s s'' (Layer.pile (ls ++ ms)) :=
  (hd.trans (h (hd.fits hs))).congr fun _ => Layer.pile_append.symm

theorem draws_rect (hd : Draws s s' (Layer.pile ls)) (hs : Fits s) (x y w h color : Word) :
    Draws s (vbeDrawRect s' x y w h color) (Layer.pile (ls ++ [rect x y w h color])) :=
  draws_then hd hs fun hs' => vbeDrawRect_draws hs' x y w h color

theorem draws_text (hd : Draws s s' (Layer.pile ls)) (hs : Fits s) (font : Font) (x y : Word)
    (str : List Byte) (color : Word) :
    Draws s (vbeWriteAt font s' x y str color) (Layer.pile (ls ++ [text font x y str color])) :=
  draws_then hd hs fun hs' => vbeWriteAt_draws font hs' x y str color

theorem guiDrawIcon_draws (hs : Fits s) (font : Font) (x y : Word) (label : String) (color : Word) :
    Draws s (guiDrawIcon font s x y label color) (Layer.pile (iconParts font x y label color)) :=
  draws_text (draws_rect (draws_rect (draws_start s) hs _ _ _ _ _) hs _ _ _ _ _) hs _ _ _ _ _

theorem guiDrawWidget_draws (hs : Fits s) (font : Font) (x y : Word) (w : Widget) :
    Draws s (guiDrawWidget font x y s w) (Layer.pile (widgetParts font x y w)) := by
  unfold guiDrawWidget widgetParts
  dsimp only
  split
  · have hbody := draws_rect (draws_start s) hs (x + w.x) (y + w.y) w.w w.h w.bgColor
    have htop := draws_rect hbody hs (x + w.x) (y + w.y) w.w 1#32 ink
    have hbottom := draws_rect htop hs (x + w.x) (y + w.y + w.h - 1#32) w.w 1#32 ink
    have hleft := draws_rect hbottom hs (x + w.x) (y + w.y) 1#32 w.h ink
    have hright := draws_rect hleft hs (x + w.x + w.w - 1#32) (y + w.y) 1#32 w.h ink
    exact draws_text hright hs _ _ _ _ _
  · exact draws_text (draws_start s) hs _ _ _ _ _

/-- The widgets of a window. -/
theorem widgets_draws (hs : Fits s) (font : Font) (x y : Word) (widgets : List Widget) :
    Draws s (widgets.foldl (guiDrawWidget font x y) s)
      (Layer.pile (widgets.flatMap (widgetParts font x y))) := by
  induction widgets generalizing s with
  | nil => exact draws_start s
  | cons w widgets ih =>
    rw [List.flatMap_cons]
    exact draws_append (guiDrawWidget_draws hs font x y w) hs fun hs' => ih hs'

theorem guiDrawWindow_draws (hs : Fits s) (font : Font) (win : Window) :
    Draws s (guiDrawWindow font s win) (Layer.pile ([shadowOf win] ++ windowParts font win)) := by
  have hshadow := draws_rect (draws_start s) hs (win.x + 3#32) (win.y + 3#32) win.w win.h 0x002F3640#32
  have hbody := draws_rect hshadow hs win.x win.y win.w win.h 0x00F1F2F6#32
  have hbar := draws_rect hbody hs win.x win.y win.w 25#32 0x0074B9FF#32
  have hclose := draws_rect hbar hs (win.x + win.w - 20#32) (win.y + 5#32) 15#32 15#32 0x00FF4757#32
  have htop := draws_rect hclose hs win.x win.y win.w 1#32 ink
  have hbottom := draws_rect htop hs win.x (win.y + win.h - 1#32) win.w 1#32 ink
  have hleft := draws_rect hbottom hs win.x win.y 1#32 win.h ink
  have hright := draws_rect hleft hs (win.x + win.w - 1#32) win.y 1#32 win.h ink
  have htitle := draws_text hright hs font (win.x + 10#32) (win.y + 5#32) win.title.bytes ink
  have hall := draws_append htitle hs fun hs' => widgets_draws hs' font win.x win.y win.widgets
  exact hall

/-! ## The windows -/

theorem recolor_owned (o : Owner) (ls : List (Layer Point Word)) :
    (owned o ls).map (Layer.recolor Prod.snd) = ls := by
  rw [owned, List.map_map]
  refine (List.map_congr_left fun l _ => ?_).trans (List.map_id ls)
  refine (Layer.recolor_recolor _ _ l).trans ?_
  funext p
  exact Option.map_id'

theorem recolor_windowLayers (font : Font) (window : Word → Window) (a : Word) (ws : List Word) :
    (windowLayers font window (a :: ws)).map (Layer.recolor Prod.snd) =
      ([shadowOf (window a)] ++ windowParts font (window a)) ++
        (windowLayers font window ws).map (Layer.recolor Prod.snd) := by
  rw [windowLayers, List.flatMap_cons, List.map_append, List.map_append, recolor_owned, recolor_owned]
  rfl

/-- The loop goes through the list. -/
theorem drawWindows_draws (font : Font) {window : Word → Window} {rounds : ℕ} {curr : Word} {ws : List Word}
    (h : Visits 0#32 (fun a => (window a).next) curr ws 0#32) (hrounds : ws.length < rounds) (hs : Fits s) :
    ∃ s', drawWindows font window rounds curr s = some s' ∧
      Draws s s' (Layer.pile ((windowLayers font window ws).map (Layer.recolor Prod.snd))) := by
  induction ws generalizing curr rounds s with
  | nil =>
    obtain ⟨k, rfl⟩ : ∃ k, rounds = k + 1 := ⟨rounds - 1, by simp at hrounds; omega⟩
    exact ⟨s, if_pos h, draws_start s⟩
  | cons a ws ih =>
    obtain ⟨k, rfl⟩ : ∃ k, rounds = k + 1 := ⟨rounds - 1, by omega⟩
    obtain ⟨rfl, hne, hrest⟩ := h
    rw [List.length_cons] at hrounds
    have hwin := guiDrawWindow_draws hs font (window curr)
    obtain ⟨s', hrun, hdraws⟩ := ih hrest (show ws.length < k by omega) (hwin.fits hs)
    refine ⟨s', ?_, ?_⟩
    · rw [drawWindows, if_neg hne]
      exact hrun
    · rw [recolor_windowLayers]
      exact draws_append hwin hs fun _ => hdraws

/-! ## Frames -/

theorem guiRender_draws (font : Font) (time : Time) (hg : Ordered g ws) (hs : Fits s) :
    ∃ s', guiRender font g time s = some s' ∧
      Draws s s' (Layer.pile (backdropParts ++ iconLayers font ++
        (windowLayers font g.window ws).map (Layer.recolor Prod.snd) ++ panelParts font time)) := by
  have hback : Draws s ((List.range 600).foldl (fun s y =>
      vbeDrawRect s 0#32 (BitVec.ofNat 32 y) 800#32 1#32 (gradient y)) s) (Layer.pile backdropParts) :=
    draws_foldl _ (fun y _ s hs => vbeDrawRect_draws (s := s) hs _ _ _ _ _) hs
  have hstorage := draws_append hback hs fun hs' =>
    guiDrawIcon_draws hs' font 20#32 40#32 "Storage" 0x00FFA502#32
  have hterminal := draws_append hstorage hs fun hs' =>
    guiDrawIcon_draws hs' font 20#32 110#32 "Terminal" 0x002F3542#32
  have hfiles := draws_append hterminal hs fun hs' =>
    guiDrawIcon_draws hs' font 20#32 180#32 "Files" 0x001E90FF#32
  have hicons := draws_append hfiles hs fun hs' =>
    guiDrawIcon_draws hs' font 20#32 250#32 "Network" 0x002ED573#32
  obtain ⟨s', hrun, hwindows⟩ := drawWindows_draws font hg.lists.forward hg.length_lt (hicons.fits hs)
  have hall := draws_append hicons hs fun _ => hwindows
  have hpanel := draws_rect hall hs 300#32 0#32 200#32 30#32 0x00DCDDE1#32
  have hline := draws_rect hpanel hs 300#32 30#32 200#32 1#32 0x007F8C8D#32
  have hclock := draws_text hline hs font 360#32 8#32 time.chars 0x002F3640#32
  refine ⟨vbeWriteAt font (vbeDrawRect (vbeDrawRect s' 300#32 0#32 200#32 30#32 0x00DCDDE1#32)
    300#32 30#32 200#32 1#32 0x007F8C8D#32) 360#32 8#32 time.chars 0x002F3640#32, ?_, ?_⟩
  · have hrun' : drawWindows font g.window (2 ^ 32) g.head _ = some s' := hrun
    simp only [guiRender]
    rw [hrun']
    rfl
  · simp only [List.append_assoc, iconLayers, panelParts, List.cons_append, List.nil_append] at hclock ⊢
    exact hclock

/-- What a frame is drawn from: the windows, in their order, the time, and the position of the mouse. -/
structure Frame where
  desktop : Desktop
  windows : List Word
  time : Time
  x : Word
  y : Word
  ordered : Ordered desktop windows

/-- The layers of a frame. -/
def Frame.scene (font : Font) (f : Frame) : List (Layer Point (Owner × Word)) :=
  Gui.scene font f.desktop.window f.windows f.time f.x f.y

/-- The rounds of `graphics_task`. -/
def drawFrames (font : Font) (fs : List Frame) (s : State) : Option State :=
  fs.foldlM (fun s f => graphicsFrame font f.desktop f.time f.x f.y s) s

/-- What is seen of a frame. -/
def Frame.picture (font : Font) (f : Frame) : Layer Point Word :=
  Layer.recolor Prod.snd (Layer.pile (f.scene font))

theorem recolor_scene (font : Font) (f : Frame) :
    (f.scene font).map (Layer.recolor Prod.snd) = backdropParts ++ iconLayers font ++
      (windowLayers font f.desktop.window f.windows).map (Layer.recolor Prod.snd) ++
        panelParts font f.time ++ [cursor f.x f.y] := by
  simp only [Frame.scene, Gui.scene, List.map_append, recolor_owned]

/-- A frame paints its picture, and the card then shows the back buffer. -/
theorem graphicsFrame_draws (font : Font) (f : Frame) (hs : Fits s) :
    ∃ s₁, graphicsFrame font f.desktop f.time f.x f.y s = some (vbeUpdate s₁) ∧
      Draws s s₁ (f.picture font) := by
  obtain ⟨s', hrun, hdraws⟩ := guiRender_draws font f.time f.ordered hs
  refine ⟨vbeDrawCursorSimple s' f.x f.y, ?_, ?_⟩
  · rw [graphicsFrame, hrun]
    rfl
  · rw [Frame.picture, Layer.recolor_pile, recolor_scene]
    exact draws_then hdraws hs fun hs' => vbeDrawCursorSimple_draws hs' f.x f.y

/-- All of the desktop is covered. -/
theorem isSome_scene (font : Font) (f : Frame) {p : Point} (hx : p.1.toNat < 800) (hy : p.2.toNat < 600) :
    (Layer.pile (f.scene font) p).isSome := by
  rw [Layer.isSome_pile_iff]
  refine ⟨Layer.recolor (Prod.mk Owner.backdrop)
    (rect 0#32 (BitVec.ofNat 32 p.2.toNat) 800#32 1#32 (gradient p.2.toNat)), ?_, ?_⟩
  · simp only [Frame.scene, Gui.scene, List.mem_append]
    refine .inl (.inl (.inl (.inl (List.mem_map_of_mem ?_))))
    exact List.mem_map.mpr ⟨p.2.toNat, List.mem_range.mpr hy, rfl⟩
  · have hwithin : within 0#32 (BitVec.ofNat 32 p.2.toNat) (rounds 800#32) (rounds 1#32) p = true := by
      rw [within_iff, BitVec.sub_zero, BitVec.ofNat_toNat, BitVec.setWidth_eq, BitVec.sub_self]
      exact ⟨hx, Nat.one_pos⟩
    rw [Layer.recolor, rect, Layer.region, if_pos hwithin]
    rfl

theorem pile_owned (o : Owner) (ls : List (Layer Point Word)) (p : Point) :
    Layer.pile (owned o ls) p = (Layer.pile ls p).map (Prod.mk o) :=
  (congrFun (Layer.recolor_pile (Prod.mk o) ls) p).symm

/-- A window is seen on all of its rectangle, up to what the windows in front of it, their shadows, the
panel and the cursor cover. -/
theorem window_seen (font : Font) (f : Frame) {p : Point} {below above : List Word} {a : Word}
    (hws : f.windows = below ++ a :: above)
    (hp : within (f.desktop.window a).x (f.desktop.window a).y (rounds (f.desktop.window a).w)
      (rounds (f.desktop.window a).h) p = true)
    (habove : ∀ l ∈ windowLayers font f.desktop.window above ++ owned .panel (panelParts font f.time) ++
      owned .cursor [cursor f.x f.y], l p = none) :
    ∃ c, Layer.pile (f.scene font) p = some (.window a, c) := by
  have hbody : (Layer.pile (windowParts font (f.desktop.window a)) p).isSome := by
    refine Layer.isSome_pile_iff.mpr ⟨_, List.mem_append_left _ List.mem_cons_self, ?_⟩
    rw [rect, Layer.region, if_pos hp]
    rfl
  obtain ⟨c, hc⟩ := Option.isSome_iff_exists.mp hbody
  have hsplit : f.scene font = owned .backdrop backdropParts ++ owned .icon (iconLayers font) ++
      windowLayers font f.desktop.window below ++ owned (.shadow a) [shadowOf (f.desktop.window a)] ++
      owned (.window a) (windowParts font (f.desktop.window a)) ++
      (windowLayers font f.desktop.window above ++ owned .panel (panelParts font f.time) ++
        owned .cursor [cursor f.x f.y]) := by
    simp only [Frame.scene, Gui.scene, hws, windowLayers, List.flatMap_append, List.flatMap_cons,
      List.append_assoc]
  refine ⟨c, ?_⟩
  rw [hsplit, Layer.pile_append, Layer.pile_eq_none_iff.mpr habove, Option.none_or, Layer.pile_append,
    pile_owned, hc]
  rfl

theorem Frame.seen (font : Font) (f : Frame) {p : Point} (hx : p.1.toNat < 800) (hy : p.2.toNat < 600)
    (base : Point → Word) :
    ∃ o, Layer.pile (f.scene font) p = some (o, (f.picture font).onto base p) := by
  obtain ⟨⟨o, c⟩, hsome⟩ := Option.isSome_iff_exists.mp (isSome_scene font f hx hy)
  refine ⟨o, ?_⟩
  rw [hsome, Layer.onto, Frame.picture, Layer.recolor, hsome]
  rfl

theorem pixel_vbeUpdate (s : State) (p : Point) : pixel (vbeUpdate s) p = pixel s p := rfl

/-- The back buffer after some frames. -/
theorem drawFrames_draws (font : Font) (fs : List Frame) (hs : Fits s) :
    ∃ s', drawFrames font fs s = some s' ∧ s'.width = s.width ∧ s'.height = s.height ∧
      s'.pitch = s.pitch ∧ ∀ p, OnScreen s p →
        pixel s' p = (Layer.pile (fs.map (Frame.picture font))).onto (pixel s) p := by
  induction fs generalizing s with
  | nil => exact ⟨s, rfl, rfl, rfl, rfl, fun _ _ => rfl⟩
  | cons f fs ih =>
    obtain ⟨s₁, hframe, hdraws⟩ := graphicsFrame_draws font f hs
    obtain ⟨s', hrun, hwidth, hheight, hpitch, hpixel⟩ := ih (s := vbeUpdate s₁) (hdraws.fits hs)
    refine ⟨s', ?_, hwidth.trans hdraws.width, hheight.trans hdraws.height, hpitch.trans hdraws.pitch,
      fun p hp => ?_⟩
    · rw [drawFrames, List.foldlM_cons, hframe]
      exact hrun
    · rw [hpixel p (hdraws.onScreen.mpr hp), Layer.onto, pixel_vbeUpdate,
        hdraws.pixel p hp, List.map_cons, Layer.onto, Layer.onto, Layer.pile_cons, Option.getD_or]

/-- **What the screen shows** after any number of frames, whatever windows, times and positions of the
mouse they have been drawn from: on the desktop the part of the last frame that lies on top, and elsewhere
what the last frame that drew there has left, or what was in the back buffer before. -/
theorem frames_shown (font : Font) (fs : List Frame) (f : Frame) (v : State) (hs : Fits v)
    (hpitch : v.pitch.toNat = 4 * v.width.toNat) :
    ∃ v', drawFrames font (fs ++ [f]) v = some v' ∧ ∀ p, OnScreen v p →
      shown v' p = (Layer.pile ((fs ++ [f]).map (Frame.picture font))).onto (pixel v) p ∧
      (p.1.toNat < 800 → p.2.toNat < 600 → ∃ o, Layer.pile (f.scene font) p = some (o, shown v' p)) := by
  obtain ⟨s, hrun, hwidth, hheight, hpitch', hpixel⟩ := drawFrames_draws font fs hs
  have hfits : Fits s := by rwa [Fits, hwidth, hheight]
  obtain ⟨s₁, hframe, hdraws⟩ := graphicsFrame_draws font f hfits
  refine ⟨vbeUpdate s₁, ?_, fun p hp => ?_⟩
  · rw [drawFrames] at hrun
    rw [drawFrames, List.foldlM_append, hrun, Option.bind_eq_bind, Option.bind_some, List.foldlM_cons, hframe]
    rfl
  have hon : OnScreen s p := by rwa [OnScreen, hwidth, hheight]
  have hshown : shown (vbeUpdate s₁) p = (f.picture font).onto (pixel s) p := by
    rw [vbeUpdate_shown (hdraws.fits hfits) (by rw [hdraws.pitch, hdraws.width, hpitch', hwidth, hpitch])
      (hdraws.onScreen.mpr hon), hdraws.pixel p hon]
  refine ⟨?_, fun hx hy => ?_⟩
  · rw [hshown, List.map_append, List.map_singleton, Layer.onto, hpixel p hp, Layer.onto, Layer.onto,
      Layer.pile_concat, Option.getD_or]
  · rw [hshown]
    exact f.seen font hx hy (pixel s)

end Drawing

/-- A font of blocks. -/
def blockFont : Font := fun _ _ => 0xFF#8

/-- A screen that is larger than the desktop, and grey. -/
def greyScreen : State := ⟨1024#32, 768#32, 4096#32, fun _ => 0x00808080#32, fun _ => 0#32⟩

/-- A click on the icon of the terminal. -/
def terminalDesktop : Desktop :=
  clickIcons (init fun _ => ⟨0#32, 0#32, 0#32, 0#32, ⟨"", by decide⟩, 0#32, [], 0#32, 0#32⟩) 4096#32 20#32 120#32

/-- Then one on that of the files, whose window covers a part of the other. -/
def filesDesktop : Desktop := clickIcons terminalDesktop 8192#32 20#32 190#32

def terminalFrame : Frame where
  desktop := terminalDesktop
  windows := [4096#32]
  time := ⟨12, 34, 56⟩
  x := 20#32
  y := 120#32
  ordered := (Ordered.init _).create (by decide) (by decide) _ _ _ _ _ _

def filesFrame : Frame where
  desktop := filesDesktop
  windows := [4096#32, 8192#32]
  time := ⟨12, 34, 57⟩
  x := 20#32
  y := 190#32
  ordered := terminalFrame.ordered.create (by decide) (by decide) _ _ _ _ _ _

/-- The title of the window in front is seen, and outside the desktop the screen stays grey. -/
theorem frames_shown_windows :
    ∃ v', drawFrames blockFont [terminalFrame, filesFrame] greyScreen = some v' ∧
      Layer.pile (filesFrame.scene blockFont) (311#32, 206#32) = some (.window 8192#32, ink) ∧
      shown v' (311#32, 206#32) = ink ∧ shown v' (900#32, 700#32) = 0x00808080#32 := by
  obtain ⟨v', hrun, hshown⟩ := frames_shown blockFont [terminalFrame] filesFrame greyScreen
    (by rw [Fits]; decide) (by decide)
  obtain ⟨htitle, hlast⟩ := hshown (311#32, 206#32) ⟨by decide, by decide⟩
  obtain ⟨houtside, -⟩ := hshown (900#32, 700#32) ⟨by decide, by decide⟩
  have hink : Layer.pile ([terminalFrame, filesFrame].map (Frame.picture blockFont)) (311#32, 206#32) = some ink := by
    decide +kernel
  have hbare : Layer.pile ([terminalFrame, filesFrame].map (Frame.picture blockFont)) (900#32, 700#32) = none := by
    decide +kernel
  rw [List.singleton_append, Layer.onto, hink, Option.getD_some] at htitle
  rw [List.singleton_append, Layer.onto, hbare, Option.getD_none] at houtside
  -- nothing is in front of that window there
  obtain ⟨c, hwindow⟩ := @window_seen blockFont filesFrame (311#32, 206#32) [4096#32] [] 8192#32 rfl (by decide)
    (Layer.pile_eq_none_iff.mp (by decide +kernel))
  obtain ⟨o, howner⟩ := hlast (by decide) (by decide)
  rw [hwindow, Option.some.injEq, Prod.mk.injEq, htitle] at howner
  rw [howner.2] at hwindow
  exact ⟨v', hrun, hwindow, htitle, houtside⟩

end PekerOS.Gui
