import PekerOS.Lib.DoublyLinked
import PekerOS.Lib.Run
import PekerOS.Lib.Table

/-!
# The windows

The windows are on a doubly linked list, the one in front at its end. A click looks for a window from the
tail, closes it or raises it, and may leave a pointer to it for the next events, which move it while the
button is held. What is drawn is left out. Coordinates are signed, and pointers are addresses with 0 for
none; the address of a new window is what `kmalloc` returns.

## Main definitions

* `Window`, `Desktop`: a window, and the variables of `gui.c`
* `guiCreateWindow`, `guiDestroyWindow`, `guiBringToFront`, `guiOnMouseEvent`: the functions on the list
* `Event`, `step`: a new window, or the mouse
* `Ordered s ws`: the windows in their order

## Main results

* `window_list`: the list in every state, and what the functions do to it
-/

namespace PekerOS.Gui

/-! ## The functions -/

/-- A string that fits `char[64]`, as all titles and texts in the kernel do. -/
structure Text where
  chars : String
  fits : chars.utf8ByteSize < 64

/-- A label or a button. Only buttons have an `on_click`, which is `test_btn_click`. -/
structure Widget where
  isButton : Bool
  x : Word
  y : Word
  w : Word
  h : Word
  text : Text
  bgColor : Word

/-- The list of the widgets is kept as a list. -/
structure Window where
  x : Word
  y : Word
  w : Word
  h : Word
  title : Text
  color : Word
  widgets : List Widget
  next : Word
  prev : Word

/-- The variables of `gui.c`, the windows in memory, and which of them are allocated. `hung` says that
the handler has not returned. -/
structure Desktop where
  window : Word → Window
  head : Word
  tail : Word
  lastButtons : Word
  draggedWindow : Word
  dragOffX : Word
  dragOffY : Word
  live : Finset Word
  hung : Bool

def Desktop.setNext (s : Desktop) (win next : Word) : Desktop :=
  { s with window := Function.update s.window win { s.window win with next := next } }

def Desktop.setPrev (s : Desktop) (win prev : Word) : Desktop :=
  { s with window := Function.update s.window win { s.window win with prev := prev } }

/-- A window is allocated and gets its first contents. -/
def Desktop.alloc (s : Desktop) (win : Word) (v : Window) : Desktop :=
  { s with window := Function.update s.window win v, live := insert win s.live }

/-- `gui_create_window`, with the address that `kmalloc` returns. -/
def guiCreateWindow (s : Desktop) (win : Word) (title : Text) (x y w h color : Word) : Desktop :=
  let s := s.alloc win ⟨x, y, w, h, title, color, [], 0#32, 0#32⟩
  if s.head = 0#32 then { s with head := win, tail := win }
  else { ((s.setNext s.tail win).setPrev win s.tail) with tail := win }

/-- What `gui_destroy_window` and `gui_bring_to_front` begin with: the window is taken off the list, except
for the tail. -/
def Desktop.takeOut (s : Desktop) (win : Word) : Desktop :=
  let s := if (s.window win).prev ≠ 0#32 then s.setNext (s.window win).prev (s.window win).next else s
  let s := if (s.window win).next ≠ 0#32 then s.setPrev (s.window win).next (s.window win).prev else s
  if win = s.head then { s with head := (s.window win).next } else s

/-- `gui_destroy_window` -/
def guiDestroyWindow (s : Desktop) (win : Word) : Desktop :=
  if win = 0#32 then s
  else
    let s := s.takeOut win
    let s := if win = s.tail then { s with tail := (s.window win).prev } else s
    -- a pointer to it as the dragged window stays
    { s with live := s.live.erase win }

/-- `gui_bring_to_front` -/
def guiBringToFront (s : Desktop) (win : Word) : Desktop :=
  if win = 0#32 ∨ win = s.tail then s
  else
    let s := s.takeOut win
    let s := (s.setNext win 0#32).setPrev win s.tail
    let s := if s.tail ≠ 0#32 then s.setNext s.tail win else s
    let s := { s with tail := win }
    if s.head = 0#32 then { s with head := win } else s

/-- `gui_create_label` and `gui_create_button` put the widget behind the others. -/
def Desktop.addWidget (s : Desktop) (win : Word) (widget : Widget) : Desktop :=
  { s with
    window := Function.update s.window win
      { s.window win with widgets := (s.window win).widgets ++ [widget] } }

/-- `test_btn_click` -/
def testBtnClick (btn : Widget) : Widget :=
  if btn.text.chars = "Tikla Bana" then
    { btn with text := ⟨"Tiklandi!", by decide⟩, bgColor := 0x002ED573#32 }
  else { btn with text := ⟨"Tikla Bana", by decide⟩, bgColor := 0x00DFE4EA#32 }

/-- `x` and `y` are between the corners. -/
def inside (x y left top right bottom : Word) : Bool :=
  left.sle x && x.sle right && top.sle y && y.sle bottom

/-- The widget that is clicked gets its `on_click`. -/
def clickWidgets (win : Window) (x y : Word) : List Widget → List Widget
  | [] => []
  | w :: ws =>
    if inside x y (win.x + w.x) (win.y + w.y) (win.x + w.x + w.w) (win.y + w.y + w.h) then
      (if w.isButton then testBtnClick w else w) :: ws
    else w :: clickWidgets win x y ws

/-- A click on one of the icons opens a window. -/
def clickIcons (s : Desktop) (win x y : Word) : Desktop :=
  if x.slt 100#32 then
    if (40#32).sle y && y.sle 90#32 then
      ((guiCreateWindow s win ⟨"UI Test Paneli", by decide⟩ 200#32 150#32 400#32 250#32
        0x00F39C12#32).addWidget win
          ⟨false, 20#32, 40#32, 0#32, 0#32, ⟨"Merhaba PekerOS GUI!", by decide⟩, 0#32⟩).addWidget win
          ⟨true, 20#32, 80#32, 120#32, 30#32, ⟨"Tikla Bana", by decide⟩, 0x00DFE4EA#32⟩
    else if (110#32).sle y && y.sle 160#32 then
      guiCreateWindow s win ⟨"Terminal", by decide⟩ 100#32 100#32 500#32 350#32 0#32
    else if (180#32).sle y && y.sle 230#32 then
      guiCreateWindow s win ⟨"Dosyalar", by decide⟩ 300#32 200#32 450#32 300#32 0x003498DB#32
    else s
  else s

/-- The search from the tail for a window under the mouse, 0 if there is none. -/
def findWindow (window : Word → Window) (x y : Word) : ℕ → Word → Option Word
  | 0, _ => none
  | rounds + 1, curr =>
    if curr = 0#32 then some 0#32
    else
      let win := window curr
      if inside x y win.x win.y (win.x + win.w) (win.y + win.h) then some curr
      -- from the front to the back
      else findWindow window x y rounds win.prev

/-- A click on a window. -/
def clickWindow (s : Desktop) (curr x y : Word) : Desktop :=
  let win := s.window curr
  if inside x y (win.x + win.w - 20#32) (win.y + 5#32) (win.x + win.w - 5#32) (win.y + 20#32) then
    -- the close button
    guiDestroyWindow s curr
  else
    let s := guiBringToFront s curr
    let win := s.window curr
    if y.sle (win.y + 25#32) then
      -- the title bar
      { s with draggedWindow := curr, dragOffX := x - win.x, dragOffY := y - win.y }
    else
      { s with
        window := Function.update s.window curr { win with widgets := clickWidgets win x y win.widgets } }

/-- The button goes down: on an icon, and then on a window. There are `2 ^ 32` addresses, and a search that
is longer never ends. -/
def mouseClick (s : Desktop) (win x y : Word) : Desktop :=
  let s := clickIcons s win x y
  match findWindow s.window x y (2 ^ 32) s.tail with
  | none => { s with hung := true }
  | some curr => if curr = 0#32 then s else clickWindow s curr x y

/-- The window that is dragged follows the mouse. -/
def mouseDrag (s : Desktop) (x y buttons : Word) : Desktop :=
  if s.draggedWindow ≠ 0#32 ∧ buttons &&& 1#32 ≠ 0#32 then
    { s with
      window := Function.update s.window s.draggedWindow
        { s.window s.draggedWindow with x := x - s.dragOffX, y := y - s.dragOffY } }
  else s

/-- `gui_on_mouse_event`, with the address that `kmalloc` returns if an icon is clicked. -/
def guiOnMouseEvent (s : Desktop) (win x y buttons : Word) : Desktop :=
  -- a change against the buttons of the last event
  let leftClick := buttons &&& 1#32 ≠ 0#32 ∧ s.lastButtons &&& 1#32 = 0#32
  let leftRelease := buttons &&& 1#32 = 0#32 ∧ s.lastButtons &&& 1#32 ≠ 0#32
  let s := if leftClick then mouseClick s win x y else s
  let s := if leftRelease then { s with draggedWindow := 0#32 } else s
  let s := mouseDrag s x y buttons
  { s with lastButtons := buttons }

/-- A new window, or the mouse; `win` is where `kmalloc` puts a window. -/
inductive Event
  | create (win : Word) (title : Text) (x y w h color : Word)
  | mouse (win x y buttons : Word)

def step (s : Desktop) : Event → Desktop
  | .create win title x y w h color => guiCreateWindow s win title x y w h color
  | .mouse win x y buttons => guiOnMouseEvent s win x y buttons

/-- `kmalloc` succeeds: it returns an address that is not 0 and not that of another window. -/
def Fresh (s : Desktop) : Event → Prop
  | .create win .. => win ≠ 0#32 ∧ win ∉ s.live
  | .mouse win .. => win ≠ 0#32 ∧ win ∉ s.live

/-- After `gui_init`, whatever is in memory. -/
def init (window : Word → Window) : Desktop :=
  ⟨window, 0#32, 0#32, 0#32, 0#32, 0#32, 0#32, ∅, false⟩

/-! ## The links -/

/-- The links of the windows. -/
def Desktop.links (s : Desktop) : DoublyLinked Word where
  next a := (s.window a).next
  prev a := (s.window a).prev
  head := s.head
  tail := s.tail

section Links

variable {s : Desktop} {win : Word} {ws : List Word}

/-- A change of one window. -/
theorem links_window {t : Desktop} {v : Window} (h : t.window = Function.update s.window win v) :
    t.links = ⟨Function.update s.links.next win v.next, Function.update s.links.prev win v.prev,
      t.head, t.tail⟩ := by
  rw [Desktop.links, h, DoublyLinked.mk.injEq]
  exact ⟨Function.comp_update Window.next .., Function.comp_update Window.prev .., rfl, rfl⟩

theorem links_alloc (s : Desktop) (win : Word) (v : Window) :
    (s.alloc win v).links = ⟨Function.update s.links.next win v.next,
      Function.update s.links.prev win v.prev, s.links.head, s.links.tail⟩ :=
  links_window rfl

/-- One that leaves its links alone. -/
theorem links_same {t : Desktop} {v : Window} (h : t.window = Function.update s.window win v)
    (hnext : v.next = (s.window win).next) (hprev : v.prev = (s.window win).prev) (hhead : t.head = s.head)
    (htail : t.tail = s.tail) : t.links = s.links := by
  rw [links_window h, hnext, hprev, hhead, htail]
  change DoublyLinked.mk (Function.update s.links.next win (s.links.next win))
    (Function.update s.links.prev win (s.links.prev win)) _ _ = _
  rw [Function.update_eq_self, Function.update_eq_self]
  rfl

theorem links_setNext (s : Desktop) (win next : Word) :
    (s.setNext win next).links = { s.links with next := Function.update s.links.next win next } := by
  rw [links_window (s := s) rfl]
  change DoublyLinked.mk _ (Function.update s.links.prev win (s.links.prev win)) _ _ = _
  rw [Function.update_eq_self]
  rfl

theorem links_setPrev (s : Desktop) (win prev : Word) :
    (s.setPrev win prev).links = { s.links with prev := Function.update s.links.prev win prev } := by
  rw [links_window (s := s) rfl]
  change DoublyLinked.mk (Function.update s.links.next win (s.links.next win)) _ _ _ = _
  rw [Function.update_eq_self]
  rfl

/-- `gui_create_window` puts the window behind the tail. -/
theorem links_create (h : s.links.Lists 0#32 ws) (hwin : win ∉ ws) (title : Text) (x y w h' color : Word) :
    (guiCreateWindow s win title x y w h' color).links = s.links.append 0#32 win := by
  have hnull : s.tail = 0#32 ↔ s.head = 0#32 := h.tail_eq_null_iff.trans h.head_eq_null_iff.symm
  rw [guiCreateWindow]
  by_cases hhead : s.head = 0#32
  · have hhead' : s.links.head = 0#32 := hhead
    have htail : s.links.tail = 0#32 := hnull.mpr hhead
    rw [if_pos (show (s.alloc win _).head = 0#32 from hhead), DoublyLinked.append,
      if_neg (not_not.mpr htail), htail, if_pos hhead']
    change DoublyLinked.mk (s.alloc win _).links.next (s.alloc win _).links.prev win win = _
    rw [links_alloc]
  · have hhead' : s.links.head ≠ 0#32 := hhead
    have htail : s.links.tail ≠ 0#32 := fun ht => hhead (hnull.mp ht)
    have hne : s.links.tail ≠ win := fun ht => hwin (ht ▸ h.tail_mem htail)
    rw [if_neg (show (s.alloc win _).head ≠ 0#32 from hhead), DoublyLinked.append, if_pos htail,
      if_neg hhead']
    change DoublyLinked.mk (((s.alloc win _).setNext s.tail win).setPrev win s.tail).links.next
      (((s.alloc win _).setNext s.tail win).setPrev win s.tail).links.prev
      (((s.alloc win _).setNext s.tail win).setPrev win s.tail).links.head win = _
    rw [links_setPrev, links_setNext, links_alloc, Function.update_idem]
    dsimp only
    rw [Function.update_comm hne]
    rfl

/-- The links around the window go past it. -/
theorem links_takeOut (h : s.links.Lists 0#32 ws) (hwin : win ∈ ws) :
    (s.takeOut win).links = { s.links.unlink 0#32 win with tail := s.tail } := by
  have hprev : s.links.prev win ≠ win := h.prev_ne hwin
  have hnext : s.links.next win ≠ win := h.next_ne hwin
  have hnext_win : (s.links.unlink 0#32 win).next win = s.links.next win := by
    rw [DoublyLinked.unlink]
    split
    · exact Function.update_of_ne hprev.symm _ _
    · rfl
  -- the link of the previous window
  obtain ⟨t, ht, htlinks⟩ : ∃ t : Desktop, (if (s.window win).prev ≠ 0#32 then
      s.setNext (s.window win).prev (s.window win).next else s) = t ∧
      t.links = { s.links with next := (s.links.unlink 0#32 win).next } := by
    refine ⟨_, rfl, ?_⟩
    rw [DoublyLinked.unlink]
    split
    · next hne => rw [links_setNext, if_pos (show s.links.prev win ≠ 0#32 from hne)]; rfl
    · next heq => rw [if_neg (show ¬s.links.prev win ≠ 0#32 from heq)]
  have htnext : (t.window win).next = s.links.next win :=
    (congrFun (congrArg DoublyLinked.next htlinks) win).trans hnext_win
  have htprev : (t.window win).prev = s.links.prev win := congrFun (congrArg DoublyLinked.prev htlinks) win
  -- the link of the next
  obtain ⟨u, hu, hulinks⟩ : ∃ u : Desktop, (if (t.window win).next ≠ 0#32 then
      t.setPrev (t.window win).next (t.window win).prev else t) = u ∧
      u.links = { s.links with
        next := (s.links.unlink 0#32 win).next
        prev := (s.links.unlink 0#32 win).prev } := by
    refine ⟨_, rfl, ?_⟩
    rw [htnext, htprev]
    split
    · next hne => rw [links_setPrev, htlinks, DoublyLinked.unlink, if_pos hne]
    · next heq => rw [htlinks, DoublyLinked.unlink, if_neg heq]
  have hunext : (u.window win).next = s.links.next win :=
    (congrFun (congrArg DoublyLinked.next hulinks) win).trans hnext_win
  have huhead : u.head = s.links.head := congrArg DoublyLinked.head hulinks
  have hutail : u.tail = s.links.tail := congrArg DoublyLinked.tail hulinks
  rw [Desktop.takeOut, ht, hu, huhead, hunext, DoublyLinked.unlink]
  split
  · change { u.links with head := s.links.next win } = _
    rw [hulinks]
    rfl
  · rw [hulinks]
    rfl

/-- `gui_destroy_window` takes the window off the list. -/
theorem links_destroy (h : s.links.Lists 0#32 ws) (hwin : win ∈ ws) :
    (guiDestroyWindow s win).links = s.links.unlink 0#32 win := by
  have hout := links_takeOut h hwin
  have hprev : ((s.takeOut win).window win).prev = s.links.prev win := by
    refine (congrFun (congrArg DoublyLinked.prev hout) win).trans ?_
    dsimp only [DoublyLinked.unlink]
    split
    · exact Function.update_of_ne (h.next_ne hwin).symm _ _
    · rfl
  have htail : (s.takeOut win).tail = s.links.tail := congrArg DoublyLinked.tail hout
  rw [guiDestroyWindow, if_neg (h.ne_null hwin)]
  dsimp only
  rw [htail, hprev]
  split
  · next heq =>
    change { (s.takeOut win).links with tail := s.links.prev win } = _
    rw [hout, DoublyLinked.unlink, if_pos heq]
  · next hne =>
    change (s.takeOut win).links = _
    rw [hout, DoublyLinked.unlink, if_neg hne]
    rfl

/-- `gui_bring_to_front` puts it behind the tail again. -/
theorem links_bringToFront (h : s.links.Lists 0#32 ws) (hwin : win ∈ ws) (htail : win ≠ s.tail) :
    (guiBringToFront s win).links = (s.links.unlink 0#32 win).append 0#32 win := by
  have hnull : s.tail ≠ 0#32 := fun hnull => List.ne_nil_of_mem hwin (h.tail_eq_null_iff.mp hnull)
  have hout := links_takeOut h hwin
  have htail' : (s.takeOut win).tail = s.tail := congrArg DoublyLinked.tail hout
  have hunlink : (s.links.unlink 0#32 win).tail = s.tail := if_neg htail
  have hne : s.tail ≠ win := htail.symm
  obtain ⟨t, ht⟩ : ∃ t, t = (((s.takeOut win).setNext win 0#32).setPrev win s.tail).setNext s.tail win :=
    ⟨_, rfl⟩
  have htlinks : t.links = ⟨((s.links.unlink 0#32 win).append 0#32 win).next,
      ((s.links.unlink 0#32 win).append 0#32 win).prev, (s.links.unlink 0#32 win).head, s.tail⟩ := by
    rw [ht, links_setNext, links_setPrev, links_setNext, hout, DoublyLinked.append, hunlink, if_pos hnull]
    dsimp only
    rw [Function.update_comm hne]
  have hthead : t.head = (s.links.unlink 0#32 win).head := congrArg DoublyLinked.head htlinks
  have hutail : (((s.takeOut win).setNext win 0#32).setPrev win s.tail).tail = s.tail := htail'
  rw [guiBringToFront, if_neg (not_or.mpr ⟨h.ne_null hwin, htail⟩)]
  dsimp only
  rw [htail', hutail, if_pos hnull, ← ht, hthead]
  split
  · next hhead =>
    change DoublyLinked.mk t.links.next t.links.prev win win = _
    rw [htlinks, DoublyLinked.append, if_pos hhead]
  · next hhead =>
    change DoublyLinked.mk t.links.next t.links.prev (s.links.unlink 0#32 win).head win = _
    rw [htlinks, DoublyLinked.append, if_neg hhead]

end Links

/-! ## The rest of the state -/

/-- What the functions on the list leave alone. -/
def Desktop.rest (s : Desktop) : Word × Word × Bool := (s.lastButtons, s.draggedWindow, s.hung)

section Rest

variable (s : Desktop) (win : Word)

theorem rest_create (title : Text) (x y w h color : Word) :
    (guiCreateWindow s win title x y w h color).rest = s.rest := by
  rw [guiCreateWindow]
  dsimp only
  split <;> rfl

theorem live_create (title : Text) (x y w h color : Word) :
    (guiCreateWindow s win title x y w h color).live = insert win s.live := by
  rw [guiCreateWindow]
  dsimp only
  split <;> rfl

theorem rest_takeOut : (s.takeOut win).rest = s.rest := by
  rw [Desktop.takeOut]
  split_ifs <;> rfl

theorem live_takeOut : (s.takeOut win).live = s.live := by
  rw [Desktop.takeOut]
  split_ifs <;> rfl

theorem rest_destroy : (guiDestroyWindow s win).rest = s.rest := by
  rw [guiDestroyWindow]
  split
  · rfl
  · refine Eq.trans ?_ (rest_takeOut s win)
    dsimp only
    split <;> rfl

theorem live_destroy (hwin : win ≠ 0#32) : (guiDestroyWindow s win).live = s.live.erase win := by
  rw [guiDestroyWindow, if_neg hwin, ← live_takeOut s win]
  dsimp only
  split <;> rfl

theorem rest_bringToFront : (guiBringToFront s win).rest = s.rest := by
  rw [guiBringToFront]
  split
  · rfl
  · refine Eq.trans ?_ (rest_takeOut s win)
    dsimp only
    split_ifs <;> rfl

theorem live_bringToFront : (guiBringToFront s win).live = s.live := by
  rw [guiBringToFront]
  split
  · rfl
  · refine Eq.trans ?_ (live_takeOut s win)
    dsimp only
    split_ifs <;> rfl

end Rest

/-! ## The order of the windows -/

/-- The windows in their order, each once; they are the ones that are allocated. -/
structure Ordered (s : Desktop) (ws : List Word) : Prop where
  lists : s.links.Lists 0#32 ws
  live : ∀ a, a ∈ ws ↔ a ∈ s.live

namespace Ordered

variable {s t : Desktop} {ws : List Word} {win : Word}

/-- The order depends on the links and on what is allocated. -/
theorem congr (h : Ordered s ws) (hlinks : t.links = s.links) (hlive : t.live = s.live) : Ordered t ws :=
  ⟨hlinks ▸ h.lists, hlive ▸ h.live⟩

theorem init (window : Word → Window) : Ordered (init window) [] :=
  ⟨DoublyLinked.lists_nil _ _, fun a => iff_of_false List.not_mem_nil (Finset.notMem_empty a)⟩

theorem create (h : Ordered s ws) (hnull : win ≠ 0#32) (hwin : win ∉ s.live) (title : Text)
    (x y w h' color : Word) : Ordered (guiCreateWindow s win title x y w h' color) (ws ++ [win]) := by
  have hnew : win ∉ ws := fun hmem => hwin ((h.live win).mp hmem)
  refine ⟨links_create h.lists hnew title x y w h' color ▸ h.lists.append hnew hnull, fun a => ?_⟩
  rw [live_create, Finset.mem_insert, List.mem_append, List.mem_singleton, h.live, or_comm]

theorem destroy (h : Ordered s ws) (hwin : win ∈ ws) : Ordered (guiDestroyWindow s win) (ws.erase win) := by
  refine ⟨links_destroy h.lists hwin ▸ h.lists.unlink hwin, fun a => ?_⟩
  rw [live_destroy s win (h.lists.ne_null hwin), Finset.mem_erase, h.lists.nodup.mem_erase_iff, h.live]

theorem bringToFront (h : Ordered s ws) (hwin : win ∈ ws) :
    Ordered (guiBringToFront s win) (ws.erase win ++ [win]) := by
  have hnull := h.lists.ne_null hwin
  by_cases htail : win = s.tail
  · -- it is in front already
    have hsame : guiBringToFront s win = s := if_pos (.inr htail)
    have horder : ws.erase s.links.tail ++ [s.links.tail] = ws :=
      h.lists.erase_tail fun h0 => hnull (htail.trans h0)
    rw [hsame, htail]
    exact horder.symm ▸ h
  · have hnot : win ∉ ws.erase win := h.lists.nodup.not_mem_erase
    refine ⟨links_bringToFront h.lists hwin htail ▸ (h.lists.unlink hwin).append hnot hnull, fun a => ?_⟩
    rw [live_bringToFront, ← h.live, List.mem_append, List.mem_singleton, h.lists.nodup.mem_erase_iff]
    by_cases ha : a = win
    · exact iff_of_true (.inr ha) (ha ▸ hwin)
    · simp [ha]

end Ordered

/-- A click there is on the window, its border included. -/
def onWindow (win : Window) (x y : Word) : Bool := inside x y win.x win.y (win.x + win.w) (win.y + win.h)

/-- The search ends, with the first window under the mouse or with none. -/
theorem findWindow_eq {window : Word → Window} (x y : Word) {rounds : ℕ} {curr : Word} {ws : List Word}
    (h : Visits 0#32 (fun a => (window a).prev) curr ws 0#32) (hrounds : ws.length < rounds) :
    findWindow window x y rounds curr = some ((ws.find? fun a => onWindow (window a) x y).getD 0#32) := by
  induction ws generalizing curr rounds with
  | nil =>
    obtain ⟨k, rfl⟩ : ∃ k, rounds = k + 1 := ⟨rounds - 1, by simp at hrounds; omega⟩
    exact if_pos h
  | cons win ws ih =>
    obtain ⟨k, rfl⟩ : ∃ k, rounds = k + 1 := ⟨rounds - 1, by omega⟩
    obtain ⟨rfl, hne, hrest⟩ := h
    rw [List.length_cons] at hrounds
    have hnext := ih hrest (show ws.length < k by omega)
    rw [findWindow, if_neg hne, List.find?_cons]
    change (if onWindow (window curr) x y = true then some curr else _) = _
    cases onWindow (window curr) x y with
    | true => rfl
    | false => exact hnext

/-- There are fewer windows than addresses. -/
theorem Ordered.length_lt {s : Desktop} {ws : List Word} (h : Ordered s ws) : ws.length < 2 ^ 32 := by
  have hnodup : (0#32 :: ws).Nodup :=
    List.nodup_cons.mpr ⟨fun hmem => h.lists.ne_null hmem rfl, h.lists.nodup⟩
  have hsub : (0#32 :: ws).map BitVec.toNat ⊆ List.range (2 ^ 32) := by
    intro n hn
    obtain ⟨a, -, rfl⟩ := List.mem_map.mp hn
    exact List.mem_range.mpr a.isLt
  have hcard := ((hnodup.map BitVec.toNat_injective).subperm hsub).length_le
  rw [List.length_map, List.length_range, List.length_cons] at hcard
  exact hcard

/-! ## The mouse -/

/-- A click there is on one of the icons that open a window. -/
def onIcon (x y : Word) : Bool :=
  x.slt 100#32 && ((40#32).sle y && y.sle 90#32 || (110#32).sle y && y.sle 160#32 ||
    (180#32).sle y && y.sle 230#32)

/-- A click there is on the close button. -/
def onClose (win : Window) (x y : Word) : Bool :=
  inside x y (win.x + win.w - 20#32) (win.y + 5#32) (win.x + win.w - 5#32) (win.y + 20#32)

/-- The order after a click: of the windows under the mouse, the one in front is closed or raised. -/
def clicked (window : Word → Window) (x y : Word) (ws : List Word) : List Word :=
  match ws.reverse.find? fun a => onWindow (window a) x y with
  | none => ws
  | some a => if onClose (window a) x y then ws.erase a else ws.erase a ++ [a]

/-- What an event does to the order: a new window comes behind the others; when the button goes down, an
icon opens one, and then one is closed or raised; any other event of the mouse keeps the order. -/
def Effect (s : Desktop) : Event → List Word → List Word → Prop
  | .create win .., ws, ws' => ws' = ws ++ [win]
  | .mouse win x y buttons, ws, ws' =>
    ws' = if buttons &&& 1#32 ≠ 0#32 ∧ s.lastButtons &&& 1#32 = 0#32 then
        clicked (clickIcons s win x y).window x y (if onIcon x y then ws ++ [win] else ws)
      else ws

/-- What holds between two events. A window is dragged only while the button is held. -/
structure Kept (s : Desktop) (ws : List Word) : Prop where
  ordered : Ordered s ws
  dragged : s.draggedWindow = 0#32 ∨ s.draggedWindow ∈ s.live ∧ s.lastButtons &&& 1#32 ≠ 0#32
  hung : s.hung = false

section Mouse

variable {s : Desktop} {ws : List Word} {win : Word}

theorem Ordered.addWidget (h : Ordered s ws) (widget : Widget) : Ordered (s.addWidget win widget) ws :=
  h.congr (links_same (s := s) rfl rfl rfl rfl rfl) rfl

theorem clickIcons_ordered (h : Ordered s ws) (hnull : win ≠ 0#32) (hwin : win ∉ s.live) (x y : Word) :
    Ordered (clickIcons s win x y) (if onIcon x y then ws ++ [win] else ws) ∧
      (clickIcons s win x y).rest = s.rest := by
  have hcreate := h.create hnull hwin
  rw [clickIcons, onIcon]
  cases x.slt 100#32
  · exact ⟨h, rfl⟩
  cases (40#32).sle y && y.sle 90#32
  · cases (110#32).sle y && y.sle 160#32
    · cases (180#32).sle y && y.sle 230#32
      · exact ⟨h, rfl⟩
      · exact ⟨hcreate .., rest_create ..⟩
    · exact ⟨hcreate .., rest_create ..⟩
  · exact ⟨((hcreate ..).addWidget _).addWidget _, rest_create ..⟩

/-- A click on a window closes it or raises it; only a raised window can be dragged. -/
theorem clickWindow_ordered (h : Ordered s ws) (hwin : win ∈ ws) (hdragged : s.draggedWindow = 0#32)
    (x y : Word) :
    Ordered (clickWindow s win x y)
        (if onClose (s.window win) x y then ws.erase win else ws.erase win ++ [win]) ∧
      ((clickWindow s win x y).draggedWindow = 0#32 ∨
        (clickWindow s win x y).draggedWindow ∈ (clickWindow s win x y).live) ∧
      (clickWindow s win x y).hung = s.hung := by
  have hdestroy := rest_destroy s win
  have hbring := rest_bringToFront s win
  rw [Desktop.rest, Desktop.rest, Prod.mk.injEq, Prod.mk.injEq, hdragged] at hdestroy hbring
  have hraised := h.bringToFront hwin
  rw [clickWindow, onClose]
  dsimp only
  split_ifs
  · exact ⟨h.destroy hwin, .inl hdestroy.2.1, hdestroy.2.2⟩
  · refine ⟨hraised.congr rfl rfl, .inr ?_, hbring.2.2⟩
    exact (hraised.live win).mp (List.mem_append_right _ List.mem_cons_self)
  · exact ⟨hraised.congr (links_same (s := guiBringToFront s win) rfl rfl rfl rfl rfl) rfl,
      .inl hbring.2.1, hbring.2.2⟩

theorem mouseClick_ordered (h : Ordered s ws) (hnull : win ≠ 0#32) (hwin : win ∉ s.live)
    (hdragged : s.draggedWindow = 0#32) (x y : Word) :
    Ordered (mouseClick s win x y)
        (clicked (clickIcons s win x y).window x y (if onIcon x y then ws ++ [win] else ws)) ∧
      ((mouseClick s win x y).draggedWindow = 0#32 ∨
        (mouseClick s win x y).draggedWindow ∈ (mouseClick s win x y).live) ∧
      (mouseClick s win x y).hung = s.hung := by
  obtain ⟨hicons, hrest⟩ := clickIcons_ordered h hnull hwin x y
  rw [Desktop.rest, Desktop.rest, Prod.mk.injEq, Prod.mk.injEq, hdragged] at hrest
  generalize hws₁ : (if onIcon x y then ws ++ [win] else ws) = ws₁ at hicons ⊢
  have hlen : ws₁.reverse.length < 2 ^ 32 := by
    rw [List.length_reverse]
    exact hicons.length_lt
  have hfound := findWindow_eq x y hicons.lists.backward hlen
  rw [mouseClick, clicked]
  change findWindow _ x y (2 ^ 32) (clickIcons s win x y).tail = _ at hfound
  rw [hfound]
  cases hfind : ws₁.reverse.find? fun a => onWindow ((clickIcons s win x y).window a) x y with
  | none => exact ⟨hicons, .inl hrest.2.1, hrest.2.2⟩
  | some found =>
    have hmem : found ∈ ws₁ := List.mem_reverse.mp (List.mem_of_find?_eq_some hfind)
    have hne : found ≠ 0#32 := hicons.lists.ne_null hmem
    simp only [Option.getD_some, if_neg hne]
    obtain ⟨hordered, hdrag, hhung⟩ := clickWindow_ordered hicons hmem hrest.2.1 x y
    exact ⟨hordered, hdrag, hhung.trans hrest.2.2⟩

/-- The window that is dragged moves, and stays in its place in the order. -/
theorem Ordered.mouseDrag (h : Ordered s ws) (x y buttons : Word) :
    Ordered (mouseDrag s x y buttons) ws := by
  rw [Gui.mouseDrag]
  split
  · exact h.congr (links_same (s := s) rfl rfl rfl rfl rfl) rfl
  · exact h

theorem rest_mouseDrag (s : Desktop) (x y buttons : Word) :
    (Gui.mouseDrag s x y buttons).rest = s.rest ∧ (Gui.mouseDrag s x y buttons).live = s.live := by
  rw [Gui.mouseDrag]
  split <;> exact ⟨rfl, rfl⟩

theorem Kept.mouse (h : Kept s ws) (hnull : win ≠ 0#32) (hwin : win ∉ s.live) (x y buttons : Word) :
    ∃ ws', Kept (guiOnMouseEvent s win x y buttons) ws' ∧ Effect s (.mouse win x y buttons) ws ws' := by
  -- the state after the click, if there is one
  obtain ⟨t, ht, ws', hordered, heffect, hdrag, hhung⟩ : ∃ t, (if buttons &&& 1#32 ≠ 0#32 ∧
      s.lastButtons &&& 1#32 = 0#32 then mouseClick s win x y else s) = t ∧
      ∃ ws', Ordered t ws' ∧ Effect s (.mouse win x y buttons) ws ws' ∧
        (t.draggedWindow = 0#32 ∨ t.draggedWindow ∈ t.live ∧
          (buttons &&& 1#32 ≠ 0#32 ∨ s.lastButtons &&& 1#32 ≠ 0#32)) ∧ t.hung = false := by
    refine ⟨_, rfl, ?_⟩
    split
    · next hclick =>
      -- the button was up, so nothing was dragged
      have hdragged : s.draggedWindow = 0#32 := h.dragged.resolve_right fun hd => hd.2 hclick.2
      obtain ⟨hordered, hdrag, hhung⟩ := mouseClick_ordered h.ordered hnull hwin hdragged x y
      exact ⟨_, hordered, (if_pos hclick).symm, hdrag.imp_right (⟨·, .inl hclick.1⟩), hhung.trans h.hung⟩
    · next hclick =>
      refine ⟨ws, h.ordered, (if_neg hclick).symm, ?_, h.hung⟩
      exact h.dragged.imp_right fun hd => ⟨hd.1, .inr hd.2⟩
  -- the state after the release, if there is one
  obtain ⟨u, hu, huordered, hudrag, huhung⟩ : ∃ u, (if buttons &&& 1#32 = 0#32 ∧
      s.lastButtons &&& 1#32 ≠ 0#32 then { t with draggedWindow := 0#32 } else t) = u ∧
      Ordered u ws' ∧ (u.draggedWindow = 0#32 ∨ u.draggedWindow ∈ u.live ∧ buttons &&& 1#32 ≠ 0#32) ∧
      u.hung = false := by
    refine ⟨_, rfl, ?_⟩
    split
    · exact ⟨hordered.congr rfl rfl, .inl rfl, hhung⟩
    · next hheld =>
      refine ⟨hordered, hdrag.imp_right fun hd => ⟨hd.1, hd.2.elim id fun hlast hup => ?_⟩, hhung⟩
      exact hheld ⟨hup, hlast⟩
  obtain ⟨hrest, hlive⟩ := rest_mouseDrag u x y buttons
  rw [Desktop.rest, Desktop.rest, Prod.mk.injEq, Prod.mk.injEq] at hrest
  rw [guiOnMouseEvent, ht, hu]
  refine ⟨ws', ⟨(huordered.mouseDrag x y buttons).congr rfl rfl, ?_, hrest.2.2.trans huhung⟩, heffect⟩
  dsimp only
  rw [hrest.2.1, hlive]
  exact hudrag

theorem Kept.step (h : Kept s ws) {e : Event} (hfresh : Fresh s e) :
    ∃ ws', Kept (step s e) ws' ∧ Effect s e ws ws' := by
  cases e with
  | create win title x y w h' color =>
    have hrest := rest_create s win title x y w h' color
    rw [Desktop.rest, Desktop.rest, Prod.mk.injEq, Prod.mk.injEq] at hrest
    have hkept : Kept (guiCreateWindow s win title x y w h' color) (ws ++ [win]) := by
      refine ⟨h.ordered.create hfresh.1 hfresh.2 title x y w h' color, ?_, hrest.2.2.trans h.hung⟩
      rw [hrest.1, hrest.2.1, live_create]
      exact h.dragged.imp_right (And.imp_left Finset.mem_insert_of_mem)
    exact ⟨_, hkept, rfl⟩
  | mouse win x y buttons => exact h.mouse hfresh.1 hfresh.2 x y buttons

end Mouse

/-- **The list of windows.** When `kmalloc` succeeds, in every state of a run the links lead through the
allocated windows, each once, in one order and in its reverse; `gui_destroy_window` and
`gui_bring_to_front` take a window out of the order and put it at the end; a new window comes to the end;
when the button goes down, the window in front under the mouse is closed if that is on its close button, and
otherwise raised, and no other event of the mouse changes the order; and no window is dragged that is not
there. -/
theorem window_list (window : Word → Window) (es : List Event) (h : Steps step Fresh (init window) es) :
    Along step (fun s => ∃ ws, Ordered s ws ∧
      (s.draggedWindow = 0#32 ∨ s.draggedWindow ∈ s.live) ∧ s.hung = false ∧
      (∀ win ∈ ws, Ordered (guiDestroyWindow s win) (ws.erase win) ∧
        Ordered (guiBringToFront s win) (ws.erase win ++ [win])) ∧
      ∀ e, Fresh s e → ∃ ws', Ordered (step s e) ws' ∧ Effect s e ws ws') (init window) es := by
  have hinit : ∃ ws, Kept (init window) ws := ⟨[], .init window, .inl rfl, rfl⟩
  have hkept : Along step (fun s => ∃ ws, Kept s ws) (init window) es :=
    along_of_steps (I := fun _ => True) (fun _ => trivial)
      (fun _ ⟨_, hs⟩ hfresh => (hs.step hfresh).imp fun _ => And.left) trivial hinit h
  refine hkept.imp fun ⟨ws, hs⟩ => ⟨ws, hs.ordered, hs.dragged.imp_right And.left, hs.hung, ?_, ?_⟩
  · exact fun win hwin => ⟨hs.ordered.destroy hwin, hs.ordered.bringToFront hwin⟩
  · exact fun e hfresh => (hs.step hfresh).imp fun _ hs' => ⟨hs'.1.ordered, hs'.2⟩

/-- Two windows; a click raises the one at the back, and the next closes it. -/
theorem window_list_two :
    let es := [.create 4096#32 ⟨"Terminal", by decide⟩ 250#32 200#32 400#32 250#32 0#32,
      .create 8192#32 ⟨"Dosyalar", by decide⟩ 300#32 200#32 450#32 300#32 0#32,
      .mouse 12288#32 260#32 210#32 1#32, .mouse 12288#32 260#32 210#32 0#32, .mouse 12288#32 640#32 210#32 1#32]
    Along step (fun s => ∃ ws, Ordered s ws ∧
      (s.draggedWindow = 0#32 ∨ s.draggedWindow ∈ s.live) ∧ s.hung = false ∧
      (∀ win ∈ ws, Ordered (guiDestroyWindow s win) (ws.erase win) ∧
        Ordered (guiBringToFront s win) (ws.erase win ++ [win])) ∧
      ∀ e, Fresh s e → ∃ ws', Ordered (step s e) ws' ∧ Effect s e ws ws')
      (init fun _ => ⟨0#32, 0#32, 0#32, 0#32, ⟨"", by decide⟩, 0#32, [], 0#32, 0#32⟩) es :=
  window_list _ _ ⟨⟨by decide, by decide⟩, ⟨by decide, by decide⟩, ⟨by decide, by decide⟩, ⟨by decide, by decide⟩,
    ⟨by decide, by decide⟩, trivial⟩

end PekerOS.Gui
