import Mathlib.Data.List.Basic
import Mathlib.Tactic.Common

/-!
# A window on an unbounded text

Text that is wrapped at a fixed width grows downwards without bound.  A window of
fixed height that only knows its own cells and a cursor, and that loses its first row
when it scrolls, shows the tail of that text, for any cells and any size.

## Main definitions

* `Text`, `Text.step`, `Text.layout` — the lines of the text, wrapped at a width.
* `Text.cell?` — what row `y`, column `x` of a window on the tail shows, if anything.
* `Window`, `Window.step` — the window.
* `Shows` — the window shows the tail, and the cursor is at the end of the last line.

## Main results

* `Shows.step` — **one input keeps the window on the tail.**
* `Shows.foldl` — so does every input.
* `Text.map_layout` — the layout does not look at the cells.
-/

namespace Scrollback

variable {α β : Type*}

/-! ### The text -/

/-- The finished lines, and the line being written. -/
structure Text (α : Type*) where
  finished : List (List α)
  current : List α

namespace Text

def empty : Text α := ⟨[], []⟩

/-- All lines; there is always one. -/
def lines (t : Text α) : List (List α) := t.finished ++ [t.current]

/-- Start a new line. -/
def newline (t : Text α) : Text α := ⟨t.lines, []⟩

/-- Append a cell to the last line. -/
def append (t : Text α) (a : α) : Text α := ⟨t.finished, t.current ++ [a]⟩

/-- Append a cell, and start a new line as soon as the last one is full. -/
def put (width : ℕ) (t : Text α) (a : α) : Text α :=
  if width ≤ (t.append a).current.length then (t.append a).newline else t.append a

/-- One input: a cell, or a line break. -/
def step (width : ℕ) (t : Text α) : Option α → Text α
  | none => t.newline
  | some a => t.put width a

/-- The layout of a sequence of inputs. -/
def layout (width : ℕ) (is : List (Option α)) : Text α := is.foldl (step width) empty

/-- What row `y`, column `x` shows in a window of height `height` on the last lines. -/
def cell? (height : ℕ) (t : Text α) (y x : ℕ) : Option α :=
  t.lines[t.lines.length - height + y]?.bind fun cells => cells[x]?

@[simp] theorem length_lines (t : Text α) : t.lines.length = t.finished.length + 1 := by
  simp [lines]

@[simp] theorem newline_current (t : Text α) : t.newline.current = [] := rfl

@[simp] theorem length_append_current (t : Text α) (a : α) :
    (t.append a).current.length = t.current.length + 1 := by
  simp [append]

/-- Nothing is shown past the last line. -/
theorem getElem?_lines_of_ge {t : Text α} {k : ℕ} (h : t.lines.length ≤ k) (x : ℕ) :
    (t.lines[k]?.bind fun cells => cells[x]?) = none := by
  rw [List.getElem?_eq_none h, Option.bind_none]

/-- A line break adds an empty line, which shows nothing. -/
theorem getElem?_lines_newline (t : Text α) (k x : ℕ) :
    (t.newline.lines[k]?.bind fun cells => cells[x]?) =
      t.lines[k]?.bind fun cells => cells[x]? := by
  rw [lines, List.getElem?_append]
  split
  · rfl
  · next hk =>
    rw [getElem?_lines_of_ge (Nat.not_lt.mp hk)]
    cases hm : k - t.newline.finished.length with
    | zero => rfl
    | succ m => rfl

/-- Below the height, a line break moves nothing. -/
theorem cell?_newline_of_lt {height : ℕ} {t : Text α} (h : t.lines.length < height) (y x : ℕ) :
    t.newline.cell? height y x = t.cell? height y x := by
  have hlen : t.newline.lines.length = t.lines.length + 1 := by simp [newline]
  have htop : t.lines.length + 1 - height = t.lines.length - height := by omega
  rw [cell?, getElem?_lines_newline, cell?, hlen, htop]

/-- At the height, a line break moves every row up. -/
theorem cell?_newline_of_ge {height : ℕ} {t : Text α} (h : height ≤ t.lines.length) {y : ℕ}
    (hy : y < height) (x : ℕ) : t.newline.cell? height y x =
      if y + 1 < height then t.cell? height (y + 1) x else none := by
  have hlen : t.newline.lines.length = t.lines.length + 1 := by simp [newline]
  have htop : t.lines.length + 1 - height + y = t.lines.length - height + (y + 1) := by omega
  rw [cell?, getElem?_lines_newline, cell?, hlen, htop]
  split
  · rfl
  · exact getElem?_lines_of_ge (by omega) x

/-- Appending a cell changes one place: the end of the last line. -/
theorem getElem?_lines_append (t : Text α) (a : α) (k x : ℕ) :
    ((t.append a).lines[k]?.bind fun cells => cells[x]?) =
      if k = t.finished.length ∧ x = t.current.length then some a
      else t.lines[k]?.bind fun cells => cells[x]? := by
  rw [lines, lines, append]
  -- a finished line, the last line, or none
  rcases Nat.lt_trichotomy k t.finished.length with hlt | rfl | hgt
  · rw [if_neg (by omega), List.getElem?_append_left hlt, List.getElem?_append_left hlt]
  · rw [List.getElem?_append_right (Nat.le_refl _),
      List.getElem?_append_right (Nat.le_refl _), Nat.sub_self]
    simp only [List.getElem?_cons_zero, Option.bind_some, true_and]
    rcases Nat.lt_trichotomy x t.current.length with hx | rfl | hx
    · rw [if_neg (by omega), List.getElem?_append_left hx]
    · rw [if_pos rfl, List.getElem?_append_right (Nat.le_refl _), Nat.sub_self,
        List.getElem?_cons_zero]
    · rw [if_neg (by omega), List.getElem?_eq_none (by simp; omega),
        List.getElem?_eq_none (by omega)]
  · rw [if_neg (by omega), List.getElem?_eq_none (by simp; omega),
      List.getElem?_eq_none (by simp; omega)]

/-- A step leaves room in the last line. -/
theorem step_fits {width : ℕ} (hw : 0 < width) (t : Text α) (i : Option α) :
    (t.step width i).current.length < width := by
  cases i with
  | none => exact hw
  | some a =>
    change (t.put width a).current.length < width
    unfold put
    split
    · exact hw
    · omega

/-- A cell that is shown is a cell of the text. -/
theorem mem_of_cell?_eq_some {height : ℕ} {t : Text α} {y x : ℕ} {a : α}
    (h : t.cell? height y x = some a) : ∃ line ∈ t.lines, a ∈ line := by
  obtain ⟨line, hline, ha⟩ := Option.bind_eq_some_iff.mp h
  exact ⟨line, List.mem_of_getElem? hline, List.mem_of_getElem? ha⟩

/-- A step adds the cell of its input, and no other. -/
theorem mem_lines_step {width : ℕ} {t : Text α} {i : Option α} {a : α}
    (h : ∃ line ∈ (t.step width i).lines, a ∈ line) :
    (∃ line ∈ t.lines, a ∈ line) ∨ i = some a := by
  have hnew : ∀ t : Text α, (∃ line ∈ t.newline.lines, a ∈ line) → ∃ line ∈ t.lines, a ∈ line := by
    rintro t ⟨line, hline, ha⟩
    rcases List.mem_append.mp hline with hline | hline
    · exact ⟨line, hline, ha⟩
    · rw [List.mem_singleton.mp hline] at ha
      exact absurd ha (List.not_mem_nil)
  have happ : ∀ b, (∃ line ∈ (t.append b).lines, a ∈ line) →
      (∃ line ∈ t.lines, a ∈ line) ∨ some b = some a := by
    rintro b ⟨line, hline, ha⟩
    rcases List.mem_append.mp hline with hline | hline
    · exact Or.inl ⟨line, List.mem_append_left _ hline, ha⟩
    · rw [List.mem_singleton.mp hline] at ha
      rcases List.mem_append.mp ha with ha | ha
      · exact Or.inl ⟨t.current, List.mem_append_right _ (List.mem_singleton_self _), ha⟩
      · exact Or.inr (by rw [List.mem_singleton.mp ha])
  cases i with
  | none => exact Or.inl (hnew t h)
  | some b =>
    change ∃ line ∈ (t.put width b).lines, a ∈ line at h
    unfold put at h
    split at h
    · exact happ b (hnew _ h)
    · exact happ b h

/-- **Every cell of the layout is one of the inputs.** -/
theorem mem_lines_layout {width : ℕ} {is : List (Option α)} {a : α}
    (h : ∃ line ∈ (layout width is).lines, a ∈ line) : some a ∈ is := by
  have hfold : ∀ t : Text α, (∃ line ∈ (is.foldl (step width) t).lines, a ∈ line) →
      (∃ line ∈ t.lines, a ∈ line) ∨ some a ∈ is := by
    clear h
    induction is with
    | nil => exact fun t ht => Or.inl ht
    | cons i is ih =>
      intro t ht
      rcases ih (t.step width i) ht with hstep | hmem
      · rcases mem_lines_step hstep with hold | hi
        · exact Or.inl hold
        · exact Or.inr (hi ▸ List.mem_cons_self)
      · exact Or.inr (List.mem_cons_of_mem _ hmem)
  rcases hfold empty h with ⟨line, hline, ha⟩ | hmem
  · rw [List.mem_singleton.mp hline] at ha
    exact absurd ha (List.not_mem_nil)
  · exact hmem

/-! ### Maps -/

/-- The text with every cell replaced by its image. -/
def map (f : α → β) (t : Text α) : Text β := ⟨t.finished.map (List.map f), t.current.map f⟩

theorem map_lines (f : α → β) (t : Text α) : (t.map f).lines = t.lines.map (List.map f) := by
  simp [lines, map]

theorem map_step (f : α → β) (width : ℕ) (t : Text α) (i : Option α) :
    (t.step width i).map f = (t.map f).step width (i.map f) := by
  have hnew : ∀ t : Text α, t.newline.map f = (t.map f).newline := by
    intro t
    rw [newline, newline, map, map_lines]
    rfl
  have happ : ∀ a, (t.append a).map f = (t.map f).append (f a) := by
    intro a
    simp [append, map]
  cases i with
  | none => exact hnew t
  | some a =>
    change (t.put width a).map f = (t.map f).put width (f a)
    rw [put, put, ← happ, apply_ite (map f), hnew]
    simp only [map, List.length_map]

/-- **The layout does not look at the cells.** -/
theorem map_layout (f : α → β) (width : ℕ) (is : List (Option α)) :
    (layout width is).map f = layout width (is.map (Option.map f)) := by
  have hfold : ∀ t : Text α, (is.foldl (step width) t).map f =
      (is.map (Option.map f)).foldl (step width) (t.map f) := by
    induction is with
    | nil => exact fun t => rfl
    | cons i is ih =>
      intro t
      rw [List.foldl_cons, ih, List.map_cons, List.foldl_cons, map_step]
  exact hfold empty

theorem cell?_map (f : α → β) (height : ℕ) (t : Text α) (y x : ℕ) :
    (t.map f).cell? height y x = (t.cell? height y x).map f := by
  rw [cell?, cell?, map_lines, List.length_map, List.getElem?_map]
  cases t.lines[t.lines.length - height + y]? with
  | none => rfl
  | some line => simp

end Text

/-! ### The window -/

/-- The cells of a window, row by row, and a cursor. -/
structure Window (α : Type*) where
  cell : ℕ → ℕ → α
  x : ℕ
  y : ℕ

namespace Window

/-- Every row moves up, and the last becomes blank. -/
def scroll (height : ℕ) (blank : α) (w : Window α) : Window α where
  cell y x := if y + 1 < height then w.cell (y + 1) x else blank
  x := 0
  y := w.y

/-- The cursor goes to the start of the next row, if there is one. -/
def newline (height : ℕ) (blank : α) (w : Window α) : Window α :=
  if height ≤ w.y + 1 then w.scroll height blank else { w with x := 0, y := w.y + 1 }

/-- Write a cell at the cursor and move it on. -/
def write (w : Window α) (a : α) : Window α where
  cell y x := if y = w.y ∧ x = w.x then a else w.cell y x
  x := w.x + 1
  y := w.y

/-- Write a cell, and go to the next row at the end of a row. -/
def put (width height : ℕ) (blank : α) (w : Window α) (a : α) : Window α :=
  if width ≤ (w.write a).x then (w.write a).newline height blank else w.write a

/-- One input: a cell, or a line break. -/
def step (width height : ℕ) (blank : α) (w : Window α) : Option α → Window α
  | none => w.newline height blank
  | some a => w.put width height blank a

/-- Two windows that agree on the cursor and on every cell of the given size. -/
structure Agrees (width height : ℕ) (w w' : Window α) : Prop where
  x : w.x = w'.x
  y : w.y = w'.y
  cell : ∀ y x, y < height → x < width → w.cell y x = w'.cell y x

end Window

/-- The window shows the tail of the text, and its cursor is at the end of the text. -/
structure Shows (width height : ℕ) (blank : α) (w : Window α) (t : Text α) : Prop where
  x : w.x = t.current.length
  y : w.y + 1 = min t.lines.length height
  cell : ∀ y x, y < height → x < width → w.cell y x = (t.cell? height y x).getD blank

namespace Shows

variable {width height : ℕ} {blank : α} {w w' : Window α} {t : Text α}

/-- Only the cells of the window and its cursor count. -/
theorem congr (h : Shows width height blank w t) (hw : w'.Agrees width height w) :
    Shows width height blank w' t := by
  refine ⟨hw.x.trans h.x, by rw [hw.y]; exact h.y, ?_⟩
  intro y x hy hx
  rw [hw.cell y x hy hx, h.cell y x hy hx]

/-- The blank window shows the empty text. -/
theorem empty (hheight : 0 < height) (hcell : ∀ y x, y < height → x < width → w.cell y x = blank)
    (hx : w.x = 0) (hy : w.y = 0) : Shows width height blank w Text.empty := by
  refine ⟨hx, ?_, ?_⟩
  · rw [hy, Text.length_lines]
    simp only [Text.empty, List.length_nil]
    omega
  · intro y x hy' hx'
    rw [hcell y x hy' hx', Text.cell?]
    cases hk : (Text.empty : Text α).lines.length - height + y with
    | zero => rfl
    | succ k => rfl

/-- A line break. -/
theorem newline (h : Shows width height blank w t) :
    Shows width height blank (w.newline height blank) t.newline := by
  have hy := h.y
  have hlen : t.newline.lines.length = t.lines.length + 1 := by simp [Text.newline]
  unfold Window.newline
  split
  · next hbottom =>
    -- the text has reached the bottom: the window scrolls
    refine ⟨rfl, ?_, ?_⟩
    · rw [hlen]
      change w.y + 1 = _
      omega
    · intro y x hy' hx'
      rw [Text.cell?_newline_of_ge (by omega) hy']
      change (if y + 1 < height then w.cell (y + 1) x else blank) = _
      split
      · next hlt => exact h.cell (y + 1) x hlt hx'
      · rfl
  · next hroom =>
    -- there is a row left: the new line is blank already
    refine ⟨rfl, ?_, ?_⟩
    · rw [hlen]
      change w.y + 1 + 1 = _
      omega
    · intro y x hy' hx'
      rw [Text.cell?_newline_of_lt (by omega)]
      exact h.cell y x hy' hx'

/-- A cell at the cursor. -/
theorem write (h : Shows width height blank w t) (a : α) :
    Shows width height blank (w.write a) (t.append a) := by
  have hy := h.y
  rw [Text.length_lines] at hy
  refine ⟨?_, ?_, ?_⟩
  · rw [Text.length_append_current, ← h.x]
    rfl
  · rw [Text.length_lines]
    exact hy
  · intro y x hy' hx'
    have hcell := h.cell y x hy' hx'
    change (if y = w.y ∧ x = w.x then a else w.cell y x) = _
    rw [Text.cell?, Text.getElem?_lines_append, hcell, h.x, Text.length_lines]
    by_cases hat : y = w.y ∧ x = t.current.length
    · rw [if_pos hat, if_pos ⟨by simp only [Text.append]; omega, hat.2⟩, Option.getD_some]
    · rw [if_neg hat, if_neg, Text.cell?, Text.length_lines]
      · rfl
      · intro hc
        refine hat ⟨?_, hc.2⟩
        have hk := hc.1
        simp only [Text.append] at hk
        omega

/-- **One input keeps the window on the tail.** -/
theorem step (h : Shows width height blank w t) (i : Option α) :
    Shows width height blank (w.step width height blank i) (t.step width i) := by
  cases i with
  | none => exact h.newline
  | some a =>
    have hwrite := h.write a
    change Shows width height blank (w.put width height blank a) (t.put width a)
    rw [Window.put, Text.put, hwrite.x]
    split
    · exact hwrite.newline
    · exact hwrite

/-- **The window stays on the tail**, whatever the input. -/
theorem foldl (h : Shows width height blank w t) (is : List (Option α)) :
    Shows width height blank (is.foldl (Window.step width height blank) w)
      (is.foldl (Text.step width) t) := by
  induction is generalizing w t with
  | nil => exact h
  | cons i is ih => exact ih (h.step i)

end Shows

end Scrollback
