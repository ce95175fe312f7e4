import MVK.Lib.Scrollback
import MVK.Terminal

/-!
# The screen shows the tail of the text

The terminal's buffer, read cell by cell, is a window on the wrapped text: writing a
character, ending a row and scrolling are what they are for a window of cells.  So the
screen shows the last lines of everything that was ever written.

## Main definitions

* `Geometry` — what the boot loader promises of the buffer.
* `windowOf` — the buffer as a window of cells.
* `glyph` — a character as an input of the layout: its cell, or a line break.
* `Renders` — the console shows a text.

## Main results

* `terminalScrolldown_agrees`, `terminalNewline_agrees` — the code is the window.
* `Renders.putchars` — every run of characters keeps the console on the text.
* `screen_shows_tail` — **the screen shows the tail of the text.**
-/

namespace MVK

open Scrollback Translation

/-- Character cells of one pixel unit, at least one of them, in a buffer that lies
within the address space. -/
structure Geometry (t : Terminal) : Prop where
  charWidth : t.charWidth = 1
  charHeight : t.charHeight = 1
  width_pos : 1 ≤ t.width.toNat
  height_pos : 1 ≤ t.height.toNat
  fits : t.buffer.toNat + 2 * (t.height.toNat * t.width.toNat) ≤ 2 ^ 32

/-- The address of the cell in row `y`, column `x`. -/
def Terminal.cellNum (t : Terminal) (y x : ℕ) : ℕ := t.buffer.toNat + 2 * (y * t.width.toNat + x)

/-- The cell in row `y`, column `x`. -/
def Terminal.cell (t : Terminal) (mem : Memory) (y x : ℕ) : BitVec 16 :=
  read16 mem (BitVec.ofNat 32 (t.cellNum y x))

/-- The buffer and the cursor, as a window of cells. -/
def windowOf (s : Console) : Window (BitVec 16) where
  cell := s.term.cell s.mem
  x := s.term.x.toNat
  y := s.term.y.toNat

/-! ### Addresses of cells -/

theorem cellAddr_eq (t : Terminal) (y x : ℕ) :
    t.cellAddr (BitVec.ofNat 32 y * t.width + BitVec.ofNat 32 x) =
      BitVec.ofNat 32 (t.cellNum y x) := by
  simp only [Terminal.cellAddr, Terminal.cellNum, BitVec.ofNat_add, BitVec.ofNat_mul,
    BitVec.ofNat_toNat, BitVec.setWidth_eq]
  rfl

/-- Where a cell lies in its row. -/
theorem cellNum_eq_row_add (t : Terminal) (y x : ℕ) : t.cellNum y x = t.cellNum y 0 + 2 * x := by
  unfold Terminal.cellNum
  omega

theorem cellNum_succ_row (t : Terminal) (y : ℕ) :
    t.cellNum (y + 1) 0 = t.cellNum y 0 + 2 * t.width.toNat := by
  unfold Terminal.cellNum
  rw [Nat.add_mul]
  omega

/-- A cell ends before the next row begins. -/
theorem cellNum_row_end {t : Terminal} (y : ℕ) {x : ℕ} (hx : x < t.width.toNat) :
    t.cellNum y x + 2 ≤ t.cellNum (y + 1) 0 := by
  rw [cellNum_eq_row_add, cellNum_succ_row]
  omega

/-- Rows come in order. -/
theorem cellNum_row_mono (t : Terminal) {y y' : ℕ} (h : y ≤ y') :
    t.cellNum y 0 ≤ t.cellNum y' 0 := by
  have hmul := Nat.mul_le_mul_right t.width.toNat h
  unfold Terminal.cellNum
  omega

/-- Two cells of the screen do not overlap. -/
theorem cellNum_apart {t : Terminal} {y x y' x' : ℕ} (hx : x < t.width.toNat)
    (hx' : x' < t.width.toNat) (hne : ¬ (y = y' ∧ x = x')) :
    t.cellNum y x + 2 ≤ t.cellNum y' x' ∨ t.cellNum y' x' + 2 ≤ t.cellNum y x := by
  -- an earlier row, the same row, or a later one
  rcases Nat.lt_trichotomy y y' with hlt | rfl | hgt
  · have hend := cellNum_row_end y hx
    have hmono := cellNum_row_mono t (show y + 1 ≤ y' by omega)
    rw [cellNum_eq_row_add t y' x']
    omega
  · rw [cellNum_eq_row_add t y x, cellNum_eq_row_add t y x']
    omega
  · have hend := cellNum_row_end y' hx'
    have hmono := cellNum_row_mono t (show y' + 1 ≤ y by omega)
    rw [cellNum_eq_row_add t y x]
    omega

section Cells

variable {t : Terminal} (hg : Geometry t)

include hg

theorem Geometry.row_le {y : ℕ} (hy : y ≤ t.height.toNat) : t.cellNum y 0 ≤ 2 ^ 32 := by
  have hmono := cellNum_row_mono t hy
  have hfits := hg.fits
  unfold Terminal.cellNum at hmono ⊢
  omega

/-- A cell of the screen lies within the address space. -/
theorem Geometry.cell_le {y x : ℕ} (hy : y < t.height.toNat) (hx : x < t.width.toNat) :
    t.cellNum y x + 2 ≤ 2 ^ 32 :=
  (cellNum_row_end y hx).trans (hg.row_le hy)

/-- A store to a cell changes that cell only. -/
theorem Geometry.cell_write16 (mem : Memory) {y x y' x' : ℕ} (hy : y < t.height.toNat)
    (hx : x < t.width.toNat) (hy' : y' < t.height.toNat) (hx' : x' < t.width.toNat)
    (w : BitVec 16) :
    t.cell (write16 mem (BitVec.ofNat 32 (t.cellNum y x)) w) y' x' =
      if y' = y ∧ x' = x then w else t.cell mem y' x' := by
  split
  · next heq =>
    rw [heq.1, heq.2, Terminal.cell, read16_write16_same mem (hg.cell_le hy hx)]
  · next hne =>
    exact read16_write16_of_ne mem (hg.cell_le hy hx) (hg.cell_le hy' hx')
      (cellNum_apart hx' hx hne) w

/-! ### Clearing and scrolling -/

/-- Clearing part of a row. -/
theorem Geometry.cell_clearRow (mem : Memory) {y n : ℕ} (hy : y < t.height.toNat)
    (hn : n ≤ t.width.toNat) {y' x' : ℕ} (hy' : y' < t.height.toNat) (hx' : x' < t.width.toNat) :
    t.cell (clearRow t (BitVec.ofNat 32 y) n mem) y' x' =
      if y' = y ∧ x' < n then blankEntry else t.cell mem y' x' := by
  induction n with
  | zero => rw [if_neg (by omega)]; rfl
  | succ n ih =>
    rw [clearRow, cellAddr_eq, hg.cell_write16 _ hy (by omega) hy' hx', ih (by omega)]
    by_cases hnew : y' = y ∧ x' = n
    · rw [if_pos hnew, if_pos ⟨hnew.1, by omega⟩]
    · rw [if_neg hnew]
      exact if_congr (by omega) rfl rfl

/-- The cleared screen is blank. -/
theorem Geometry.cell_clearScreen (mem : Memory) {n : ℕ} (hn : n ≤ t.height.toNat) {y x : ℕ}
    (hy : y < n) (hx : x < t.width.toNat) : t.cell (clearScreen t n mem) y x = blankEntry := by
  induction n with
  | zero => omega
  | succ n ih =>
    rw [clearScreen, hg.cell_clearRow _ (by omega) le_rfl (by omega) hx]
    split
    · rfl
    · exact ih (by omega) (by omega)

/-- The last row is blanked like any other. -/
theorem blankLastRow_eq (n : ℕ) (mem : Memory) :
    blankLastRow t n mem = clearRow t (BitVec.ofNat 32 (t.height.toNat - 1)) n mem := by
  have hpos := hg.height_pos
  have hlast : t.height - 1 = BitVec.ofNat 32 (t.height.toNat - 1) := by
    apply BitVec.eq_of_toNat_eq
    have hlt := t.height.isLt
    rw [BitVec.toNat_sub, BitVec.toNat_ofNat, toNat_one_word]
    omega
  induction n with
  | zero => rfl
  | succ n ih => rw [blankLastRow, clearRow, ih, hlast]

/-- One row copy of the scroll: row `y + 1` to row `y`. -/
theorem Geometry.cell_copyRow (mem : Memory) {y : ℕ} (hy : y + 1 < t.height.toNat) {y' x' : ℕ}
    (hy' : y' < t.height.toNat) (hx' : x' < t.width.toNat) :
    t.cell (memcpy (t.cellAddr (t.width * (BitVec.ofNat 32 (y + 1) - 1)))
      (t.cellAddr (t.width * BitVec.ofNat 32 (y + 1))) (t.width * 2) mem).2 y' x' =
        if y' = y then t.cell mem (y + 1) x' else t.cell mem y' x' := by
  have hdst : t.cellAddr (t.width * (BitVec.ofNat 32 (y + 1) - 1)) =
      BitVec.ofNat 32 (t.cellNum y 0) := by
    rw [← cellAddr_eq, BitVec.mul_comm, BitVec.ofNat_add]
    simp
  have hsrc : t.cellAddr (t.width * BitVec.ofNat 32 (y + 1)) =
      BitVec.ofNat 32 (t.cellNum (y + 1) 0) := by
    rw [← cellAddr_eq, BitVec.mul_comm]
    simp
  have hnext := cellNum_succ_row t y
  have hnext' := cellNum_succ_row t (y + 1)
  have hend := hg.row_le (show y + 1 + 1 ≤ t.height.toNat by omega)
  have hnum : (t.width * 2).toNat = 2 * t.width.toNat := by
    rw [BitVec.toNat_mul, show (2 : Word).toNat = 2 from rfl]
    omega
  have hpos := hg.width_pos
  -- the two rows do not overlap, so the order of the bytes does not matter
  rw [memcpy, hdst, hsrc, hnum]
  split
  · next heq =>
    rw [heq, Terminal.cell, Terminal.cell, cellNum_eq_row_add t y x',
      cellNum_eq_row_add t (y + 1) x', read16_memcpyLoop_mem (by omega) (by omega)
        (Or.inl (by omega)) mem (by omega)]
  · next hne =>
    refine read16_memcpyLoop_notMem (by omega) (by omega) (Or.inl (by omega)) mem
      (hg.cell_le hy' hx') ?_
    rcases Nat.lt_or_gt_of_ne hne with hlt | hgt
    · exact Or.inl ((cellNum_row_end y' hx').trans (cellNum_row_mono t (by omega)))
    · have hmono := cellNum_row_mono t (show y + 1 ≤ y' by omega)
      rw [cellNum_eq_row_add t y']
      omega

/-- After `n` row copies, the first `n` rows have moved up. -/
theorem Geometry.cell_scrollRows (mem : Memory) {n : ℕ} (hn : n < t.height.toNat) {y x : ℕ}
    (hy : y < t.height.toNat) (hx : x < t.width.toNat) :
    t.cell (scrollRows t n mem) y x = if y < n then t.cell mem (y + 1) x else t.cell mem y x := by
  induction n generalizing y with
  | zero => rw [if_neg (by omega)]; rfl
  | succ n ih =>
    rw [scrollRows, hg.cell_copyRow _ hn hy hx]
    by_cases hyn : y = n
    · -- row `n + 1` is still what it was when it is copied
      rw [if_pos hyn, if_pos (by omega), ih (by omega) hn, if_neg (by omega), hyn]
    · rw [if_neg hyn, ih (by omega) hy]
      exact if_congr (by omega) rfl rfl

end Cells

/-! ### The code is the window -/

/-- The next row.  It may be the one below the last. -/
theorem toNat_next_row {t : Terminal} (hchar : t.charHeight = 1)
    (hy : t.y.toNat < t.height.toNat) : (t.y + t.charHeight).toNat = t.y.toNat + 1 := by
  have hlt := t.height.isLt
  rw [hchar, BitVec.toNat_add, toNat_one_word]
  omega

/-- The row goes one down and one up again. -/
theorem next_row_sub_one {t : Terminal} (hchar : t.charHeight = 1) :
    t.y + t.charHeight - 1 = t.y := by
  rw [hchar, BitVec.add_sub_cancel]

section Window

variable {s : Console} (hg : Geometry s.term)

include hg

theorem terminalScrolldown_agrees : (windowOf (terminalScrolldown s)).Agrees s.term.width.toNat
    s.term.height.toNat ((windowOf s).scroll s.term.height.toNat blankEntry) := by
  have hpos := hg.height_pos
  refine ⟨rfl, rfl, ?_⟩
  intro y x hy hx
  change s.term.cell (blankLastRow s.term s.term.width.toNat
    (scrollRows s.term (s.term.height.toNat - 1) s.mem)) y x =
      if y + 1 < s.term.height.toNat then s.term.cell s.mem (y + 1) x else blankEntry
  rw [blankLastRow_eq hg, hg.cell_clearRow _ (by omega) le_rfl hy hx,
    hg.cell_scrollRows _ (by omega) hy hx]
  by_cases hlast : y + 1 < s.term.height.toNat
  · rw [if_neg (by omega), if_pos (by omega), if_pos hlast]
  · rw [if_pos ⟨by omega, hx⟩, if_neg hlast]

theorem terminalNewline_agrees (hy : s.term.y.toNat < s.term.height.toNat) :
    (windowOf (terminalNewline s)).Agrees s.term.width.toNat s.term.height.toNat
      ((windowOf s).newline s.term.height.toNat blankEntry) := by
  have hnext := toNat_next_row hg.charHeight hy
  have hcond : s.term.y + s.term.charHeight ≥ s.term.height ↔
      s.term.height.toNat ≤ (windowOf s).y + 1 := by
    rw [ge_iff_le, BitVec.le_def, hnext]
    rfl
  unfold terminalNewline Window.newline
  dsimp only
  by_cases hbottom : s.term.y + s.term.charHeight ≥ s.term.height
  · rw [if_pos hbottom, if_pos (hcond.mp hbottom)]
    rw [next_row_sub_one hg.charHeight]
    exact terminalScrolldown_agrees (s := { s with term := { s.term with x := 0 } })
      ⟨hg.charWidth, hg.charHeight, hg.width_pos, hg.height_pos, hg.fits⟩
  · rw [if_neg hbottom, if_neg fun h => hbottom (hcond.mpr h)]
    exact ⟨rfl, hnext, fun _ _ _ _ => rfl⟩

end Window

/-- A character as an input of the layout. -/
def glyph (c : BitVec 8 × BitVec 8) : Option (BitVec 16) :=
  if c.1 = 0x0A then none else some (vgaEntry c.1 c.2)

/-- The console with a character written at the cursor, and the cursor moved on. -/
def written (c color : BitVec 8) (s : Console) : Console :=
  let s' := terminalPutentryat c color s.term.x s.term.y s
  { s' with term := { s'.term with x := s.term.x + s.term.charWidth } }

theorem terminalPutchar_of_ne {c : BitVec 8} (hc : c ≠ 0x0A) (color : BitVec 8) (s : Console) :
    terminalPutchar c color s =
      if (written c color s).term.x ≥ s.term.width then terminalNewline (written c color s)
      else written c color s := by
  rw [terminalPutchar, if_neg hc]
  rfl

/-- Two terminals that differ in the cursor at most. -/
structure SameScreen (t t' : Terminal) : Prop where
  width : t'.width = t.width
  height : t'.height = t.height
  charWidth : t'.charWidth = t.charWidth
  charHeight : t'.charHeight = t.charHeight
  buffer : t'.buffer = t.buffer

theorem SameScreen.refl (t : Terminal) : SameScreen t t := ⟨rfl, rfl, rfl, rfl, rfl⟩

theorem SameScreen.trans {t t' t'' : Terminal} (h : SameScreen t t') (h' : SameScreen t' t'') :
    SameScreen t t'' :=
  ⟨h'.width.trans h.width, h'.height.trans h.height, h'.charWidth.trans h.charWidth,
    h'.charHeight.trans h.charHeight, h'.buffer.trans h.buffer⟩

theorem SameScreen.geometry {t t' : Terminal} (h : SameScreen t t') (hg : Geometry t) :
    Geometry t' := by
  refine ⟨h.charWidth.trans hg.charWidth, h.charHeight.trans hg.charHeight, ?_, ?_, ?_⟩
  · rw [h.width]; exact hg.width_pos
  · rw [h.height]; exact hg.height_pos
  · rw [h.width, h.height, h.buffer]; exact hg.fits

theorem sameScreen_terminalNewline (s : Console) : SameScreen s.term (terminalNewline s).term := by
  unfold terminalNewline
  dsimp only
  split
  · exact ⟨rfl, rfl, rfl, rfl, rfl⟩
  · exact ⟨rfl, rfl, rfl, rfl, rfl⟩

theorem sameScreen_written (c color : BitVec 8) (s : Console) :
    SameScreen s.term (written c color s).term := ⟨rfl, rfl, rfl, rfl, rfl⟩

theorem sameScreen_terminalPutchar (c color : BitVec 8) (s : Console) :
    SameScreen s.term (terminalPutchar c color s).term := by
  by_cases hc : c = 0x0A
  · rw [terminalPutchar, if_pos hc]
    exact sameScreen_terminalNewline s
  · rw [terminalPutchar_of_ne hc]
    split
    · exact (sameScreen_written c color s).trans (sameScreen_terminalNewline _)
    · exact sameScreen_written c color s

/-- Writing a character is writing its cell. -/
theorem written_agrees {s : Console} (hg : Geometry s.term)
    (hx : s.term.x.toNat < s.term.width.toNat) (hy : s.term.y.toNat < s.term.height.toNat)
    (c color : BitVec 8) :
    (windowOf (written c color s)).Agrees s.term.width.toNat s.term.height.toNat
      ((windowOf s).write (vgaEntry c color)) := by
  have hlt := s.term.width.isLt
  refine ⟨?_, rfl, ?_⟩
  · change (s.term.x + s.term.charWidth).toNat = s.term.x.toNat + 1
    rw [hg.charWidth, BitVec.toNat_add, toNat_one_word]
    omega
  · intro y x hy' hx'
    have haddr := cellAddr_eq s.term s.term.y.toNat s.term.x.toNat
    rw [BitVec.ofNat_toNat, BitVec.ofNat_toNat, BitVec.setWidth_eq, BitVec.setWidth_eq] at haddr
    change s.term.cell (write16 s.mem (s.term.cellAddr (s.term.y * s.term.width + s.term.x))
      (vgaEntry c color)) y x = _
    rw [haddr, hg.cell_write16 s.mem hy hx hy' hx']
    rfl

/-! ### The run -/

/-- The console, with the static fields of `t`, shows the text. -/
structure Renders (t : Terminal) (s : Console) (text : Text (BitVec 16)) : Prop where
  static : SameScreen t s.term
  shows : Shows t.width.toNat t.height.toNat blankEntry (windowOf s) text
  fits : text.current.length < t.width.toNat

section Runs

variable {t : Terminal} {s : Console} {text : Text (BitVec 16)}

theorem Renders.x_lt (h : Renders t s text) : s.term.x.toNat < s.term.width.toNat := by
  rw [h.static.width]
  exact h.shows.x.trans_lt h.fits

theorem Renders.y_lt (h : Renders t s text) : s.term.y.toNat < s.term.height.toNat := by
  have hy : s.term.y.toNat + 1 = _ := h.shows.y
  rw [h.static.height]
  omega

/-- **One character keeps the console on the text.** -/
theorem Renders.putchar (hg : Geometry t) (h : Renders t s text) (c : BitVec 8 × BitVec 8) :
    Renders t (terminalPutchar c.1 c.2 s) (text.step t.width.toNat (glyph c)) := by
  have hgs := h.static.geometry hg
  refine ⟨h.static.trans (sameScreen_terminalPutchar c.1 c.2 s), ?_,
    Text.step_fits hg.width_pos text (glyph c)⟩
  · by_cases hc : c.1 = 0x0A
    · have hagree := terminalNewline_agrees hgs h.y_lt
      rw [h.static.width, h.static.height] at hagree
      rw [terminalPutchar, if_pos hc, glyph, if_pos hc]
      exact h.shows.newline.congr hagree
    · have hagree := written_agrees hgs h.x_lt h.y_lt c.1 c.2
      rw [h.static.width, h.static.height] at hagree
      have hshows := (h.shows.write (vgaEntry c.1 c.2)).congr hagree
      have hfull : (written c.1 c.2 s).term.x ≥ s.term.width ↔
          t.width.toNat ≤ (text.append (vgaEntry c.1 c.2)).current.length := by
        rw [ge_iff_le, BitVec.le_def, h.static.width, ← hshows.x]
        rfl
      rw [terminalPutchar_of_ne hc, glyph, if_neg hc]
      change Shows _ _ _ _ (text.put t.width.toNat (vgaEntry c.1 c.2))
      unfold Text.put
      by_cases hend : (written c.1 c.2 s).term.x ≥ s.term.width
      · -- the row is full exactly when the line is
        rw [if_pos hend, if_pos (hfull.mp hend)]
        have hgw := (sameScreen_written c.1 c.2 s).geometry hgs
        have hagree' := terminalNewline_agrees hgw h.y_lt
        rw [show (written c.1 c.2 s).term.width = t.width from h.static.width,
          show (written c.1 c.2 s).term.height = t.height from h.static.height] at hagree'
        exact hshows.newline.congr hagree'
      · rw [if_neg hend, if_neg fun hle => hend (hfull.mpr hle)]
        exact hshows

/-- **So does every run of characters.** -/
theorem Renders.putchars (hg : Geometry t) (h : Renders t s text)
    (cs : List (BitVec 8 × BitVec 8)) :
    Renders t (terminalPutchars cs s) ((cs.map glyph).foldl (Text.step t.width.toNat) text) := by
  induction cs generalizing s text with
  | nil => exact h
  | cons c cs ih => exact ih (h.putchar hg c)

end Runs

/-! ### From the cleared screen -/

/-- The address that `terminal_initialize` computes for the buffer. -/
def FramebufferInfo.buffer (mbi : FramebufferInfo) : Word :=
  physToKernel (mbi.framebufferAddr.setWidth 32)

/-- A text buffer as a boot loader reports it: it has a cell, and lies within the address
space where the kernel sees it. -/
structure TextBuffer (mbi : FramebufferInfo) : Prop where
  width_pos : 1 ≤ mbi.framebufferWidth.toNat
  height_pos : 1 ≤ mbi.framebufferHeight.toNat
  fits : mbi.buffer.toNat +
    2 * (mbi.framebufferHeight.toNat * mbi.framebufferWidth.toNat) ≤ 2 ^ 32

/-- The cleared screen shows the empty text. -/
theorem terminalSetup_renders {mbi : FramebufferInfo} {mem : Memory} {s : Console}
    (hb : TextBuffer mbi) (h : terminalSetup mbi mem = .ok s) :
    Geometry s.term ∧ s.term.width = mbi.framebufferWidth ∧
      s.term.height = mbi.framebufferHeight ∧ Renders s.term s Text.empty := by
  obtain rfl := eq_of_terminalSetup h
  have hg : Geometry (initialTerminal mbi) :=
    ⟨rfl, rfl, hb.width_pos, hb.height_pos, hb.fits⟩
  refine ⟨hg, rfl, rfl, .refl _, .empty hb.height_pos ?_ rfl rfl, hb.width_pos⟩
  intro y x hy hx
  exact hg.cell_clearScreen mem le_rfl hy hx

/-- **The terminal shows the tail of the wrapped text.**  From the cleared screen, after
any characters in any colours, row `i` of the screen is line `max(0, n - height) + i` of
the `n` lines of the layout, padded with blanks, and the cursor is at the end of the last
line. -/
theorem screen_shows_tail {mbi : FramebufferInfo} {mem : Memory} {s : Console}
    (hb : TextBuffer mbi) (hsetup : terminalSetup mbi mem = .ok s)
    (cs : List (BitVec 8 × BitVec 8)) :
    let text := Text.layout mbi.framebufferWidth.toNat (cs.map glyph)
    let s' := terminalPutchars cs s
    (∀ y x, y < mbi.framebufferHeight.toNat → x < mbi.framebufferWidth.toNat →
      s'.term.cell s'.mem y x =
        (text.lines[text.lines.length - mbi.framebufferHeight.toNat + y]?.bind
          fun cells => cells[x]?).getD blankEntry) ∧
    s'.term.x.toNat = text.current.length ∧
    s'.term.y.toNat = min text.lines.length mbi.framebufferHeight.toNat - 1 := by
  obtain ⟨hg, hw, hh, hrenders⟩ := terminalSetup_renders hb hsetup
  have hshows := (hrenders.putchars hg cs).shows
  rw [hw, hh] at hshows
  have hy := hshows.y
  exact ⟨hshows.cell, hshows.x, Nat.eq_sub_of_add_eq hy⟩

/-- The text buffer of a PC: 80 columns and 25 rows at `0xB8000`. -/
def sampleBuffer : FramebufferInfo where
  flags := 0x1000
  framebufferAddr := 0xB8000
  framebufferWidth := 80
  framebufferHeight := 25
  framebufferType := 2

theorem sampleBuffer_textBuffer : TextBuffer sampleBuffer := ⟨by decide, by decide, by decide⟩

theorem terminalSetup_ok {mbi : FramebufferInfo} (hflag : checkFlag mbi.flags 12 = true)
    (htype : mbi.framebufferType = multibootFramebufferTypeEgaText) (mem : Memory) :
    terminalSetup mbi mem = .ok ⟨initialTerminal mbi,
      clearScreen (initialTerminal mbi) (initialTerminal mbi).height.toNat mem⟩ := by
  rw [terminalSetup, if_neg (not_not.mpr hflag), if_pos htype]

theorem screen_shows_tail_sample :
    ∃ s, terminalSetup sampleBuffer (fun _ => 0) = .ok s ∧
      (terminalPutchars [(0x48, 7), (0x69, 7), (0x0A, 7), (0x21, 4)] s).term.x.toNat = 1 ∧
      (terminalPutchars [(0x48, 7), (0x69, 7), (0x0A, 7), (0x21, 4)] s).term.y.toNat = 1 := by
  have hsetup := @terminalSetup_ok sampleBuffer (by decide) rfl fun _ => 0
  exact ⟨_, hsetup, (screen_shows_tail sampleBuffer_textBuffer hsetup _).2⟩

end MVK
