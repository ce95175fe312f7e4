import MVK.Machine
import MVK.Memory

/-!
# The terminal

The EGA text terminal: a cursor and a buffer of 16-bit cells, each a character and an
attribute.  A row that is full, or a line break, moves the cursor to the next row; on
the last row the buffer scrolls, row by row with `memcpy`.

## Main definitions

* `vgaEntry` — the cell of a character, as the macro `VGA_ENTRY` computes it.
* `terminalSetup` — `terminal_initialize` up to its first message.
* `terminalPutchar`, `terminalScrolldown` — the terminal.
-/

namespace MVK

open Translation

/-- `VGA_COLOR(fg, bg)`. -/
def vgaColor (fg bg : BitVec 8) : BitVec 8 := fg ||| bg <<< 4

/-- `VGA_ENTRY(uc, color)`.  A `char` is signed: the conversion to `uint16_t` extends
its sign. -/
def vgaEntry (uc color : BitVec 8) : BitVec 16 := uc.signExtend 16 ||| color.setWidth 16 <<< 8

def vgaColorBlack : BitVec 8 := 0

def vgaColorLightGrey : BitVec 8 := 7

def terminalDefaultColor : BitVec 8 := vgaColor vgaColorLightGrey vgaColorBlack

/-- `VGA_ENTRY(' ', TERMINAL_DEFAULT_COLOR)`. -/
def blankEntry : BitVec 16 := vgaEntry 0x20 terminalDefaultColor

/-- `terminal_mode`. -/
inductive TerminalMode
  | egaTextMode
  deriving DecidableEq

/-- `terminal`. -/
structure Terminal where
  mode : TerminalMode
  width : Word
  height : Word
  charWidth : Word
  charHeight : Word
  x : Word
  y : Word
  buffer : Word

/-- A terminal and the memory it is shown from. -/
structure Console where
  term : Terminal
  mem : Memory

/-- `&((uint16_t*)term->buffer)[i]`. -/
def Terminal.cellAddr (t : Terminal) (i : Word) : Word := t.buffer + 2 * i

/-- `terminal_putentryat`. -/
def terminalPutentryat (c color : BitVec 8) (x y : Word) (s : Console) : Console :=
  match s.term.mode with
  | .egaTextMode =>
    { s with mem := write16 s.mem (s.term.cellAddr (y * s.term.width + x)) (vgaEntry c color) }

/-- The first loop of `terminal_scrolldown`, for `y` from 1 to `n`. -/
def scrollRows (t : Terminal) : ℕ → Memory → Memory
  | 0, mem => mem
  | n + 1, mem =>
    let y := BitVec.ofNat 32 (n + 1)
    (memcpy (t.cellAddr (t.width * (y - 1))) (t.cellAddr (t.width * y)) (t.width * 2)
      (scrollRows t n mem)).2

/-- The second loop of `terminal_scrolldown`, for `x` up to `n`. -/
def blankLastRow (t : Terminal) : ℕ → Memory → Memory
  | 0, mem => mem
  | n + 1, mem =>
    write16 (blankLastRow t n mem)
      (t.cellAddr ((t.height - 1) * t.width + BitVec.ofNat 32 n)) blankEntry

/-- `terminal_scrolldown`. -/
def terminalScrolldown (s : Console) : Console :=
  match s.term.mode with
  | .egaTextMode =>
    { term := { s.term with x := 0 }
      mem := blankLastRow s.term s.term.width.toNat
        (scrollRows s.term (s.term.height.toNat - 1) s.mem) }

/-- What `terminal_putchar` does at the end of a row, in both of its branches. -/
def terminalNewline (s : Console) : Console :=
  let y := s.term.y + s.term.charHeight
  -- past the last row the cursor stays where it is and the screen moves
  if y ≥ s.term.height then
    terminalScrolldown { s with term := { s.term with x := 0, y := y - 1 } }
  else { s with term := { s.term with x := 0, y := y } }

/-- `terminal_putchar`. -/
def terminalPutchar (c color : BitVec 8) (s : Console) : Console :=
  if c = 0x0A then terminalNewline s
  else
    let s := terminalPutentryat c color s.term.x s.term.y s
    -- the row ends as soon as it is full, not with the next character
    let x := s.term.x + s.term.charWidth
    let s := { s with term := { s.term with x := x } }
    if x ≥ s.term.width then terminalNewline s else s

/-- Characters with their colours, one `terminal_putchar` after the other. -/
def terminalPutchars (cs : List (BitVec 8 × BitVec 8)) (s : Console) : Console :=
  cs.foldl (fun s c => terminalPutchar c.1 c.2 s) s

/-- `terminal_write`, on `size` bytes of data. -/
def terminalWrite (data : List (BitVec 8)) (color : BitVec 8) (s : Console) : Console :=
  data.foldl (fun s c => terminalPutchar c color s) s

/-! ### `terminal_initialize` -/

/-- What `terminal_initialize` reads of the multiboot information. -/
structure FramebufferInfo where
  flags : Word
  framebufferAddr : BitVec 64
  framebufferWidth : Word
  framebufferHeight : Word
  framebufferType : BitVec 8

def multibootFramebufferTypeEgaText : BitVec 8 := 2

/-- The inner loop that clears the screen, for `x` up to `n`. -/
def clearRow (t : Terminal) (y : Word) : ℕ → Memory → Memory
  | 0, mem => mem
  | n + 1, mem =>
    write16 (clearRow t y n mem) (t.cellAddr (y * t.width + BitVec.ofNat 32 n)) blankEntry

/-- The outer loop, for `y` up to `n`. -/
def clearScreen (t : Terminal) : ℕ → Memory → Memory
  | 0, mem => mem
  | n + 1, mem => clearRow t (BitVec.ofNat 32 n) t.width.toNat (clearScreen t n mem)

/-- The fields that `terminal_initialize` sets for an EGA text buffer. -/
def initialTerminal (mbi : FramebufferInfo) : Terminal where
  mode := .egaTextMode
  width := mbi.framebufferWidth
  height := mbi.framebufferHeight
  charWidth := 1
  charHeight := 1
  x := 0
  y := 0
  buffer := physToKernel (mbi.framebufferAddr.setWidth 32)

/-- `terminal_initialize` up to its first message: the fields, and the cleared screen. -/
def terminalSetup (mbi : FramebufferInfo) (mem : Memory) : Except Stop Console :=
  if ¬ checkFlag mbi.flags 12 then .error (.abort "")
  else if mbi.framebufferType = multibootFramebufferTypeEgaText then
    let term := initialTerminal mbi
    .ok { term := term, mem := clearScreen term term.height.toNat mem }
  else .error (.abort "")

/-- The setup ends with the cleared screen or not at all. -/
theorem eq_of_terminalSetup {mbi : FramebufferInfo} {mem : Memory} {s : Console}
    (h : terminalSetup mbi mem = .ok s) :
    s = ⟨initialTerminal mbi,
      clearScreen (initialTerminal mbi) (initialTerminal mbi).height.toNat mem⟩ := by
  unfold terminalSetup at h
  split at h
  · exact absurd h (by simp)
  · split at h
    · exact (Except.ok.inj h).symm
    · exact absurd h (by simp)

/-- `terminal_write` is a run of `terminal_putchar`. -/
theorem terminalWrite_eq (data : List (BitVec 8)) (color : BitVec 8) (s : Console) :
    terminalWrite data color s = terminalPutchars (data.map fun c => (c, color)) s := by
  rw [terminalPutchars, List.foldl_map]
  rfl

end MVK
