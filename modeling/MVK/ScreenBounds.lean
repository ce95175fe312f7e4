import MVK.Screen

/-!
# The terminal stays in its buffer

Which cells the terminal reads and writes, wherever its buffer may lie: the text of the
terminal once more, as the list of its accesses.  In the middle of a call the cursor leaves
the screen; by the end of the row code it is back, so that all cells that are touched are
cells of the screen and no index wraps.

## Main definitions

* `CellOp`, `CellOp.Touches` — the accesses, and the cells of each.
* `putcharOps` — the accesses of `terminal_putchar`.
* `TerminalCall` — the calls of a program.
* `Grid`, `OnScreen` — a screen, and a cursor on it.

## Main results

* `terminalPutchar_mem` — the accesses make up what the code does to memory.
* `OnScreen.putchar`, `putcharOps_inside` — what one character does to the cursor, and which
  cells it touches.
* `terminal_stays_inside` — **no access of any run leaves the screen.**
-/

namespace MVK

open Translation

/-! ### Accesses -/

/-- An access to the buffer: a store to one cell, or a row copied to another. -/
inductive CellOp
  | put (y x : Word) (entry : BitVec 16)
  | copyRow (dst src : Word)

/-- What the access does. -/
def CellOp.run (t : Terminal) (mem : Memory) : CellOp → Memory
  | put y x entry => write16 mem (t.cellAddr (y * t.width + x)) entry
  | copyRow dst src => (memcpy (t.cellAddr (t.width * dst)) (t.cellAddr (t.width * src))
      (t.width * 2) mem).2

/-- The cells that are read or written, by row and column: a row copy goes over
`width * 2` bytes from the first cell of either row on. -/
def CellOp.Touches (t : Terminal) : CellOp → Word → Word → Prop
  | put y x _, y', x' => y' = y ∧ x' = x
  | copyRow dst src, y', x' => (y' = dst ∨ y' = src) ∧ 2 * x'.toNat < (t.width * 2).toNat

/-- The accesses of `terminal_scrolldown`. -/
def scrolldownOps (t : Terminal) : List CellOp :=
  (List.range (t.height.toNat - 1)).map (fun n =>
    .copyRow (BitVec.ofNat 32 (n + 1) - 1) (BitVec.ofNat 32 (n + 1))) ++
  (List.range t.width.toNat).map fun n => .put (t.height - 1) (BitVec.ofNat 32 n) blankEntry

/-- The accesses at the end of a row. -/
def newlineOps (s : Console) : List CellOp :=
  if s.term.y + s.term.charHeight ≥ s.term.height then scrolldownOps s.term else []

/-- The accesses of `terminal_putchar`. -/
def putcharOps (c color : Byte) (s : Console) : List CellOp :=
  if c = 0x0A then newlineOps s
  else
    .put s.term.y s.term.x (vgaEntry c color) ::
      if (written c color s).term.x ≥ s.term.width then newlineOps (written c color s) else []

/-! ### The accesses are what the code does -/

theorem scrollRows_eq (t : Terminal) (n : ℕ) (mem : Memory) :
    scrollRows t n mem = ((List.range n).map fun n =>
      CellOp.copyRow (BitVec.ofNat 32 (n + 1) - 1) (BitVec.ofNat 32 (n + 1))).foldl
        (CellOp.run t) mem := by
  induction n with
  | zero => rfl
  | succ n ih =>
    rw [List.range_succ, List.map_append, List.foldl_append, ← ih]
    rfl

theorem blankLastRow_eq_foldl (t : Terminal) (n : ℕ) (mem : Memory) :
    blankLastRow t n mem = ((List.range n).map fun n =>
      CellOp.put (t.height - 1) (BitVec.ofNat 32 n) blankEntry).foldl (CellOp.run t) mem := by
  induction n with
  | zero => rfl
  | succ n ih =>
    rw [List.range_succ, List.map_append, List.foldl_append, ← ih]
    rfl

/-- The accesses depend on the static fields only. -/
theorem CellOp.run_congr {t t' : Terminal} (h : SameScreen t t') :
    CellOp.run t' = CellOp.run t := by
  funext mem op
  cases op with
  | put y x entry => simp only [CellOp.run, Terminal.cellAddr, h.width, h.buffer]
  | copyRow dst src => simp only [CellOp.run, Terminal.cellAddr, h.width, h.buffer]

theorem terminalScrolldown_mem (s : Console) :
    (terminalScrolldown s).mem = (scrolldownOps s.term).foldl (CellOp.run s.term) s.mem := by
  rw [scrolldownOps, List.foldl_append, ← scrollRows_eq, ← blankLastRow_eq_foldl]
  rfl

theorem terminalNewline_mem (s : Console) :
    (terminalNewline s).mem = (newlineOps s).foldl (CellOp.run s.term) s.mem := by
  unfold terminalNewline newlineOps
  dsimp only
  split
  · rw [terminalScrolldown_mem, CellOp.run_congr (t := s.term) ⟨rfl, rfl, rfl, rfl, rfl⟩]
    rfl
  · rfl

/-- **The accesses make up what `terminal_putchar` does to memory.** -/
theorem terminalPutchar_mem (c color : Byte) (s : Console) :
    (terminalPutchar c color s).mem = (putcharOps c color s).foldl (CellOp.run s.term) s.mem := by
  by_cases hc : c = 0x0A
  · rw [terminalPutchar, if_pos hc, putcharOps, if_pos hc, terminalNewline_mem]
  · rw [terminalPutchar_of_ne hc, putcharOps, if_neg hc, List.foldl_cons]
    split
    · rw [terminalNewline_mem, CellOp.run_congr (sameScreen_written c color s)]
      rfl
    · rfl

/-! ### Bytes outside the buffer -/

/-- The bytes of a row copy are the bytes of its cells. -/
theorem row_byte (t : Terminal) (y : Word) (k : ℕ) :
    t.cellAddr (t.width * y) + BitVec.ofNat 32 k =
      t.cellAddr (y * t.width + BitVec.ofNat 32 (k / 2)) + BitVec.ofNat 32 (k % 2) := by
  have hsplit : BitVec.ofNat 32 k = 2 * BitVec.ofNat 32 (k / 2) + BitVec.ofNat 32 (k % 2) := by
    apply BitVec.eq_of_toNat_eq
    simp only [BitVec.toNat_add, BitVec.toNat_mul, BitVec.toNat_ofNat, BitVec.ofNat_eq_ofNat]
    omega
  rw [Terminal.cellAddr, Terminal.cellAddr, hsplit, BitVec.mul_comm t.width, BitVec.mul_add]
  simp only [BitVec.add_assoc]

/-- An access leaves the bytes of the cells that it does not touch. -/
theorem CellOp.run_frame {t : Terminal} {op : CellOp} {a : Word}
    (ha : ∀ y x, op.Touches t y x →
      a ≠ t.cellAddr (y * t.width + x) ∧ a ≠ t.cellAddr (y * t.width + x) + 1) (mem : Memory) :
    op.run t mem a = mem a := by
  cases op with
  | put y x entry =>
    obtain ⟨hlow, hhigh⟩ := ha y x ⟨rfl, rfl⟩
    rw [CellOp.run, write16, Function.update_of_ne hhigh, Function.update_of_ne hlow]
  | copyRow dst src =>
    refine memcpyLoop_frame (fun k hk => ?_) mem
    have hlt := (t.width * 2).isLt
    have hcell := ha dst (BitVec.ofNat 32 (k / 2))
      ⟨Or.inl rfl, by rw [BitVec.toNat_ofNat]; omega⟩
    rw [row_byte]
    rcases Nat.mod_two_eq_zero_or_one k with h0 | h1
    · rw [h0, BitVec.add_zero]
      exact hcell.1
    · rw [h1]
      exact hcell.2

theorem foldl_run_frame {t : Terminal} {ops : List CellOp} {a : Word}
    (ha : ∀ op ∈ ops, ∀ y x, op.Touches t y x →
      a ≠ t.cellAddr (y * t.width + x) ∧ a ≠ t.cellAddr (y * t.width + x) + 1) (mem : Memory) :
    ops.foldl (CellOp.run t) mem a = mem a := by
  induction ops generalizing mem with
  | nil => rfl
  | cons op ops ih =>
    rw [List.forall_mem_cons] at ha
    rw [List.foldl_cons, ih ha.2, CellOp.run_frame ha.1]

/-! ### A screen -/

/-- A screen whose cells can be numbered, wherever its buffer lies. -/
structure Grid (t : Terminal) : Prop where
  charWidth : t.charWidth = 1
  charHeight : t.charHeight = 1
  width_pos : 1 ≤ t.width.toNat
  height_pos : 1 ≤ t.height.toNat
  fits : 2 * (t.width.toNat * t.height.toNat) < 2 ^ 32

/-- The cursor is on the screen. -/
structure OnScreen (t : Terminal) : Prop where
  x_lt : t.x.toNat < t.width.toNat
  y_lt : t.y.toNat < t.height.toNat

/-- The index of the cell in row `y`, column `x` does not wrap and is one of the screen. -/
def CellInside (t : Terminal) (y x : Word) : Prop :=
  (y * t.width + x).toNat = y.toNat * t.width.toNat + x.toNat ∧
    (y * t.width + x).toNat < t.width.toNat * t.height.toNat

/-- All cells that are touched are cells of the screen. -/
def CellOp.Inside (t : Terminal) (op : CellOp) : Prop :=
  ∀ y x, op.Touches t y x → CellInside t y x

theorem SameScreen.grid {t t' : Terminal} (h : SameScreen t t') (hg : Grid t) : Grid t' := by
  refine ⟨h.charWidth.trans hg.charWidth, h.charHeight.trans hg.charHeight, ?_, ?_, ?_⟩
  · rw [h.width]; exact hg.width_pos
  · rw [h.height]; exact hg.height_pos
  · rw [h.width, h.height]; exact hg.fits

theorem SameScreen.inside {t t' : Terminal} (h : SameScreen t t') {op : CellOp}
    (hop : op.Inside t') : op.Inside t := by
  intro y x hyx
  have htouch : op.Touches t' y x := by
    cases op with
    | put y' x' entry => exact hyx
    | copyRow dst src => rw [CellOp.Touches, h.width]; exact hyx
  have hcell := hop y x htouch
  rwa [CellInside, h.width, h.height] at hcell

section Cells

variable {t : Terminal} (hg : Grid t)

include hg

/-- A cell on the screen has its number. -/
theorem Grid.cellInside {y x : Word} (hy : y.toNat < t.height.toNat)
    (hx : x.toNat < t.width.toNat) : CellInside t y x := by
  have hfits := hg.fits
  have hrow : (y.toNat + 1) * t.width.toNat ≤ t.height.toNat * t.width.toNat :=
    Nat.mul_le_mul_right _ hy
  rw [Nat.add_mul, Nat.one_mul, Nat.mul_comm t.height.toNat] at hrow
  have hindex : (y * t.width + x).toNat = y.toNat * t.width.toNat + x.toNat := by
    rw [BitVec.toNat_add, BitVec.toNat_mul, Nat.mod_add_mod, Nat.mod_eq_of_lt (by omega)]
  refine ⟨hindex, ?_⟩
  rw [hindex]
  omega

/-- A row copy between two rows of the screen. -/
theorem Grid.copyRow_inside {dst src : Word} (hdst : dst.toNat < t.height.toNat)
    (hsrc : src.toNat < t.height.toNat) : (CellOp.copyRow dst src).Inside t := by
  rintro y x ⟨hy, hx⟩
  have hbytes : (t.width * 2).toNat ≤ 2 * t.width.toNat := by
    rw [BitVec.toNat_mul, Nat.mul_comm]
    exact Nat.mod_le _ _
  have hx' : x.toNat < t.width.toNat := by omega
  rcases hy with rfl | rfl
  · exact hg.cellInside hdst hx'
  · exact hg.cellInside hsrc hx'

theorem Grid.scrolldownOps_inside : ∀ op ∈ scrolldownOps t, op.Inside t := by
  have hpos := hg.height_pos
  have hheight := t.height.isLt
  intro op hop
  rcases List.mem_append.mp hop with hcopy | hblank
  · obtain ⟨n, hn, rfl⟩ := List.mem_map.mp hcopy
    have hlt := List.mem_range.mp hn
    have hsrc : (BitVec.ofNat 32 (n + 1)).toNat = n + 1 := by
      rw [BitVec.toNat_ofNat, Nat.mod_eq_of_lt (by omega)]
    have hdst : (BitVec.ofNat 32 (n + 1) - 1).toNat = n := by
      rw [BitVec.toNat_sub, hsrc, toNat_one_word]
      omega
    exact hg.copyRow_inside (by omega) (by omega)
  · obtain ⟨n, hn, rfl⟩ := List.mem_map.mp hblank
    have hlt := List.mem_range.mp hn
    have hwidth := t.width.isLt
    rintro y x ⟨rfl, rfl⟩
    refine hg.cellInside ?_ ?_
    · rw [BitVec.toNat_sub, toNat_one_word]
      omega
    · rw [BitVec.toNat_ofNat, Nat.mod_eq_of_lt (by omega)]
      exact hlt

end Cells

/-! ### One character -/

theorem newlineOps_inside {s : Console} (hg : Grid s.term) :
    ∀ op ∈ newlineOps s, op.Inside s.term := by
  rw [newlineOps]
  split
  · exact hg.scrolldownOps_inside
  · exact fun op hop => absurd hop List.not_mem_nil

/-- A row that ends leaves the cursor on the screen, wherever in the row it was. -/
theorem onScreen_newline {s : Console} (hg : Grid s.term)
    (hy : s.term.y.toNat < s.term.height.toNat) : OnScreen (terminalNewline s).term := by
  have hpos := hg.width_pos
  unfold terminalNewline
  dsimp only
  split
  · rw [next_row_sub_one hg.charHeight]
    exact ⟨hpos, hy⟩
  · next hbottom =>
    rw [ge_iff_le, BitVec.le_def, not_le] at hbottom
    exact ⟨hpos, hbottom⟩

/-- **One character keeps the cursor on the screen.** -/
theorem OnScreen.putchar {s : Console} (h : OnScreen s.term) (hg : Grid s.term)
    (c color : Byte) : OnScreen (terminalPutchar c color s).term := by
  by_cases hc : c = 0x0A
  · rw [terminalPutchar, if_pos hc]
    exact onScreen_newline hg h.y_lt
  · rw [terminalPutchar_of_ne hc]
    split
    · exact onScreen_newline ((sameScreen_written c color s).grid hg) h.y_lt
    · next hfull =>
      rw [ge_iff_le, BitVec.le_def, not_le] at hfull
      exact ⟨hfull, h.y_lt⟩

/-- **One character touches cells of the screen only.** -/
theorem putcharOps_inside {s : Console} (hg : Grid s.term) (h : OnScreen s.term)
    (c color : Byte) : ∀ op ∈ putcharOps c color s, op.Inside s.term := by
  have hscreen := sameScreen_written c color s
  rw [putcharOps]
  split
  · exact newlineOps_inside hg
  · intro op hop
    rcases List.mem_cons.mp hop with rfl | hend
    · rintro y x ⟨rfl, rfl⟩
      exact hg.cellInside h.y_lt h.x_lt
    · split at hend
      · exact hscreen.inside (newlineOps_inside (hscreen.grid hg) op hend)
      · exact absurd hend List.not_mem_nil

/-! ### Every run -/

/-- The accesses of a run of characters. -/
def putcharsOps : List (Byte × Byte) → Console → List CellOp
  | [], _ => []
  | c :: cs, s => putcharOps c.1 c.2 s ++ putcharsOps cs (terminalPutchar c.1 c.2 s)

/-- `terminal_writestring`: the bytes up to the NUL, of those from `data` on. -/
def terminalWritestring (data : List Byte) (color : Byte) (s : Console) : Console :=
  terminalWrite (data.takeWhile (· ≠ 0)) color s

/-- A call of a program. -/
inductive TerminalCall
  | putchar (c color : Byte)
  | writestring (data : List Byte) (color : Byte)

def TerminalCall.run (s : Console) : TerminalCall → Console
  | putchar c color => terminalPutchar c color s
  | writestring data color => terminalWritestring data color s

/-- The characters that the call puts. -/
def TerminalCall.chars : TerminalCall → List (Byte × Byte)
  | putchar c color => [(c, color)]
  | writestring data color => (data.takeWhile (· ≠ 0)).map fun c => (c, color)

theorem TerminalCall.run_eq (call : TerminalCall) (s : Console) :
    call.run s = terminalPutchars call.chars s := by
  cases call with
  | putchar c color => rfl
  | writestring data color => exact terminalWrite_eq _ _ _

section Runs

variable {t : Terminal} {s : Console}

/-- The console of the screen `t`, with its cursor on it. -/
structure Working (t : Terminal) (s : Console) : Prop where
  static : SameScreen t s.term
  cursor : OnScreen s.term

theorem Working.putchar (h : Working t s) (hg : Grid t) (c : Byte × Byte) :
    Working t (terminalPutchar c.1 c.2 s) :=
  ⟨h.static.trans (sameScreen_terminalPutchar c.1 c.2 s),
    h.cursor.putchar (h.static.grid hg) c.1 c.2⟩

theorem Working.putchars (h : Working t s) (hg : Grid t) (cs : List (Byte × Byte)) :
    Working t (terminalPutchars cs s) := by
  induction cs generalizing s with
  | nil => exact h
  | cons c cs ih => exact ih (h.putchar hg c)

theorem Working.calls (h : Working t s) (hg : Grid t) (calls : List TerminalCall) :
    Working t (calls.foldl TerminalCall.run s) := by
  induction calls generalizing s with
  | nil => exact h
  | cons call calls ih =>
    refine ih ?_
    rw [TerminalCall.run_eq]
    exact h.putchars hg call.chars

theorem Working.putcharsOps_inside (h : Working t s) (hg : Grid t) (cs : List (Byte × Byte)) :
    ∀ op ∈ putcharsOps cs s, op.Inside t := by
  induction cs generalizing s with
  | nil => exact fun op hop => absurd hop List.not_mem_nil
  | cons c cs ih =>
    intro op hop
    rcases List.mem_append.mp hop with hfirst | hrest
    · exact h.static.inside
        (MVK.putcharOps_inside (h.static.grid hg) h.cursor c.1 c.2 op hfirst)
    · exact ih (h.putchar hg c) op hrest

theorem Working.putchars_mem (h : Working t s) (hg : Grid t) (cs : List (Byte × Byte)) :
    (terminalPutchars cs s).mem = (putcharsOps cs s).foldl (CellOp.run t) s.mem := by
  induction cs generalizing s with
  | nil => rfl
  | cons c cs ih =>
    have hrest := ih (h.putchar hg c)
    rw [terminalPutchar_mem, CellOp.run_congr h.static] at hrest
    rw [putcharsOps, List.foldl_append]
    exact hrest

end Runs

/-- **Terminal writes stay inside the framebuffer.**  From the cleared screen, between any
calls the cursor is on the screen; and the next call does what its accesses do, each to
cells whose index neither wraps nor leaves the screen, so that it changes no byte but those
of the screen's cells. -/
theorem terminal_stays_inside {mbi : FramebufferInfo} {mem : Memory} {s : Console}
    (hw : 1 ≤ mbi.framebufferWidth.toNat) (hh : 1 ≤ mbi.framebufferHeight.toNat)
    (hfits : 2 * (mbi.framebufferWidth.toNat * mbi.framebufferHeight.toNat) < 2 ^ 32)
    (hsetup : terminalSetup mbi mem = .ok s) (calls : List TerminalCall) :
    let s' := calls.foldl TerminalCall.run s
    s'.term.width = mbi.framebufferWidth ∧ s'.term.height = mbi.framebufferHeight ∧
      s'.term.x.toNat < mbi.framebufferWidth.toNat ∧
      s'.term.y.toNat < mbi.framebufferHeight.toNat ∧
      ∀ call : TerminalCall,
        (call.run s').mem = (putcharsOps call.chars s').foldl (CellOp.run s'.term) s'.mem ∧
        (∀ op ∈ putcharsOps call.chars s', op.Inside s'.term) ∧
        ∀ a : Word, (∀ i : Word,
          i.toNat < mbi.framebufferWidth.toNat * mbi.framebufferHeight.toNat →
            a ≠ s'.term.cellAddr i ∧ a ≠ s'.term.cellAddr i + 1) →
          (call.run s').mem a = s'.mem a := by
  intro s'
  have hstart : s.term = initialTerminal mbi := by
    rw [eq_of_terminalSetup hsetup]
  have hg : Grid (initialTerminal mbi) := ⟨rfl, rfl, hw, hh, hfits⟩
  have hworking : Working (initialTerminal mbi) s := by
    refine ⟨?_, ?_⟩
    · rw [hstart]
      exact .refl _
    · rw [hstart]
      exact ⟨hw, hh⟩
  have h : Working (initialTerminal mbi) s' := hworking.calls hg calls
  have hwidth : s'.term.width = mbi.framebufferWidth := h.static.width
  have hheight : s'.term.height = mbi.framebufferHeight := h.static.height
  have hself : Working s'.term s' := ⟨.refl _, h.cursor⟩
  have hgs := h.static.grid hg
  refine ⟨hwidth, hheight, hwidth ▸ h.cursor.x_lt, hheight ▸ h.cursor.y_lt, fun call => ?_⟩
  have hops := hself.putcharsOps_inside hgs call.chars
  have hmem : (call.run s').mem =
      (putcharsOps call.chars s').foldl (CellOp.run s'.term) s'.mem := by
    rw [TerminalCall.run_eq, hself.putchars_mem hgs]
  refine ⟨hmem, hops, fun a ha => ?_⟩
  rw [hmem]
  refine foldl_run_frame (fun op hop y x hyx => ha _ ?_) s'.mem
  rw [← hwidth, ← hheight]
  exact (hops op hop y x hyx).2

theorem terminal_stays_inside_sample :
    ∃ s, terminalSetup sampleBuffer (fun _ => 0) = .ok s ∧
      (([TerminalCall.writestring [0x48, 0x69, 0x0A, 0x00] 7, .putchar 0x21 4].foldl
        TerminalCall.run s).term.y.toNat < sampleBuffer.framebufferHeight.toNat) := by
  have hsetup := @terminalSetup_ok sampleBuffer (by decide) rfl fun _ => 0
  exact ⟨_, hsetup, (terminal_stays_inside (by decide) (by decide) (by decide) hsetup
    [.writestring [0x48, 0x69, 0x0A, 0x00] 7, .putchar 0x21 4]).2.2.2.1⟩

end MVK
