import MVK.PrintfFormat
import MVK.ScreenBounds

/-!
# Standard output

`stdio_initialize` sets up the terminal that `putchar` writes to, with the colour that it
keeps from then on.  `terminal_initialize` itself writes the first two lines.  What `puts`
and `printf` do to the terminal is what they hand to `putchar`, character by character; the
strings that they read do not lie in the screen.

## Main definitions

* `terminalInitialize`, `stdioInitialize` — the terminal with its first lines.
* `Stdio`, `Stdio.putchar` — the terminal behind `putchar`.
* `OutputCall` — calls of `putchar`, `puts` and `printf`.

## Main results

* `screen_shows_output` — **the screen shows the tail of everything that was printed.**
-/

namespace MVK

open Numeral Scrollback Translation

/-- A string literal, with its NUL. -/
def cstring (s : String) : List Byte := s.toList.map byteOf ++ [0]

/-- `terminal_initialize`.  `buf` is what its buffer holds at first. -/
def terminalInitialize (mbi : FramebufferInfo) (buf : Vector Byte 16) (mem : Memory) :
    Except Stop Console := do
  let s ← terminalSetup mbi mem
  let s := terminalWritestring
    (cstring "terminal_initialize: Initialized terminal (FRAMEBUFFER_TYPE_EGA_TEXT)\n")
    terminalDefaultColor s
  let s := terminalWritestring (cstring "  Framebuffer Address 0x") terminalDefaultColor s
  match itoa s.term.buffer buf.toList 16 with
  | none => .error .fault
  | some buf =>
    let s := terminalWritestring buf terminalDefaultColor s
    .ok (terminalWritestring (cstring "\n") terminalDefaultColor s)

/-- `stdterm` and `stdterm_current_color`. -/
structure Stdio where
  console : Console
  currentColor : Byte

/-- `stdio_initialize`. -/
def stdioInitialize (mbi : FramebufferInfo) (buf : Vector Byte 16) (mem : Memory) :
    Except Stop Stdio := do
  let console ← terminalInitialize mbi buf mem
  return { console, currentColor := terminalDefaultColor }

/-- `putchar`. -/
def Stdio.putchar (s : Stdio) (character : Word) : Stdio :=
  { s with console := terminalPutchar (character.setWidth 8) s.currentColor s.console }

/-- What `puts` hands to `putchar`. -/
def putsOutput (str : List Byte) : Option (List Word) :=
  (Printf.putsWith id str { output := [], characters := 0, args := [], buf := [] }).map
    fun st => (st.putchar (intOf '\n')).output

/-- A call, with the bytes that can be read from its pointer on. -/
inductive OutputCall
  | putchar (character : Word)
  | puts (str : List Byte)
  | printf (format : List Byte) (args : List Word) (buf : Vector Byte 128)

/-- What the call hands to `putchar`. -/
def OutputCall.output (strings : Strings) : OutputCall → Option (List Word)
  | putchar character => some [character]
  | puts str => putsOutput str
  | printf format args buf => (MVK.printf strings format args buf).map Printf.output

def OutputCall.run (strings : Strings) (s : Stdio) (call : OutputCall) : Option Stdio :=
  (call.output strings).map fun output => output.foldl Stdio.putchar s

/-! ### The first lines -/

/-- What `terminal_initialize` writes. -/
def banner (mbi : FramebufferInfo) : List Byte :=
  "terminal_initialize: Initialized terminal (FRAMEBUFFER_TYPE_EGA_TEXT)\n".toList.map byteOf ++
    ("  Framebuffer Address 0x".toList.map byteOf ++
      (digitChars (numeral 16 mbi.buffer.toNat) ++ "\n".toList.map byteOf))

/-- A string is written up to its NUL. -/
theorem terminalWritestring_text {text : List Byte} (htext : 0 ∉ text) (rest : List Byte)
    (color : Byte) (s : Console) :
    terminalWritestring (text ++ 0 :: rest) color s = terminalWrite text color s := by
  rw [terminalWritestring, takeWhile_text htext]

theorem terminalWrite_append (text text' : List Byte) (color : Byte) (s : Console) :
    terminalWrite text' color (terminalWrite text color s) =
      terminalWrite (text ++ text') color s := (List.foldl_append ..).symm

/-- Writing leaves the place of the buffer. -/
theorem sameScreen_terminalWrite (text : List Byte) (color : Byte) (s : Console) :
    SameScreen s.term (terminalWrite text color s).term := by
  induction text generalizing s with
  | nil => exact .refl _
  | cons c text ih => exact (sameScreen_terminalPutchar c color s).trans (ih _)

/-- The sixteen bytes of the buffer hold an address. -/
theorem itoa_address (value : Word) {buf : List Byte} (hbuf : buf.length = 16) :
    ∃ rest, itoa value buf 16 = some (digitChars (numeral 16 value.toNat) ++ 0 :: rest) := by
  have hlen := length_numeral_le (by decide : 1 < 16) (by decide : 0 < 8)
    (value.isLt.trans_le (by decide : 2 ^ 32 ≤ 16 ^ 8))
  have hwrite := @writeNumber_eq 16 (by decide) value [] buf
    (by rw [hbuf]; exact hlen.trans_lt (by decide))
  have hnot : ¬ ((16 : Word) = 10 ∧ value.slt 0) := fun h => absurd h.1 (by decide)
  exact ⟨_, (itoa_eq_uitoa hnot buf).trans hwrite⟩

/-- `terminal_initialize` clears the screen and writes its two lines, or gives up. -/
theorem terminalInitialize_eq (mbi : FramebufferInfo) (buf : Vector Byte 16) (mem : Memory) :
    terminalInitialize mbi buf mem =
      (terminalSetup mbi mem).map (terminalWrite (banner mbi) terminalDefaultColor) := by
  rw [terminalInitialize]
  cases hsetup : terminalSetup mbi mem with
  | error e => rfl
  | ok s =>
    have hbuffer : s.term.buffer = mbi.buffer := by rw [eq_of_terminalSetup hsetup]; rfl
    have hlen : buf.toList.length = 16 := buf.size_toArray
    obtain ⟨rest, hitoa⟩ := itoa_address mbi.buffer hlen
    have hstatic := (sameScreen_terminalWrite
      ("terminal_initialize: Initialized terminal (FRAMEBUFFER_TYPE_EGA_TEXT)\n".toList.map byteOf)
      terminalDefaultColor s).trans (sameScreen_terminalWrite
        ("  Framebuffer Address 0x".toList.map byteOf) terminalDefaultColor _)
    have hfirst := terminalWritestring_text (by decide : 0 ∉
      "terminal_initialize: Initialized terminal (FRAMEBUFFER_TYPE_EGA_TEXT)\n".toList.map byteOf)
      [] terminalDefaultColor
    have hsecond := terminalWritestring_text
      (by decide : 0 ∉ "  Framebuffer Address 0x".toList.map byteOf) [] terminalDefaultColor
    have hbreak := terminalWritestring_text (by decide : 0 ∉ "\n".toList.map byteOf) []
      terminalDefaultColor
    have hdigits := terminalWritestring_text
      (zero_notMem_digitChars (by decide : 1 < 16) (by decide) mbi.buffer.toNat) rest
      terminalDefaultColor
    change (match itoa _ _ _ with | none => _ | some _ => _) = _
    dsimp only [cstring]
    rw [hfirst, hsecond, hstatic.buffer, hbuffer, hitoa]
    dsimp only
    rw [hdigits, hbreak, terminalWrite_append, terminalWrite_append, terminalWrite_append]
    rfl

/-! ### Every run -/

/-- What is printed reaches the terminal character by character. -/
theorem foldl_putchar (output : List Word) (s : Stdio) :
    output.foldl Stdio.putchar s =
      { s with
        console := terminalWrite (output.map (BitVec.setWidth 8)) s.currentColor s.console } := by
  induction output generalizing s with
  | nil => rfl
  | cons c output ih => exact ih (s.putchar c)

/-- A run of calls puts the outputs of the calls, one after the other. -/
theorem foldlM_run {strings : Strings} {calls : List OutputCall} {s s' : Stdio}
    (h : calls.foldlM (OutputCall.run strings) s = some s') :
    ∃ outputs, calls.mapM (OutputCall.output strings) = some outputs ∧
      s' = outputs.flatten.foldl Stdio.putchar s := by
  induction calls generalizing s with
  | nil => exact ⟨[], rfl, (Option.some.inj h).symm⟩
  | cons call calls ih =>
    rw [List.foldlM_cons, OutputCall.run] at h
    cases houtput : call.output strings with
    | none =>
      rw [houtput] at h
      cases h
    | some output =>
      rw [houtput] at h
      obtain ⟨outputs, hmap, rfl⟩ := ih h
      refine ⟨output :: outputs, ?_, ?_⟩
      · rw [List.mapM_cons, houtput, hmap]
        rfl
      · rw [List.flatten_cons, List.foldl_append]

/-- The screen after a text in one colour. -/
theorem terminalWrite_shows {mbi : FramebufferInfo} {mem : Memory} {s : Console}
    (hb : TextBuffer mbi) (hsetup : terminalSetup mbi mem = .ok s) (chars : List Byte)
    (color : Byte) :
    let text := Text.layout mbi.framebufferWidth.toNat (chars.map fun c => glyph (c, color))
    let s' := terminalWrite chars color s
    (∀ y x, y < mbi.framebufferHeight.toNat → x < mbi.framebufferWidth.toNat →
      s'.term.cell s'.mem y x = (text.cell? mbi.framebufferHeight.toNat y x).getD blankEntry) ∧
    s'.term.x.toNat = text.current.length ∧
    s'.term.y.toNat = min text.lines.length mbi.framebufferHeight.toNat - 1 := by
  obtain ⟨hg, hw, hh, hrenders⟩ := terminalSetup_renders hb hsetup
  have hshows := (hrenders.putchars hg (chars.map fun c => (c, color))).shows
  rw [hw, hh, List.map_map] at hshows
  rw [terminalWrite_eq]
  exact ⟨hshows.cell, hshows.x, Nat.eq_sub_of_add_eq hshows.y⟩

/-- **The screen shows the tail of everything that was printed.**  From `stdio_initialize` on,
after any calls of `putchar`, `puts` and `printf` that return, the text is the first two lines
and what each call printed, in light grey on black, wrapped at the width of the screen. -/
theorem screen_shows_output {mbi : FramebufferInfo} {buf : Vector Byte 16} {mem : Memory}
    {strings : Strings} {calls : List OutputCall} {s s' : Stdio} (hb : TextBuffer mbi)
    (hinit : stdioInitialize mbi buf mem = .ok s)
    (hcalls : calls.foldlM (OutputCall.run strings) s = some s') :
    ∃ outputs, calls.mapM (OutputCall.output strings) = some outputs ∧
      let chars := banner mbi ++ outputs.flatten.map (BitVec.setWidth 8)
      let text := Text.layout mbi.framebufferWidth.toNat
        (chars.map fun c => glyph (c, terminalDefaultColor))
      (∀ y x, y < mbi.framebufferHeight.toNat → x < mbi.framebufferWidth.toNat →
        s'.console.term.cell s'.console.mem y x =
          (text.cell? mbi.framebufferHeight.toNat y x).getD blankEntry) ∧
      s'.console.term.x.toNat = text.current.length ∧
      s'.console.term.y.toNat = min text.lines.length mbi.framebufferHeight.toNat - 1 := by
  rw [stdioInitialize, terminalInitialize_eq] at hinit
  cases hsetup : terminalSetup mbi mem with
  | error e =>
    rw [hsetup] at hinit
    cases hinit
  | ok s₀ =>
    rw [hsetup] at hinit
    obtain rfl := Except.ok.inj hinit
    obtain ⟨outputs, hmap, rfl⟩ := foldlM_run hcalls
    refine ⟨outputs, hmap, ?_⟩
    have hconsole : (outputs.flatten.foldl Stdio.putchar
        ⟨terminalWrite (banner mbi) terminalDefaultColor s₀, terminalDefaultColor⟩).console =
          terminalWrite (banner mbi ++ outputs.flatten.map (BitVec.setWidth 8))
            terminalDefaultColor s₀ := by
      rw [foldl_putchar, terminalWrite_append]
    dsimp only
    rw [hconsole]
    exact terminalWrite_shows hb hsetup _ terminalDefaultColor

theorem stdioInitialize_ok {mbi : FramebufferInfo} (hflag : checkFlag mbi.flags 12 = true)
    (htype : mbi.framebufferType = multibootFramebufferTypeEgaText) (buf : Vector Byte 16)
    (mem : Memory) : ∃ s, stdioInitialize mbi buf mem = .ok s := by
  rw [stdioInitialize, terminalInitialize_eq, terminalSetup_ok hflag htype]
  exact ⟨_, rfl⟩

theorem screen_shows_output_sample : ∃ s s', stdioInitialize sampleBuffer
      (Vector.replicate 16 0xAA) (fun _ => 0) = .ok s ∧
    [OutputCall.puts (cstring "ok"), .putchar 0x21].foldlM (OutputCall.run fun _ => []) s =
      some s' ∧ s'.console.term.x.toNat = 1 := by
  obtain ⟨s, hinit⟩ := @stdioInitialize_ok sampleBuffer (by decide) rfl
    (Vector.replicate 16 0xAA) fun _ => 0
  have hrun : ∃ s', [OutputCall.puts (cstring "ok"), .putchar 0x21].foldlM
      (OutputCall.run fun _ => []) s = some s' := ⟨_, rfl⟩
  obtain ⟨s', hrun⟩ := hrun
  obtain ⟨outputs, houtputs, -, hx, -⟩ := screen_shows_output sampleBuffer_textBuffer hinit hrun
  obtain rfl : [[111, 107, 10], [33]] = outputs := Option.some.inj houtputs
  exact ⟨s, s', hinit, hrun, hx.trans (by decide +kernel)⟩

end MVK
