import Mathlib.Tactic.IntervalCases
import MVK.Itoa

/-!
# Formatted output

`printf` reads its format and the strings it is given up to their NUL, takes its
arguments one after the other, and hands every character to `putchar`.  What reaches
`putchar` is the list of the `int`s it is called with; a `char` is signed, so it gets
there extended by its sign.

A string is the list of the bytes that can be read from its pointer on.  Reading past the
last of them gives `none`, and so does taking an argument that is not there.

## Main definitions

* `Printf.putsWith`, `Printf.putNumber` — what the conversions have in common.
* `convert`, `printfLoop`, `printf` — the conversions, the loop over the format.
* `Directive` — a piece of a supported format, with the argument it takes.

## Main results

* `convert_directive` — what the `switch` does with one conversion.
* `printfLoop_directive`, `printfLoop_directives` — what one piece of a format prints, and
  a whole format.
* `printf_renders` — **`printf` prints the rendering of its arguments.**
-/

namespace MVK

open Numeral

/-- The bytes that can be read from each pointer on. -/
abbrev Strings := Word → List Byte

/-- A character of the execution set. -/
def byteOf (c : Char) : Byte := BitVec.ofNat 8 c.toNat

/-- The same as an `int`. -/
def intOf (c : Char) : Word := BitVec.ofNat 32 c.toNat

/-- `islower`. -/
def islower (arg : Word) : Bool := (intOf 'a').sle arg && arg.sle (intOf 'z')

/-- `toupper`. -/
def toupper (arg : Word) : Word := if ¬ islower arg then arg else arg - 32

/-- The locals of `printf`, the arguments not yet taken, and what `putchar` got. -/
structure Printf where
  output : List Word
  characters : Word
  args : List Word
  buf : List Byte

/-- `putchar`. -/
def Printf.putchar (st : Printf) (character : Word) : Printf :=
  { st with output := st.output ++ [character] }

/-- `characters += _puts(str)` and `characters += _uputs(str)`: a character goes through
`conv` before it is put, which is `toupper` in `_uputs`. -/
def Printf.putsWith (conv : Word → Word) : List Byte → Printf → Option Printf
  | [], _ => none
  | c :: str, st =>
    if c = 0 then some st
    else
      let st := st.putchar (conv (c.signExtend 32))
      putsWith conv str { st with characters := st.characters + 1 }

/-- `va_arg`. -/
def Printf.vaArg (st : Printf) : Option (Word × Printf) :=
  match st.args with
  | [] => none
  | value :: args => some (value, { st with args })

/-- The branch of a number: `number` writes it into `buf`, and `conv` is as in `putsWith`. -/
def Printf.putNumber (number : Word → List Byte → Option (List Byte)) (conv : Word → Word)
    (st : Printf) : Option Printf := do
  let (value, st) ← st.vaArg
  let buf ← number value st.buf
  putsWith conv buf { st with buf }

/-- The `switch` on the character after the `%`. -/
def convert (strings : Strings) (c : Byte) (st : Printf) : Option Printf :=
  if c = byteOf 'd' ∨ c = byteOf 'i' then
    st.putNumber (fun value buf => itoa value buf 10) id
  else if c = byteOf 'u' then
    st.putNumber (fun value buf => uitoa value buf 10) id
  else if c = byteOf 'x' then
    st.putNumber (fun value buf => uitoa value buf 16) id
  else if c = byteOf 'X' then
    st.putNumber (fun value buf => uitoa value buf 16) toupper
  else if c = byteOf 'p' then
    st.putNumber pitoa id
  else if c = byteOf 's' then do
    let (str, st) ← st.vaArg
    st.putsWith id (strings str)
  else if c = byteOf 'c' then do
    let (value, st) ← st.vaArg
    let st := st.putchar value
    return { st with characters := st.characters + 1 }
  else some st

/-- The loop over the format. -/
def printfLoop (strings : Strings) : List Byte → Printf → Option Printf
  | [], _ => none
  | c :: format, st =>
    if c = 0 then some st
    else if c = byteOf '%' then
      match format with
      | [] => none
      | d :: format => do printfLoop strings format (← convert strings d st)
    else printfLoop strings format (st.putchar (c.signExtend 32))

/-- `printf`.  `buf` is what its buffer holds at first. -/
def printf (strings : Strings) (format : List Byte) (args : List Word) (buf : Vector Byte 128) :
    Option Printf :=
  printfLoop strings format { output := [], characters := 0, args, buf := buf.toList }

/-! ### Supported formats -/

/-- A NUL-terminated string at `p`. -/
structure CString (strings : Strings) (p : Word) where
  text : List Byte
  rest : List Byte
  at_eq : strings p = text ++ 0 :: rest
  nul_notMem : 0 ∉ text

/-- A piece of a format, with the argument it takes. -/
inductive Directive (strings : Strings)
  | ordinary (char : Byte) (nul : char ≠ 0) (percent : char ≠ byteOf '%')
  | d (value : Word)
  | i (value : Word)
  | u (value : Word)
  | x (value : Word)
  | X (value : Word)
  | p (value : Word)
  | s (ptr : Word) (str : CString strings ptr)
  | c (value : Word)

variable {strings : Strings}

/-- How the piece is written in the format. -/
def Directive.format : Directive strings → List Byte
  | ordinary char _ _ => [char]
  | d _ => [byteOf '%', byteOf 'd']
  | i _ => [byteOf '%', byteOf 'i']
  | u _ => [byteOf '%', byteOf 'u']
  | x _ => [byteOf '%', byteOf 'x']
  | X _ => [byteOf '%', byteOf 'X']
  | p _ => [byteOf '%', byteOf 'p']
  | s _ _ => [byteOf '%', byteOf 's']
  | c _ => [byteOf '%', byteOf 'c']

/-- The argument the piece takes. -/
def Directive.args : Directive strings → List Word
  | ordinary _ _ _ => []
  | d value => [value]
  | i value => [value]
  | u value => [value]
  | x value => [value]
  | X value => [value]
  | p value => [value]
  | s ptr _ => [ptr]
  | c value => [value]

/-- The digits of `n` in base `b`, in lower case. -/
def lowerDigits (b n : ℕ) : List Char := (numeral b n).map Nat.digitChar

/-- The digits of `n` in base `b`, in upper case. -/
def upperDigits (b n : ℕ) : List Char := (lowerDigits b n).map Char.toUpper

/-- An integer in decimal. -/
def decimal (value : ℤ) : List Char :=
  if value < 0 then '-' :: lowerDigits 10 value.natAbs else lowerDigits 10 value.natAbs

/-- What the piece prints. -/
def Directive.rendering : Directive strings → List Word
  | ordinary char _ _ => [char.signExtend 32]
  | d value => (decimal value.toInt).map intOf
  | i value => (decimal value.toInt).map intOf
  | u value => (lowerDigits 10 value.toNat).map intOf
  | x value => (lowerDigits 16 value.toNat).map intOf
  | X value => (upperDigits 16 value.toNat).map intOf
  | p value => (lowerDigits 16 value.toNat).map intOf
  | s _ str => str.text.map (BitVec.signExtend 32)
  | c value => [value]

/-! ### Characters -/

/-- The lower-case digits, as `_puts` reads them from the buffer. -/
theorem signExtend_digitChar {d : ℕ} (hd : d < 16) :
    (digitChar (BitVec.ofNat 32 d)).signExtend 32 = intOf (Nat.digitChar d) := by
  interval_cases d <;> rfl

/-- The same through `toupper`. -/
theorem toupper_signExtend_digitChar {d : ℕ} (hd : d < 16) :
    toupper ((digitChar (BitVec.ofNat 32 d)).signExtend 32) =
      intOf (Nat.digitChar d).toUpper := by
  interval_cases d <;> rfl

/-- A numeral in a base up to 16, as `_puts` reads it from the buffer. -/
theorem map_digitChars {b : ℕ} (hb : 1 < b) (hb' : b ≤ 16) (n : ℕ) :
    ((digitChars (numeral b n)).map fun c => c.signExtend 32) = (lowerDigits b n).map intOf := by
  rw [digitChars, lowerDigits, List.map_map, List.map_map]
  refine List.map_congr_left fun d hd => ?_
  exact signExtend_digitChar ((lt_of_mem_numeral hb hd).trans_le hb')

theorem map_toupper_digitChars {b : ℕ} (hb : 1 < b) (hb' : b ≤ 16) (n : ℕ) :
    ((digitChars (numeral b n)).map fun c => toupper (c.signExtend 32)) =
      (upperDigits b n).map intOf := by
  rw [digitChars, upperDigits, lowerDigits, List.map_map, List.map_map, List.map_map]
  refine List.map_congr_left fun d hd => ?_
  exact toupper_signExtend_digitChar ((lt_of_mem_numeral hb hd).trans_le hb')

/-! ### The sign of a word -/

/-- A negative word has its absolute value as its negation, `INT_MIN` included. -/
theorem toNat_neg_of_toInt_neg {value : Word} (h : value.toInt < 0) :
    (-value).toNat = value.toInt.natAbs := by
  have hlt := value.isLt
  rw [BitVec.toInt_eq_toNat_cond] at h ⊢
  rw [BitVec.toNat_neg]
  omega

theorem natAbs_toInt_of_nonneg {value : Word} (h : 0 ≤ value.toInt) :
    value.toInt.natAbs = value.toNat := by
  have hlt := value.isLt
  rw [BitVec.toInt_eq_toNat_cond] at h ⊢
  omega

/-! ### What a stretch of the run does -/

/-- From `st` to `st'` the characters `out` are put and the arguments `taken` are taken. -/
structure Puts (out taken : List Word) (st st' : Printf) : Prop where
  output : st'.output = st.output ++ out
  args : st.args = taken ++ st'.args
  buf : st'.buf.length = st.buf.length

theorem Puts.refl (st : Printf) : Puts [] [] st st := ⟨by simp, rfl, rfl⟩

theorem Puts.trans {out out' taken taken' : List Word} {st st' st'' : Printf}
    (h : Puts out taken st st') (h' : Puts out' taken' st' st'') :
    Puts (out ++ out') (taken ++ taken') st st'' where
  output := by rw [h'.output, h.output, List.append_assoc]
  args := by rw [h.args, h'.args, List.append_assoc]
  buf := h'.buf.trans h.buf

theorem puts_putchar (character : Word) (st : Printf) :
    Puts [character] [] st (st.putchar character) := ⟨rfl, rfl, rfl⟩

/-- `_puts` and `_uputs` stop at the first NUL. -/
theorem putsWith_text (conv : Word → Word) (rest : List Byte) {text : List Byte} :
    ∀ {st : Printf}, 0 ∉ text → ∃ st', st.putsWith conv (text ++ 0 :: rest) = some st' ∧
      Puts (text.map fun c => conv (c.signExtend 32)) [] st st' := by
  induction text with
  | nil => intro st _; exact ⟨st, rfl, Puts.refl st⟩
  | cons c text ih =>
    intro st hnul
    obtain ⟨hc, htext⟩ := List.ne_and_not_mem_of_not_mem_cons hnul
    obtain ⟨st', hrun, hputs⟩ := @ih
      { st.putchar (conv (c.signExtend 32)) with characters := st.characters + 1 } htext
    refine ⟨st', ?_, ?_⟩
    · rw [List.cons_append, Printf.putsWith, if_neg (Ne.symm hc)]
      exact hrun
    · exact (puts_putchar (conv (c.signExtend 32)) st).trans ⟨hputs.output, hputs.args, hputs.buf⟩

/-- Taking the argument that comes next. -/
theorem vaArg_cons {st : Printf} {value : Word} {args : List Word} (h : st.args = value :: args) :
    st.vaArg = some (value, { st with args }) := by rw [Printf.vaArg, h]

/-- A branch of a number prints what was written into the buffer. -/
theorem putNumber_text {number : Word → List Byte → Option (List Byte)} {conv : Word → Word}
    {st : Printf} {value : Word} {args : List Word} {text rest : List Byte}
    (hargs : st.args = value :: args) (hnumber : number value st.buf = some (text ++ 0 :: rest))
    (hlen : (text ++ 0 :: rest).length = st.buf.length) (hnul : 0 ∉ text) :
    ∃ st', st.putNumber number conv = some st' ∧
      Puts (text.map fun c => conv (c.signExtend 32)) [value] st st' := by
  obtain ⟨st', hrun, hputs⟩ := @putsWith_text conv rest text
    { st with args, buf := text ++ 0 :: rest } hnul
  refine ⟨st', ?_, hputs.output, ?_, hputs.buf.trans hlen⟩
  · rw [Printf.putNumber, vaArg_cons hargs, Option.bind_eq_bind, Option.bind_some]
    dsimp only
    rw [hnumber, Option.bind_eq_bind, Option.bind_some, hrun]
  · rw [hargs]
    exact congrArg (value :: ·) hputs.args

/-! ### The conversions -/

section Conversions

variable {st : Printf} {value : Word} {args : List Word}

/-- `_uitoa` and the prints after it. -/
theorem putNumber_uitoa {base : Word} (hbase : 1 < base.toNat) (hbase' : base.toNat ≤ 16)
    (conv : Word → Word) (hargs : st.args = value :: args) (hbuf : st.buf.length = 128) :
    ∃ st', st.putNumber (fun value buf => uitoa value buf base) conv = some st' ∧
      Puts ((digitChars (numeral base.toNat value.toNat)).map fun c => conv (c.signExtend 32))
        [value] st st' := by
  have hlen := length_numeral_word hbase value
  refine putNumber_text hargs (uitoa_eq hbase value (by omega)) ?_
    (zero_notMem_digitChars hbase (hbase'.trans (by decide)) _)
  simp only [List.length_append, List.length_cons, length_digitChars, List.length_drop]
  omega

/-- A number printed as it is in the buffer. -/
theorem putNumber_lowerDigits {base : Word} (hbase : 1 < base.toNat) (hbase' : base.toNat ≤ 16)
    (hargs : st.args = value :: args) (hbuf : st.buf.length = 128) :
    ∃ st', st.putNumber (fun value buf => uitoa value buf base) id = some st' ∧
      Puts ((lowerDigits base.toNat value.toNat).map intOf) [value] st st' := by
  have hprint := putNumber_uitoa hbase hbase' id hargs hbuf
  simp only [id_eq, map_digitChars hbase hbase'] at hprint
  exact hprint

/-- `itoa` and the print after it. -/
theorem putNumber_itoa (hargs : st.args = value :: args) (hbuf : st.buf.length = 128) :
    ∃ st', st.putNumber (fun value buf => itoa value buf 10) id = some st' ∧
      Puts ((decimal value.toInt).map intOf) [value] st st' := by
  have hbase : 1 < (10 : Word).toNat := by decide
  by_cases hneg : value.toInt < 0
  · have hlen := length_numeral_word (by decide : 1 < 10) (-value)
    have hnumber := itoa_of_neg (BitVec.slt_iff_toInt_lt.mpr hneg)
      (by omega : 33 < st.buf.length)
    have htext : 0 ∉ 45 :: digitChars (numeral 10 (-value).toNat) :=
      List.not_mem_cons_of_ne_of_not_mem (by decide)
        (zero_notMem_digitChars (by decide) (by decide) _)
    have hdecimal : (decimal value.toInt).map intOf =
        (45 :: digitChars (numeral 10 (-value).toNat)).map fun c => c.signExtend 32 := by
      rw [decimal, if_pos hneg, ← toNat_neg_of_toInt_neg hneg, List.map_cons, List.map_cons,
        map_digitChars (by decide) (by decide)]
      rfl
    rw [hdecimal]
    refine putNumber_text hargs hnumber ?_ htext
    simp only [List.length_append, List.length_cons, length_digitChars, List.length_drop]
    omega
  · have hpos : ¬ ((10 : Word) = 10 ∧ value.slt 0) := fun h =>
      hneg (BitVec.slt_iff_toInt_lt.mp h.2)
    obtain ⟨st', hrun, hputs⟩ := putNumber_lowerDigits hbase (by decide) hargs hbuf
    refine ⟨st', ?_, ?_⟩
    · rw [← hrun]
      simp only [Printf.putNumber, vaArg_cons hargs, Option.bind_eq_bind, Option.bind_some,
        itoa_eq_uitoa hpos]
    · rw [decimal, if_neg hneg, natAbs_toInt_of_nonneg (by omega)]
      exact hputs

/-- The branch of `%s` prints the string at its argument. -/
theorem convert_string {ptr : Word} (str : CString strings ptr) (hargs : st.args = ptr :: args) :
    ∃ st', convert strings (byteOf 's') st = some st' ∧
      Puts (str.text.map (BitVec.signExtend 32)) [ptr] st st' := by
  obtain ⟨st', hrun, hputs⟩ := @putsWith_text id str.rest str.text { st with args }
    str.nul_notMem
  have hconvert : convert strings (byteOf 's') st =
      st.vaArg.bind fun taken => taken.2.putsWith id (strings taken.1) := rfl
  rw [← str.at_eq] at hrun
  refine ⟨st', ?_, hputs.output, ?_, hputs.buf⟩
  · rw [hconvert, vaArg_cons hargs]
    exact hrun
  · rw [hargs]
    exact congrArg (ptr :: ·) hputs.args

/-- The branch of `%c` prints its argument. -/
theorem convert_char (hargs : st.args = value :: args) :
    ∃ st', convert strings (byteOf 'c') st = some st' ∧ Puts [value] [value] st st' := by
  have hconvert : convert strings (byteOf 'c') st = st.vaArg.bind fun taken =>
      some { taken.2.putchar taken.1 with characters := taken.2.characters + 1 } := rfl
  refine ⟨{ st.putchar value with characters := st.characters + 1, args }, ?_, rfl, hargs, rfl⟩
  rw [hconvert, vaArg_cons hargs, Option.bind_some]
  rfl

end Conversions

/-! ### The loop -/

theorem printfLoop_nul (rest : List Byte) (st : Printf) :
    printfLoop strings (0 :: rest) st = some st := by
  rw [printfLoop.eq_def]
  rfl

theorem printfLoop_ordinary {char : Byte} (hnul : char ≠ 0) (hpercent : char ≠ byteOf '%')
    (format : List Byte) (st : Printf) :
    printfLoop strings (char :: format) st =
      printfLoop strings format (st.putchar (char.signExtend 32)) := by
  rw [printfLoop.eq_def]
  dsimp only
  rw [if_neg hnul, if_neg hpercent]

/-- A conversion runs the `switch`, and the loop goes on after its letter. -/
theorem printfLoop_conversion {c : Byte} {out taken : List Word} {st : Printf}
    (h : ∃ st', convert strings c st = some st' ∧ Puts out taken st st') :
    ∃ st', Puts out taken st st' ∧ ∀ format,
      printfLoop strings ([byteOf '%', c] ++ format) st = printfLoop strings format st' := by
  obtain ⟨st', hrun, hputs⟩ := h
  refine ⟨st', hputs, fun format => ?_⟩
  rw [List.cons_append, List.singleton_append, printfLoop.eq_def]
  dsimp only
  rw [if_neg (by decide), if_pos rfl, hrun, Option.bind_eq_bind, Option.bind_some]

/-- The `switch` on the letter of a conversion prints its rendering and takes its argument. -/
theorem convert_directive (d : Directive strings) {c : Byte} (hc : d.format = [byteOf '%', c])
    {st : Printf} {extra : List Word} (hargs : st.args = d.args ++ extra)
    (hbuf : st.buf.length = 128) :
    ∃ st', convert strings c st = some st' ∧ Puts d.rendering d.args st st' := by
  have hletter : ∀ {letter : Byte}, [byteOf '%', letter] = [byteOf '%', c] → letter = c :=
    fun h => by simpa using h
  have hten : 1 < (10 : Word).toNat := by decide
  have hsixteen : 1 < (16 : Word).toNat := by decide
  cases d with
  | ordinary char nul percent => exact absurd hc (by simp [Directive.format])
  | d value =>
    obtain rfl := hletter hc
    exact putNumber_itoa hargs hbuf
  | i value =>
    obtain rfl := hletter hc
    exact putNumber_itoa hargs hbuf
  | u value =>
    obtain rfl := hletter hc
    exact putNumber_lowerDigits hten (by decide) hargs hbuf
  | x value =>
    obtain rfl := hletter hc
    exact putNumber_lowerDigits hsixteen (by decide) hargs hbuf
  | X value =>
    obtain rfl := hletter hc
    have hprint := putNumber_uitoa hsixteen (by decide) toupper hargs hbuf
    rw [map_toupper_digitChars hsixteen (by decide)] at hprint
    exact hprint
  | p value =>
    obtain rfl := hletter hc
    have hprint := putNumber_lowerDigits hsixteen (by decide) hargs hbuf
    simp only [← pitoa_eq_uitoa] at hprint
    exact hprint
  | s ptr str =>
    obtain rfl := hletter hc
    exact convert_string str hargs
  | c value =>
    obtain rfl := hletter hc
    exact convert_char hargs

/-- One piece of the format prints its rendering and takes its argument. -/
theorem printfLoop_directive (d : Directive strings) {st : Printf} {extra : List Word}
    (hargs : st.args = d.args ++ extra) (hbuf : st.buf.length = 128) :
    ∃ st', Puts d.rendering d.args st st' ∧ ∀ format,
      printfLoop strings (d.format ++ format) st = printfLoop strings format st' := by
  have hconvert : ∀ {c}, d.format = [byteOf '%', c] →
      ∃ st', convert strings c st = some st' ∧ Puts d.rendering d.args st st' :=
    fun hc => convert_directive d hc hargs hbuf
  cases d with
  | ordinary char nul percent =>
    exact ⟨st.putchar (char.signExtend 32), puts_putchar _ st,
      fun format => printfLoop_ordinary nul percent format st⟩
  | d value => exact printfLoop_conversion (hconvert rfl)
  | i value => exact printfLoop_conversion (hconvert rfl)
  | u value => exact printfLoop_conversion (hconvert rfl)
  | x value => exact printfLoop_conversion (hconvert rfl)
  | X value => exact printfLoop_conversion (hconvert rfl)
  | p value => exact printfLoop_conversion (hconvert rfl)
  | s ptr str => exact printfLoop_conversion (hconvert rfl)
  | c value => exact printfLoop_conversion (hconvert rfl)

/-- A whole format, piece by piece. -/
theorem printfLoop_directives (rest : List Byte) {extra : List Word}
    (directives : List (Directive strings)) :
    ∀ {st : Printf}, st.args = directives.flatMap Directive.args ++ extra →
      st.buf.length = 128 → ∃ st', Puts (directives.flatMap Directive.rendering)
        (directives.flatMap Directive.args) st st' ∧
          printfLoop strings (directives.flatMap Directive.format ++ 0 :: rest) st = some st' := by
  induction directives with
  | nil => intro st _ _; exact ⟨st, Puts.refl st, printfLoop_nul rest st⟩
  | cons d directives ih =>
    intro st hargs hbuf
    rw [List.flatMap_cons, List.append_assoc] at hargs
    obtain ⟨mid, hputs, hrun⟩ := printfLoop_directive d hargs hbuf
    have hmid : mid.args = directives.flatMap Directive.args ++ extra :=
      List.append_cancel_left (hputs.args.symm.trans hargs)
    obtain ⟨st', hputs', hrun'⟩ := ih hmid (hputs.buf.trans hbuf)
    refine ⟨st', hputs.trans hputs', ?_⟩
    rw [List.flatMap_cons, List.append_assoc, hrun, hrun']

/-- **`printf` renders a supported format**: it returns, having put the rendering of every
piece in order, and having taken the arguments of the format and no others. -/
theorem printf_renders (strings : Strings) (directives : List (Directive strings))
    (rest : List Byte) (extra : List Word) (buf : Vector Byte 128) :
    ∃ st, printf strings (directives.flatMap Directive.format ++ 0 :: rest)
        (directives.flatMap Directive.args ++ extra) buf = some st ∧
      st.output = directives.flatMap Directive.rendering ∧ st.args = extra := by
  obtain ⟨st, hputs, hrun⟩ := @printfLoop_directives _ rest extra directives
    { output := [], characters := 0, args := directives.flatMap Directive.args ++ extra,
      buf := buf.toList } rfl buf.size_toArray
  exact ⟨st, hrun, hputs.output, (List.append_cancel_left hputs.args).symm⟩

/-- `-2147483648 7fFF ok` -/
example : ((printf (fun _ => [111, 107, 0])
    ("%d %x%X %s".toList.map byteOf ++ [0]) [0x80000000, 0x7F, 0xFF, 0x1000]
      (Vector.replicate 128 0xAA)).map Printf.output) =
    some ("-2147483648 7fFF ok".toList.map intOf) := by decide +kernel

end MVK
