import MVK.Exception
import MVK.Lib.Lines
import MVK.Stdio

/-!
# The report of an exception

`isr_handler` prints the frame, one field in each line, and stops.  The report is what is
left of the machine, so it matters that it can be read: each line gives its field back, and
the fields are those of the interrupted code, but for the stack pointer, in whose place the
frame of an exception in ring 0 has the word on top of the interrupted stack.

## Main definitions

* `exceptionMessages` — the descriptions.
* `isrCalls`, `isrReport` — the calls of `puts` and `printf` that `isr_handler` makes.
* `reportLines` — the lines of the report.

## Main results

* `report_text` — what the calls print.
* `report_reads_back` — **the printed report determines every field that it shows.**
* `exception_report` — **what an exception of each vector prints.**
-/

namespace MVK

open Lines Numeral

/-- `exception_messages`. -/
def exceptionMessages : Vector String 32 :=
  #v["Division By Zero", "Debug", "Non Maskable Interrupt", "Breakpoint",
    "Into Detected Overflow", "Out of Bounds", "Invalid Opcode", "No Coprocessor",
    "Double Fault", "Coprocessor Segment Overrun", "Bad TSS", "Segment Not Present",
    "Stack Fault", "General Protection Fault", "Page Fault", "Unknown Interrupt",
    "Coprocessor Fault", "Alignment Check", "Machine Check",
    "Reserved", "Reserved", "Reserved", "Reserved", "Reserved", "Reserved", "Reserved",
    "Reserved", "Reserved", "Reserved", "Reserved", "Reserved", "Reserved"]

section Handler

variable (messages : Vector Word 32) (buf : Vector Byte 128)

/-- `printf` with one argument. -/
def report (format : String) (value : Word) : OutputCall := .printf (cstring format) [value] buf

/-- What `isr_handler` calls, when the number is that of an exception.  `messages` are the
pointers in `exception_messages`. -/
def isrCalls (info : InterruptInfo) (h : info.intNo.toNat < 32) : List OutputCall :=
  [.puts (cstring "Received exception:"), report buf "  Interrupt Number: %u\n" info.intNo] ++
    (if info.errCode ≠ 0 then [report buf "  Error Code: %u\n" info.errCode] else []) ++
    [report buf "  Description: %s\n" messages[info.intNo.toNat],
      .puts (cstring "  Registers:"),
      report buf "    EAX: 0x%x\n" info.eax,
      report buf "    ECX: 0x%x\n" info.ecx,
      report buf "    EDX: 0x%x\n" info.edx,
      report buf "    EBX: 0x%x\n" info.ebx,
      report buf "    ESI: 0x%x\n" info.esi,
      report buf "    EDI: 0x%x\n" info.edi,
      report buf "    EIP: 0x%x\n" info.eip,
      report buf "    ESP: 0x%x\n" info.esp,
      report buf "    EBP: 0x%x\n" info.ebp,
      report buf "    CR2: 0x%x\n" info.cr2]

/-- `isr_handler`, up to `abort`.  A read outside `exception_messages` gives `none`. -/
def isrReport (info : InterruptInfo) : Option (List OutputCall) :=
  if h : info.intNo.toNat < 32 then some (isrCalls messages buf info h) else none

end Handler

/-- The strings that `exception_messages` points to. -/
def MessagesAt (strings : Strings) (messages : Vector Word 32) : Prop :=
  ∀ v (hv : v < 32), ∃ rest, strings messages[v] = cstring exceptionMessages[v] ++ rest

/-! ### The lines -/

def decimalLine (label : String) (value : Word) : List Char :=
  label.toList ++ lowerDigits 10 value.toNat

def hexLine (label : String) (value : Word) : List Char :=
  label.toList ++ lowerDigits 16 value.toNat

/-- The lines of the report. -/
def reportLines (info : InterruptInfo) (description : String) : List (List Char) :=
  ["Received exception:".toList, decimalLine "  Interrupt Number: " info.intNo] ++
    (if info.errCode ≠ 0 then [decimalLine "  Error Code: " info.errCode] else []) ++
    ["  Description: ".toList ++ description.toList, "  Registers:".toList,
      hexLine "    EAX: 0x" info.eax, hexLine "    ECX: 0x" info.ecx,
      hexLine "    EDX: 0x" info.edx, hexLine "    EBX: 0x" info.ebx,
      hexLine "    ESI: 0x" info.esi, hexLine "    EDI: 0x" info.edi,
      hexLine "    EIP: 0x" info.eip, hexLine "    ESP: 0x" info.esp,
      hexLine "    EBP: 0x" info.ebp, hexLine "    CR2: 0x" info.cr2]

/-! ### What the calls print -/

variable {strings : Strings}

/-- A text without `%` is put as it is. -/
theorem printfLoop_text {text : List Byte} (htext : ∀ c ∈ text, c ≠ 0 ∧ c ≠ byteOf '%')
    (format : List Byte) (st : Printf) :
    printfLoop strings (text ++ format) st = printfLoop strings format
      { st with output := st.output ++ text.map (BitVec.signExtend 32) } := by
  induction text generalizing st with
  | nil => simp
  | cons c text ih =>
    obtain ⟨hnul, hpercent⟩ := htext c List.mem_cons_self
    rw [List.cons_append, printfLoop_ordinary hnul hpercent,
      ih fun c' hc' => htext c' (List.mem_cons_of_mem c hc')]
    simp [Printf.putchar]

/-- Characters that a format may hold between its conversions. -/
def Plain (text : List Char) : Prop := ∀ c ∈ text, 0 < c.toNat ∧ c.toNat < 128 ∧ c ≠ '%'

instance (text : List Char) : Decidable (Plain text) := List.decidableBAll _ text

theorem toNat_byteOf {c : Char} (hc : c.toNat < 128) : (byteOf c).toNat = c.toNat := by
  rw [byteOf, BitVec.toNat_ofNat]
  omega

theorem Plain.bytes {text : List Char} (h : Plain text) :
    ∀ c ∈ text.map byteOf, c ≠ 0 ∧ c ≠ byteOf '%' := by
  intro b hb
  obtain ⟨c, hc, rfl⟩ := List.mem_map.mp hb
  obtain ⟨hpos, hlt, hne⟩ := h c hc
  have hnat := toNat_byteOf hlt
  constructor
  · intro heq
    rw [heq] at hnat
    exact absurd hnat hpos.ne
  · intro heq
    rw [heq] at hnat
    exact hne (Char.ext (UInt32.toNat.inj hnat.symm))

/-- A plain text reaches `putchar` as it is. -/
theorem Plain.ints {text : List Char} (h : Plain text) :
    (text.map byteOf).map (BitVec.signExtend 32) = text.map intOf := by
  rw [List.map_map]
  refine List.map_congr_left fun c hc => ?_
  obtain ⟨-, hlt, -⟩ := h c hc
  have hnat := toNat_byteOf hlt
  have hmsb : (byteOf c).msb = false := by
    rw [BitVec.msb_eq_decide, hnat]
    exact decide_eq_false (by omega)
  refine BitVec.eq_of_toNat_eq ?_
  rw [Function.comp_apply, BitVec.signExtend_eq_setWidth_of_msb_false hmsb, BitVec.toNat_setWidth,
    hnat, intOf, BitVec.toNat_ofNat]

/-- A piece of a line: a text, and the conversion after it. -/
abbrev Piece (strings : Strings) := List Char × Directive strings

def Piece.format (piece : Piece strings) : List Byte := piece.1.map byteOf ++ piece.2.format

def Piece.rendering (piece : Piece strings) : List Word :=
  piece.1.map intOf ++ piece.2.rendering

/-- A line is printed piece by piece. -/
theorem printfLoop_pieces {pieces : List (Piece strings)} (hplain : ∀ p ∈ pieces, Plain p.1)
    {st : Printf} {extra : List Word}
    (hargs : st.args = (pieces.flatMap fun p => p.2.args) ++ extra) (hbuf : st.buf.length = 128) :
    ∃ st', Puts (pieces.flatMap Piece.rendering) (pieces.flatMap fun p => p.2.args) st st' ∧
      ∀ format, printfLoop strings (pieces.flatMap Piece.format ++ format) st =
        printfLoop strings format st' := by
  induction pieces generalizing st with
  | nil => exact ⟨st, .refl st, fun _ => rfl⟩
  | cons p pieces ih =>
    have hlabel := hplain p List.mem_cons_self
    obtain ⟨st₁, hput, htext⟩ : ∃ st₁, Puts (p.1.map intOf) [] st st₁ ∧ ∀ format,
        printfLoop strings (p.1.map byteOf ++ format) st = printfLoop strings format st₁ :=
      ⟨{ st with output := st.output ++ (p.1.map byteOf).map (BitVec.signExtend 32) },
        ⟨by rw [hlabel.ints], rfl, rfl⟩, fun format => printfLoop_text hlabel.bytes format st⟩
    rw [List.flatMap_cons, List.append_assoc, hput.args, List.nil_append] at hargs
    have hbuf₁ := hput.buf.trans hbuf
    obtain ⟨mid, hdirective, hrun⟩ := printfLoop_directive p.2 hargs hbuf₁
    have hmid : mid.args = (pieces.flatMap fun p => p.2.args) ++ extra :=
      List.append_cancel_left (hdirective.args.symm.trans hargs)
    obtain ⟨st', hputs, hrest⟩ := ih (fun q hq => hplain q (List.mem_cons_of_mem p hq)) hmid
      (hdirective.buf.trans hbuf₁)
    refine ⟨st', (hput.trans hdirective).trans hputs, fun format => ?_⟩
    rw [List.flatMap_cons, Piece.format, List.append_assoc, List.append_assoc, htext, hrun, hrest]

/-- A line, with the text after its last conversion, and the line break. -/
theorem printf_line {pieces : List (Piece strings)} (hplain : ∀ p ∈ pieces, Plain p.1)
    {tail : List Char} (htail : Plain tail) (buf : Vector Byte 128) :
    (printf strings (pieces.flatMap Piece.format ++ (tail.map byteOf ++ [byteOf '\n', 0]))
        (pieces.flatMap fun p => p.2.args) buf).map Printf.output =
      some (pieces.flatMap Piece.rendering ++ (tail ++ ['\n']).map intOf) := by
  obtain ⟨st, hputs, hrun⟩ := @printfLoop_pieces strings pieces hplain
    { output := [], characters := 0, args := pieces.flatMap fun p => p.2.args,
      buf := buf.toList } [] (List.append_nil _).symm buf.size_toArray
  rw [printf, hrun, printfLoop_text htail.bytes, printfLoop_ordinary (by decide) (by decide),
    printfLoop_nul, htail.ints]
  simp only [Option.map_some, Printf.putchar, hputs.output, List.nil_append, List.append_assoc,
    List.map_append]
  rfl

/-- The call prints the line. -/
def Prints (strings : Strings) (call : OutputCall) (line : List Char) : Prop :=
  call.output strings = some ((line ++ ['\n']).map intOf)

section Lines

variable (buf : Vector Byte 128) {label : List Char} {format : String} {value : Word}

/-- A line of pieces. -/
theorem prints_line {pieces : List (Piece strings)} (hplain : ∀ p ∈ pieces, Plain p.1)
    {text tail : List Char} (htail : Plain tail) {args : List Word}
    (hargs : (pieces.flatMap fun p => p.2.args) = args)
    (htext : pieces.flatMap Piece.rendering = text.map intOf)
    (hformat : cstring format =
      pieces.flatMap Piece.format ++ (tail.map byteOf ++ [byteOf '\n', 0])) :
    Prints strings (.printf (cstring format) args buf) (text ++ tail) := by
  have hline := printf_line hplain htail buf
  rw [Prints, OutputCall.output, hformat, ← hargs, hline, htext, List.append_assoc]
  exact congrArg some List.map_append.symm

/-- A label, one conversion, and the line break. -/
theorem prints_report (hlabel : Plain label) (d : Directive strings) (hargs : d.args = [value])
    {text : List Char} (htext : d.rendering = text.map intOf)
    (hformat : cstring format = label.map byteOf ++ (d.format ++ [byteOf '\n', 0])) :
    Prints strings (report buf format value) (label ++ text) := by
  have hplain : ∀ p ∈ [((label, d) : Piece strings)], Plain p.1 :=
    fun p hp => List.mem_singleton.mp hp ▸ hlabel
  have hprints := @prints_line strings buf format _ hplain (label ++ text) [] (by decide) [value]
    (by simp [hargs]) (by simp [Piece.rendering, htext]) (by simp [Piece.format, hformat])
  rwa [List.append_nil] at hprints

theorem prints_decimal {l : String} (hlabel : Plain l.toList)
    (hformat : cstring format =
      l.toList.map byteOf ++ ([byteOf '%', byteOf 'u'] ++ [byteOf '\n', 0])) :
    Prints strings (report buf format value) (decimalLine l value) :=
  prints_report buf hlabel (.u value) rfl rfl hformat

theorem prints_hex {l : String} (hlabel : Plain l.toList)
    (hformat : cstring format =
      l.toList.map byteOf ++ ([byteOf '%', byteOf 'x'] ++ [byteOf '\n', 0])) :
    Prints strings (report buf format value) (hexLine l value) :=
  prints_report buf hlabel (.x value) rfl rfl hformat

theorem prints_puts {text : String} (h : Plain text.toList) :
    Prints strings (.puts (cstring text)) text.toList := by
  have hnul : 0 ∉ text.toList.map byteOf := fun hmem => (h.bytes 0 hmem).1 rfl
  obtain ⟨st, hrun, hputs⟩ := @putsWith_text id [] _
    { output := [], characters := 0, args := [], buf := [] } hnul
  have hout : st.output = text.toList.map intOf := by
    rw [hputs.output, ← h.ints]
    rfl
  rw [Prints, OutputCall.output, putsOutput, cstring, hrun, Option.map_some, Printf.putchar, hout,
    List.map_append]
  rfl

/-- The descriptions are plain. -/
theorem plain_exceptionMessages {v : ℕ} (hv : v < 32) : Plain exceptionMessages[v].toList := by
  have hall : ∀ v : Fin 32, Plain (exceptionMessages.get v).toList := by decide +kernel
  exact hall ⟨v, hv⟩

theorem prints_description {messages : Vector Word 32} (hmessages : MessagesAt strings messages)
    {v : ℕ} (hv : v < 32) :
    Prints strings (report buf "  Description: %s\n" messages[v])
      ("  Description: ".toList ++ exceptionMessages[v].toList) := by
  have hplain := plain_exceptionMessages hv
  obtain ⟨rest, hat⟩ := hmessages v hv
  have hstring : strings messages[v] = exceptionMessages[v].toList.map byteOf ++ 0 :: rest := by
    rw [hat, cstring, List.append_assoc]
    rfl
  have hnul : 0 ∉ exceptionMessages[v].toList.map byteOf := fun hmem => (hplain.bytes 0 hmem).1 rfl
  exact prints_report buf (by decide) (.s messages[v] ⟨_, rest, hstring, hnul⟩) rfl hplain.ints rfl

/-- The registers, each with its own label. -/
theorem prints_registers (info : InterruptInfo) : List.Forall₂ (Prints strings)
    [report buf "    EAX: 0x%x\n" info.eax,
      report buf "    ECX: 0x%x\n" info.ecx,
      report buf "    EDX: 0x%x\n" info.edx,
      report buf "    EBX: 0x%x\n" info.ebx,
      report buf "    ESI: 0x%x\n" info.esi,
      report buf "    EDI: 0x%x\n" info.edi,
      report buf "    EIP: 0x%x\n" info.eip,
      report buf "    ESP: 0x%x\n" info.esp,
      report buf "    EBP: 0x%x\n" info.ebp,
      report buf "    CR2: 0x%x\n" info.cr2]
    [hexLine "    EAX: 0x" info.eax, hexLine "    ECX: 0x" info.ecx,
      hexLine "    EDX: 0x" info.edx, hexLine "    EBX: 0x" info.ebx,
      hexLine "    ESI: 0x" info.esi, hexLine "    EDI: 0x" info.edi,
      hexLine "    EIP: 0x" info.eip, hexLine "    ESP: 0x" info.esp,
      hexLine "    EBP: 0x" info.ebp, hexLine "    CR2: 0x" info.cr2] := by
  iterate 10 refine .cons (prints_hex buf (by decide) (by decide)) ?_
  exact .nil

end Lines

/-- Calls that print one line each print the lines. -/
theorem mapM_prints {calls : List OutputCall} {lines : List (List Char)}
    (h : List.Forall₂ (Prints strings) calls lines) :
    ∃ outputs, calls.mapM (OutputCall.output strings) = some outputs ∧
      outputs.flatten = (unlines '\n' lines).map intOf := by
  induction h with
  | nil => exact ⟨[], rfl, rfl⟩
  | @cons call line calls lines hprints _ ih =>
    obtain ⟨outputs, hmap, hflat⟩ := ih
    rw [Prints] at hprints
    refine ⟨((line ++ ['\n']).map intOf) :: outputs, ?_, ?_⟩
    · rw [List.mapM_cons, hprints, hmap]
      rfl
    · rw [List.flatten_cons, hflat, unlines_cons, List.map_append, List.map_append, List.map_cons,
        List.append_assoc]
      rfl

/-- What `isr_handler` prints, if it comes to its end. -/
def printed (strings : Strings) (messages : Vector Word 32) (buf : Vector Byte 128)
    (info : InterruptInfo) : Option (List Word) := do
  let calls ← isrReport messages buf info
  let outputs ← calls.mapM (OutputCall.output strings)
  return outputs.flatten

/-- **The report in full**, for any frame with the number of an exception. -/
theorem report_text {messages : Vector Word 32} (hmessages : MessagesAt strings messages)
    (buf : Vector Byte 128) {info : InterruptInfo} (h : info.intNo.toNat < 32) :
    printed strings messages buf info =
      some ((unlines '\n' (reportLines info exceptionMessages[info.intNo.toNat])).map intOf) := by
  have hfirst : List.Forall₂ (Prints strings)
      [.puts (cstring "Received exception:"), report buf "  Interrupt Number: %u\n" info.intNo]
      ["Received exception:".toList, decimalLine "  Interrupt Number: " info.intNo] :=
    .cons (prints_puts (by decide)) (.cons (prints_decimal buf (by decide) (by decide)) .nil)
  have hcode : List.Forall₂ (Prints strings)
      (if info.errCode ≠ 0 then [report buf "  Error Code: %u\n" info.errCode] else [])
      (if info.errCode ≠ 0 then [decimalLine "  Error Code: " info.errCode] else []) := by
    split
    · exact .cons (prints_decimal buf (by decide) (by decide)) .nil
    · exact .nil
  have hcalls : List.Forall₂ (Prints strings) (isrCalls messages buf info h)
      (reportLines info exceptionMessages[info.intNo.toNat]) :=
    List.rel_append (List.rel_append hfirst hcode)
      (.cons (prints_description buf hmessages h)
        (.cons (prints_puts (by decide)) (prints_registers buf info)))
  obtain ⟨outputs, hmap, hflat⟩ := mapM_prints hcalls
  rw [printed, isrReport, dif_pos h, Option.bind_eq_bind, Option.bind_some, Option.bind_eq_bind,
    hmap, Option.bind_some, hflat]
  rfl

/-! ### Reading the report -/

/-- The fields that the report shows. -/
def shown (info : InterruptInfo) : List Word :=
  [info.intNo, info.errCode, info.eax, info.ecx, info.edx, info.ebx, info.esi, info.edi, info.eip,
    info.esp, info.ebp, info.cr2]

theorem intOf_inj : Function.Injective intOf := by
  intro c d h
  have hnat := congrArg BitVec.toNat h
  have hc := c.val.toNat_lt
  have hd := d.val.toNat_lt
  have hc' : (intOf c).toNat = c.val.toNat := by
    rw [intOf, BitVec.toNat_ofNat]
    exact Nat.mod_eq_of_lt hc
  have hd' : (intOf d).toNat = d.val.toNat := by
    rw [intOf, BitVec.toNat_ofNat]
    exact Nat.mod_eq_of_lt hd
  rw [hc', hd'] at hnat
  exact Char.ext (UInt32.toNat.inj hnat)

/-- The value of a digit. -/
def digitOf (c : Char) : ℕ := if c.toNat ≤ 57 then c.toNat - 48 else c.toNat - 87

/-- A numeral gives its digits back. -/
theorem map_digitOf {b : ℕ} (hb : 1 < b) (hb' : b ≤ 16) (n : ℕ) :
    (lowerDigits b n).map digitOf = numeral b n := by
  have hall : ∀ d : Fin 16, digitOf (Nat.digitChar d) = d := by decide
  rw [lowerDigits, List.map_map]
  refine (List.map_congr_left fun d hd => ?_).trans (List.map_id _)
  exact hall ⟨d, (lt_of_mem_numeral hb hd).trans_le hb'⟩

/-- A numeral is that of one number. -/
theorem lowerDigits_inj {b : ℕ} (hb : 1 < b) (hb' : b ≤ 16) {m n : ℕ}
    (h : lowerDigits b m = lowerDigits b n) : m = n := by
  rw [← value_numeral hb m, ← map_digitOf hb hb', h, map_digitOf hb hb', value_numeral hb]

/-- No digit is a line break. -/
theorem newline_notMem_lowerDigits {b : ℕ} (hb : 1 < b) (hb' : b ≤ 16) (n : ℕ) :
    '\n' ∉ lowerDigits b n := by
  intro h
  obtain ⟨d, hd, hchar⟩ := List.mem_map.mp h
  have hall : ∀ d : Fin 16, Nat.digitChar d ≠ '\n' := by decide
  exact hall ⟨d, (lt_of_mem_numeral hb hd).trans_le hb'⟩ hchar

section Fields

variable {label : String} {value value' : Word}

theorem decimalLine_inj (h : decimalLine label value = decimalLine label value') :
    value = value' :=
  BitVec.eq_of_toNat_eq (lowerDigits_inj (by decide) (by decide) (List.append_cancel_left h))

theorem hexLine_inj (h : hexLine label value = hexLine label value') : value = value' :=
  BitVec.eq_of_toNat_eq (lowerDigits_inj (by decide) (by decide) (List.append_cancel_left h))

theorem newline_notMem_field {b : ℕ} (hb : 1 < b) (hb' : b ≤ 16) (hlabel : '\n' ∉ label.toList)
    (n : ℕ) : '\n' ∉ label.toList ++ lowerDigits b n := by
  rw [List.mem_append, not_or]
  exact ⟨hlabel, newline_notMem_lowerDigits hb hb' n⟩

end Fields

/-- No line of the report holds a line break. -/
theorem newline_notMem_reportLines {info : InterruptInfo} {description : String}
    (hdescription : '\n' ∉ description.toList) :
    ∀ line ∈ reportLines info description, '\n' ∉ line := by
  intro line hline
  simp only [reportLines, List.mem_append, List.mem_cons, List.not_mem_nil, or_false] at hline
  rcases hline with ((rfl | rfl) | hcode) | rfl | rfl | rfl | rfl | rfl | rfl | rfl | rfl | rfl |
    rfl | rfl | rfl
  · decide
  · exact newline_notMem_field (by decide) (by decide) (by decide) _
  · split at hcode
    · rw [List.mem_singleton.mp hcode]
      exact newline_notMem_field (by decide) (by decide) (by decide) _
    · exact absurd hcode List.not_mem_nil
  · rw [List.mem_append, not_or]
    exact ⟨by decide, hdescription⟩
  · decide
  all_goals exact newline_notMem_field (by decide) (by decide) (by decide) _

/-- The lines give the fields back. -/
theorem shown_of_reportLines {info info' : InterruptInfo} {description description' : String}
    (h : reportLines info description = reportLines info' description') :
    shown info = shown info' := by
  unfold reportLines at h
  obtain ⟨hhead, hrest⟩ := List.append_inj' h rfl
  obtain ⟨hfirst, hcode⟩ := List.append_inj hhead rfl
  -- The line of the error code is there for both frames or for neither.
  have herr : info.errCode = info'.errCode := by
    by_cases hzero : info.errCode = 0
    · by_cases hzero' : info'.errCode = 0
      · rw [hzero, hzero']
      · rw [if_neg (not_not.mpr hzero), if_pos hzero'] at hcode
        cases hcode
    · by_cases hzero' : info'.errCode = 0
      · rw [if_pos hzero, if_neg (not_not.mpr hzero')] at hcode
        cases hcode
      · rw [if_pos hzero, if_pos hzero'] at hcode
        exact decimalLine_inj (List.cons.inj hcode).1
  simp only [List.cons.injEq] at hfirst hrest
  obtain ⟨-, hno, -⟩ := hfirst
  obtain ⟨-, -, h1, h2, h3, h4, h5, h6, h7, h8, h9, h10, -⟩ := hrest
  simp only [shown, decimalLine_inj hno, herr, hexLine_inj h1, hexLine_inj h2, hexLine_inj h3,
    hexLine_inj h4, hexLine_inj h5, hexLine_inj h6, hexLine_inj h7, hexLine_inj h8,
    hexLine_inj h9, hexLine_inj h10]

/-- Only the fields that are shown matter. -/
theorem reportLines_of_shown {info info' : InterruptInfo} (h : shown info = shown info')
    (description : String) : reportLines info description = reportLines info' description := by
  simp only [shown, List.cons.injEq] at h
  obtain ⟨hno, he, h1, h2, h3, h4, h5, h6, h7, h8, h9, h10, -⟩ := h
  simp only [reportLines, hno, he, h1, h2, h3, h4, h5, h6, h7, h8, h9, h10]

/-- Message `v` at address `v`. -/
def sampleMessages : Vector Word 32 := Vector.ofFn fun v => BitVec.ofNat 32 v

def sampleStrings : Strings := fun p =>
  if h : p.toNat < 32 then cstring exceptionMessages[p.toNat] else []

theorem sampleMessages_at : MessagesAt sampleStrings sampleMessages := by
  intro v hv
  have hnat : (BitVec.ofNat 32 v).toNat = v := by
    rw [BitVec.toNat_ofNat]
    omega
  have hptr : sampleMessages[v] = BitVec.ofNat 32 v := Vector.getElem_ofFn hv
  refine ⟨[], ?_⟩
  rw [hptr, sampleStrings, dif_pos (hnat.symm ▸ hv), List.append_nil]
  simp only [hnat]

/-- **The printed report determines what it shows**, and depends on nothing else: two frames of
exceptions are reported by the same text exactly when the number, the error code and the ten
registers are the same. -/
theorem report_reads_back {messages : Vector Word 32} (hmessages : MessagesAt strings messages)
    (buf buf' : Vector Byte 128) {info info' : InterruptInfo} (h : info.intNo.toNat < 32)
    (h' : info'.intNo.toNat < 32) :
    printed strings messages buf info = printed strings messages buf' info' ↔
      shown info = shown info' := by
  rw [report_text hmessages buf h, report_text hmessages buf' h']
  have hplain : ∀ v (hv : v < 32), '\n' ∉ exceptionMessages[v].toList := by
    have hall : ∀ v : Fin 32, '\n' ∉ (exceptionMessages.get v).toList := by decide +kernel
    exact fun v hv => hall ⟨v, hv⟩
  constructor
  · intro heq
    have htext := (List.map_injective_iff.mpr intOf_inj) (Option.some.inj heq)
    exact shown_of_reportLines (unlines_inj (newline_notMem_reportLines (hplain _ h))
      (newline_notMem_reportLines (hplain _ h')) htext)
  · intro heq
    have hno : info.intNo = info'.intNo := (List.cons.inj heq).1
    rw [reportLines_of_shown heq]
    simp only [hno]

/-- A page fault, and the same with another `EAX`. -/
def sampleInfo (eax : Word) : InterruptInfo where
  ds := 0x10
  cr2 := 0xDEADBEEF
  edi := 1
  esi := 2
  ebp := 3
  useless := 4
  ebx := 5
  edx := 6
  ecx := 7
  eax := eax
  intNo := 14
  errCode := 2
  eip := 0xC0101234
  cs := 0x08
  eflags := 0x202
  esp := 0
  ss := 0

theorem report_reads_back_sample :
    printed sampleStrings sampleMessages (Vector.replicate 128 0) (sampleInfo 0x10) ≠
      printed sampleStrings sampleMessages (Vector.replicate 128 0) (sampleInfo 0x100) :=
  (report_reads_back sampleMessages_at (Vector.replicate 128 0) (Vector.replicate 128 0)
    (by decide) (by decide)).not.mpr (by decide)

/-! ### From the exception to the report -/

/-- The frame of exception `v` with error code `e`: two stubs shift the fields behind the
number by one. -/
structure Displays (v : Fin 32) (e : Word) (c : Cpu) (info : InterruptInfo) : Prop where
  intNo : info.intNo = BitVec.ofNat 32 v
  errCode : info.errCode = if v = 17 ∨ v = 21 then 0 else (errorCode v e).getD 0
  eip : info.eip = if v = 17 ∨ v = 21 then e else c.regs.eip
  esp : info.esp = if v = 17 ∨ v = 21 then c.regs.eflags else c.top
  cr2 : info.cr2 = c.cr2
  eax : info.eax = c.regs.eax
  ecx : info.ecx = c.regs.ecx
  edx : info.edx = c.regs.edx
  ebx : info.ebx = c.regs.ebx
  ebp : info.ebp = c.regs.ebp
  esi : info.esi = c.regs.esi
  edi : info.edi = c.regs.edi

theorem frame_displays {c : Cpu} {gate : IdtEntry} {v : Fin 32} {e : Word} {code : Option Word}
    {errCode eip cs eflags esp ss : Word}
    (herr : errCode = if v = 17 ∨ v = 21 then 0 else (errorCode v e).getD 0)
    (heip : eip = if v = 17 ∨ v = 21 then e else c.regs.eip)
    (hesp : esp = if v = 17 ∨ v = 21 then c.regs.eflags else c.top) :
    Displays v e c (((c.trapped gate code).stubbed v).frame (BitVec.ofNat 32 v) errCode eip cs
      eflags esp ss) := by
  have hregs := stubbed_regs c gate v code
  exact
    { intNo := rfl
      errCode := herr
      eip := heip
      esp := hesp
      cr2 := stubbed_cr2 c gate v code
      eax := (congrArg Regs.eax hregs :)
      ecx := (congrArg Regs.ecx hregs :)
      edx := (congrArg Regs.edx hregs :)
      ebx := (congrArg Regs.ebx hregs :)
      ebp := (congrArg Regs.ebp hregs :)
      esi := (congrArg Regs.esi hregs :)
      edi := (congrArg Regs.edi hregs :) }

/-- The frame of every exception. -/
theorem interrupt_displays (image : Image) (idt : Idt) (v : Fin 32) (e : Word) (s : State) :
    ∃ info, interrupt image (isrInstall image idt) (excVector v) (errorCode v e) s =
        .error (.aborted info) ∧ Displays v e s.cpu info := by
  have hstack : s.cpu.Holds [s.cpu.top, s.cpu.drop.top] := ⟨rfl, rfl, trivial⟩
  by_cases hv : v = 17 ∨ v = 21
  · have hwords : isrNumbers v ++ (errorCode v e).toList ++
        ([s.cpu.regs.eip, s.cpu.regs.cs.setWidth 32, s.cpu.regs.eflags] ++ [s.cpu.top]) =
        [BitVec.ofNat 32 v, 0, e, s.cpu.regs.eip, s.cpu.regs.cs.setWidth 32,
          s.cpu.regs.eflags, s.cpu.top] := by
      rw [isrNumbers_append_of_eq hv]
      rfl
    have hone : s.cpu.Holds [s.cpu.top] := ⟨rfl, trivial⟩
    exact ⟨_, interrupt_exc image idt v _ s hone (by exact (by decide : 1 < 2 ^ 27)) hwords,
      frame_displays (if_pos hv).symm (if_pos hv).symm (if_pos hv).symm⟩
  · have hwords : isrNumbers v ++ (errorCode v e).toList ++
        ([s.cpu.regs.eip, s.cpu.regs.cs.setWidth 32, s.cpu.regs.eflags] ++
          [s.cpu.top, s.cpu.drop.top]) =
        [BitVec.ofNat 32 v, (errorCode v e).getD 0, s.cpu.regs.eip, s.cpu.regs.cs.setWidth 32,
          s.cpu.regs.eflags, s.cpu.top, s.cpu.drop.top] := by
      rw [isrNumbers_append (not_or.mp hv)]
      rfl
    exact ⟨_, interrupt_exc image idt v _ s hstack (by exact (by decide : 2 < 2 ^ 27)) hwords,
      frame_displays (if_neg hv).symm (if_neg hv).symm (if_neg hv).symm⟩

/-- **What an exception prints.**  For every vector and from every state, `isr_handler` prints
its report to the end and gives up, with the name of the exception and the registers of the
interrupted code.  The error code and `EIP` are wrong for vectors 17 and 21 only; the line of
`ESP` shows the word on top of the interrupted stack, or there the flags. -/
theorem exception_report (image : Image) (idt : Idt) (v : Fin 32) (e : Word) (s : State)
    {messages : Vector Word 32} (hmessages : MessagesAt strings messages)
    (buf : Vector Byte 128) :
    ∃ info, interrupt image (isrInstall image idt) (excVector v) (errorCode v e) s =
        .error (.aborted info) ∧ Displays v e s.cpu info ∧
      printed strings messages buf info =
        some ((unlines '\n' (reportLines info (exceptionMessages.get v))).map intOf) := by
  obtain ⟨info, hinterrupt, hdisplays⟩ := interrupt_displays image idt v e s
  have hno : info.intNo.toNat = v := by
    rw [hdisplays.intNo, BitVec.toNat_ofNat]
    omega
  have htext := report_text hmessages buf (hno.symm ▸ v.isLt : info.intNo.toNat < 32)
  simp only [hno] at htext
  exact ⟨info, hinterrupt, hdisplays, htext⟩

/-- A page fault at `EIP` 0xC0101234 on a stack of 0xCC. -/
theorem exception_report_sample : ∃ info,
    interrupt clockImage (isrInstall clockImage fun _ => gateTo 0 0) (excVector 14)
      (errorCode 14 2) clockState = .error (.aborted info) ∧ info.esp = 0xCCCCCCCC ∧
    (printed sampleStrings sampleMessages (Vector.replicate 128 0) info).isSome := by
  obtain ⟨info, hinterrupt, hdisplays, hprinted⟩ := exception_report clockImage
    (fun _ => gateTo 0 0) 14 2 clockState sampleMessages_at (Vector.replicate 128 0)
  refine ⟨info, hinterrupt, hdisplays.esp, ?_⟩
  rw [hprinted]
  rfl

end MVK
