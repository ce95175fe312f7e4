import MVK.Stack

/-!
# The processor

The part of an i686 that interrupt entry and exit use: the general registers, the flags,
the data segment registers, and the instructions of the interrupt stubs.  All of it runs
in ring 0, so no instruction changes the privilege level or the stack segment.

Segment registers are loaded from the descriptors that `gdt_initialize` sets up: kernel
code and kernel data, both of which can be read.  An instruction the processor refuses
gives `none`; so does a return to virtual-8086 mode or another ring, and a task return,
which are not modelled.

## Main definitions

* `Regs`, `Cpu` — the registers, and the processor with its memory.
* `Instr`, `Cpu.exec` — the instructions.
* `IdtEntry`, `Cpu.deliver`, `Cpu.iret` — interrupt entry and exit.
-/

namespace MVK

/-- The registers that interrupted code can see. -/
@[ext] structure Regs where
  eax : Word
  ecx : Word
  edx : Word
  ebx : Word
  esp : Word
  ebp : Word
  esi : Word
  edi : Word
  eip : Word
  eflags : Word
  cs : BitVec 16
  ds : BitVec 16
  es : BitVec 16
  fs : BitVec 16
  gs : BitVec 16
  deriving DecidableEq

/-- The processor and its memory.  `eip` is kept for interrupted code; within the stubs the
place in their text stands for it. -/
structure Cpu where
  regs : Regs
  cr2 : Word
  mem : Memory

/-! ### Flags -/

/-- The bits of EFLAGS: trap, interrupt, direction, nested task, resume, virtual-8086. -/
def flagTF : Word := 0x00000100

def flagIF : Word := 0x00000200

def flagDF : Word := 0x00000400

def flagNT : Word := 0x00004000

def flagRF : Word := 0x00010000

def flagVM : Word := 0x00020000

/-- Whether the low byte has an even number of ones. -/
def evenParity (w : Word) : Bool := (List.range 8).foldl (fun p k => p ^^ w.getLsbD k) true

/-- A flag in its place. -/
def flagBit (k : ℕ) (set : Bool) : Word := if set then 1 <<< k else 0

/-- The flags after `a + b`: carry, parity, auxiliary carry, zero, sign and overflow. -/
def addFlags (eflags a b : Word) : Word :=
  let sum := a + b
  eflags &&& ~~~0x8D5 ||| flagBit 0 (sum.ult a) ||| flagBit 2 (evenParity sum) |||
    flagBit 4 ((a ^^^ b ^^^ sum).getLsbD 4) ||| flagBit 6 (sum = 0) ||| flagBit 7 sum.msb |||
    flagBit 11 (a.msb = b.msb ∧ sum.msb ≠ a.msb)

/-- Setting other bits leaves NT. -/
theorem or_nt (eflags : Word) {w : Word} (hw : w &&& flagNT = 0) :
    (eflags ||| w) &&& flagNT = eflags &&& flagNT := by
  rw [BitVec.and_comm, BitVec.and_or_distrib_left, BitVec.and_comm flagNT w, hw, BitVec.and_comm]
  exact BitVec.or_zero

/-- Clearing other bits leaves NT. -/
theorem andNot_nt (eflags : Word) {w : Word} (hw : ~~~w &&& flagNT = flagNT) :
    eflags &&& ~~~w &&& flagNT = eflags &&& flagNT := by
  rw [BitVec.and_assoc, hw]

theorem addFlags_nt (eflags a b : Word) : addFlags eflags a b &&& flagNT = eflags &&& flagNT := by
  have hbit : ∀ k < 12, ∀ set, flagBit k set &&& flagNT = 0 := by decide
  rw [addFlags, or_nt _ (hbit 11 (by decide) _), or_nt _ (hbit 7 (by decide) _),
    or_nt _ (hbit 6 (by decide) _), or_nt _ (hbit 4 (by decide) _),
    or_nt _ (hbit 2 (by decide) _), or_nt _ (hbit 0 (by decide) _), andNot_nt _ rfl]

/-! ### Instructions -/

/-- `P_CODE_GDT_R0`. -/
def codeSelector : BitVec 16 := 0x08

/-- `P_DATA_GDT_R0`, which `set_gdt` loads into the data segment registers. -/
def dataSelector : BitVec 16 := 0x10

/-- The selectors a data segment register takes: null, and the readable descriptors. -/
def loadable (selector : BitVec 16) : Bool :=
  selector.ult 4 || selector = codeSelector || selector = dataSelector

inductive Operand
  | imm (value : Word)
  | eax
  | esp

inductive Segment
  | ds
  | es
  | fs
  | gs

inductive Instr
  | cli
  | sti
  | cld
  | pushl (src : Operand)
  | poplEax
  | pusha
  | popa
  | movlCr2Eax
  | movwDsAx
  | movwImmAx (value : BitVec 16)
  | movwAx (segment : Segment)
  | addlEsp (value : Word)

def Operand.value (c : Cpu) : Operand → Word
  | imm value => value
  | eax => c.regs.eax
  | esp => c.regs.esp

/-- A 32-bit push. -/
def Cpu.push (c : Cpu) (w : Word) : Cpu :=
  { c with regs.esp := c.regs.esp - 4, mem := write32 c.mem (c.regs.esp - 4) w }

@[simp] theorem Cpu.push_regs (c : Cpu) (w : Word) :
    (c.push w).regs = { c.regs with esp := c.regs.esp - 4 } := rfl

@[simp] theorem Cpu.push_cr2 (c : Cpu) (w : Word) : (c.push w).cr2 = c.cr2 := rfl

/-- The word that a 32-bit pop reads. -/
def Cpu.top (c : Cpu) : Word := read32 c.mem c.regs.esp

/-- What a 32-bit pop does to the stack pointer. -/
def Cpu.drop (c : Cpu) : Cpu := { c with regs.esp := c.regs.esp + 4 }

/-- Writing `%ax`. -/
def setAx (eax : Word) (ax : BitVec 16) : Word := eax.extractLsb' 16 16 ++ ax

/-- `movw %ax,` into a segment register. -/
def Cpu.loadSegment (c : Cpu) (segment : Segment) : Option Cpu :=
  let selector := c.regs.eax.setWidth 16
  if loadable selector then
    match segment with
    | .ds => some { c with regs.ds := selector }
    | .es => some { c with regs.es := selector }
    | .fs => some { c with regs.fs := selector }
    | .gs => some { c with regs.gs := selector }
  else none

/-- `pusha`: the stack pointer is stored as it was before. -/
def Cpu.pusha (c : Cpu) : Cpu :=
  let r := c.regs
  (((((((c.push r.eax).push r.ecx).push r.edx).push r.ebx).push r.esp).push r.ebp).push
    r.esi).push r.edi

/-- Only the stack pointer changes. -/
theorem Cpu.pusha_regs (c : Cpu) : c.pusha.regs = { c.regs with esp := c.regs.esp - 32 } := by
  have hesp : c.regs.esp - 4 - 4 - 4 - 4 - 4 - 4 - 4 - 4 = c.regs.esp - 32 := by bv_omega
  simp only [Cpu.pusha, Cpu.push_regs, hesp]

theorem Cpu.pusha_cr2 (c : Cpu) : c.pusha.cr2 = c.cr2 := by simp only [Cpu.pusha, Cpu.push_cr2]

/-- `popa`: the stored stack pointer is skipped. -/
def Cpu.popa (c : Cpu) : Cpu :=
  let c := { c with regs.edi := c.top }.drop
  let c := { c with regs.esi := c.top }.drop
  let c := { c with regs.ebp := c.top }.drop
  let c := c.drop
  let c := { c with regs.ebx := c.top }.drop
  let c := { c with regs.edx := c.top }.drop
  let c := { c with regs.ecx := c.top }.drop
  { c with regs.eax := c.top }.drop

def Cpu.exec (c : Cpu) : Instr → Option Cpu
  | .cli => some { c with regs.eflags := c.regs.eflags &&& ~~~flagIF }
  | .sti => some { c with regs.eflags := c.regs.eflags ||| flagIF }
  | .cld => some { c with regs.eflags := c.regs.eflags &&& ~~~flagDF }
  | .pushl src => some (c.push (src.value c))
  | .poplEax => some { c with regs.eax := c.top }.drop
  | .pusha => some c.pusha
  | .popa => some c.popa
  | .movlCr2Eax => some { c with regs.eax := c.cr2 }
  | .movwDsAx => some { c with regs.eax := setAx c.regs.eax c.regs.ds }
  | .movwImmAx value => some { c with regs.eax := setAx c.regs.eax value }
  | .movwAx segment => c.loadSegment segment
  | .addlEsp value =>
    some { c with
      regs.esp := c.regs.esp + value
      regs.eflags := addFlags c.regs.eflags c.regs.esp value }

/-! ### Interrupts -/

/-- An entry of the interrupt descriptor table. -/
structure IdtEntry where
  offsetLow : BitVec 16
  selector : BitVec 16
  zero : Byte
  typeAttr : Byte
  offsetHigh : BitVec 16

/-- The address a gate leads to. -/
def IdtEntry.offset (gate : IdtEntry) : Word := gate.offsetHigh ++ gate.offsetLow

/-- Present, ring 0, and a 32-bit interrupt gate (14) or trap gate (15). -/
def IdtEntry.usable (gate : IdtEntry) : Bool :=
  gate.typeAttr.getLsbD 7 &&
    (gate.typeAttr.extractLsb' 0 5 = 14 ∨ gate.typeAttr.extractLsb' 0 5 = 15)

/-- What a gate does to the flags: an interrupt gate clears IF too. -/
def IdtEntry.enterFlags (gate : IdtEntry) (eflags : Word) : Word :=
  let eflags := eflags &&& ~~~(flagTF ||| flagNT ||| flagRF ||| flagVM)
  if gate.typeAttr.extractLsb' 0 5 = 14 then eflags &&& ~~~flagIF else eflags

/-- The processor takes an interrupt or an exception of ring 0 through a gate: EFLAGS, CS and
EIP are pushed, and the error code if there is one. -/
def Cpu.deliver (c : Cpu) (gate : IdtEntry) (errorCode : Option Word) : Option Cpu :=
  if gate.usable ∧ gate.selector = codeSelector then
    let c' := ((c.push c.regs.eflags).push (c.regs.cs.setWidth 32)).push c.regs.eip
    let c' := match errorCode with
      | none => c'
      | some e => c'.push e
    some { c' with
      regs.cs := gate.selector
      regs.eip := gate.offset
      regs.eflags := gate.enterFlags c'.regs.eflags }
  else none

/-- `iret` to code of ring 0. -/
def Cpu.iret (c : Cpu) : Option Cpu :=
  let eip := c.top
  let cs := c.drop.top.setWidth 16
  let eflags := c.drop.drop.top
  if c.regs.eflags &&& flagNT = 0 ∧ cs.extractLsb' 0 2 = 0 ∧ eflags &&& flagVM = 0 then
    let c := c.drop.drop.drop
    some { c with regs.eip := eip, regs.cs := cs, regs.eflags := eflags }
  else none

end MVK
