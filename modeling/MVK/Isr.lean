import Mathlib.Data.Vector.Basic
import MVK.Cpu

/-!
# Interrupt handlers

The stubs that the gates lead to, the frame they build for the C handlers, and the
handlers.  The stubs are run instruction by instruction.  The C code is run as C: what its
compiled form does to the machine besides is only what the calling convention allows, and
is a parameter.

The linker's addresses of the stubs are a parameter too, and so are the functions that get
registered for the interrupts.  A handler does not let other interrupts in, and the stack
does not run into the tables of the kernel.

## Main definitions

* `InterruptInfo`, `readInfo` — the frame as the handlers see it.
* `Symbol`, `listing` — the stubs and their text.
* `registerIrqHandler`, `irqHandler`, `picEoi` — the C code.
* `Image` — what is known of the linked kernel.
* `isrInstall`, `interrupt` — the gates, and an interrupt from entry to exit.
-/

namespace MVK

/-- `interrupt_info`.  `errCode` is also `irq_no`. -/
@[ext] structure InterruptInfo where
  ds : Word
  cr2 : Word
  edi : Word
  esi : Word
  ebp : Word
  useless : Word
  ebx : Word
  edx : Word
  ecx : Word
  eax : Word
  intNo : Word
  errCode : Word
  eip : Word
  cs : Word
  eflags : Word
  esp : Word
  ss : Word
  deriving DecidableEq

/-- `irq_no`. -/
def InterruptInfo.irqNo (info : InterruptInfo) : Word := info.errCode

/-- The bytes of the frame that are pushed on entry: all but `esp` and `ss`, which lie on
the stack of the interrupted code when the privilege does not change. -/
def pushedSize : ℕ := 60

/-- What a handler reads through its pointer. -/
def readInfo (mem : Memory) (info : Word) : InterruptInfo where
  ds := read32 mem info
  cr2 := read32 mem (info + 4)
  edi := read32 mem (info + 8)
  esi := read32 mem (info + 12)
  ebp := read32 mem (info + 16)
  useless := read32 mem (info + 20)
  ebx := read32 mem (info + 24)
  edx := read32 mem (info + 28)
  ecx := read32 mem (info + 32)
  eax := read32 mem (info + 36)
  intNo := read32 mem (info + 40)
  errCode := read32 mem (info + 44)
  eip := read32 mem (info + 48)
  cs := read32 mem (info + 52)
  eflags := read32 mem (info + 56)
  esp := read32 mem (info + 60)
  ss := read32 mem (info + 64)

/-! ### The text of the stubs -/

inductive CFunction
  | isrHandler
  | irqHandler

/-- The labels of the stubs. -/
inductive Symbol
  | isr (v : Fin 32)
  | irq (n : Fin 16)
  | isrCommonStub
  | irqCommonStub
  deriving DecidableEq

/-- A line of a stub. -/
inductive Op
  | instr (i : Instr)
  | call (f : CFunction)

/-- How a stub ends. -/
inductive Exit
  | jmp (target : Symbol)
  | iret

structure Block where
  body : List Op
  exit : Exit

/-- The data segment registers are loaded from `%ax`. -/
def loadSegments : List Instr := [.movwAx .ds, .movwAx .es, .movwAx .fs, .movwAx .gs]

/-- The common stubs up to the call. -/
def saveContext : List Instr :=
  [.pusha, .movlCr2Eax, .pushl .eax, .movwDsAx, .pushl .eax, .movwImmAx 0x10] ++ loadSegments ++
    [.pushl .esp]

/-- The common stubs after the call. -/
def restoreContext : List Instr :=
  [.poplEax, .poplEax] ++ loadSegments ++ [.poplEax, .popa, .addlEsp 8, .sti]

/-- The vectors whose stub leaves the error code to the processor. -/
def cpuPushesErrorCode : List ℕ := [8, 10, 11, 12, 13, 14]

/-- `isr0` to `isr31`. -/
def isrStub (v : Fin 32) : List Instr :=
  if v.val ∈ cpuPushesErrorCode then [.cli, .pushl (.imm (BitVec.ofNat 32 v))]
  else [.cli, .pushl (.imm 0), .pushl (.imm (BitVec.ofNat 32 v))]

/-- `irq0` to `irq15`. -/
def irqStub (n : Fin 16) : List Instr :=
  [.cli, .pushl (.imm (BitVec.ofNat 32 n)), .pushl (.imm (BitVec.ofNat 32 (32 + n)))]

/-- The text at each label. -/
def listing : Symbol → Block
  | .isr v => ⟨(isrStub v).map .instr, .jmp .isrCommonStub⟩
  | .irq n => ⟨(irqStub n).map .instr, .jmp .irqCommonStub⟩
  | .isrCommonStub =>
    ⟨saveContext.map .instr ++ [.call .isrHandler] ++ restoreContext.map .instr, .iret⟩
  | .irqCommonStub =>
    ⟨saveContext.map .instr ++ [.instr .cld, .call .irqHandler] ++ restoreContext.map .instr,
      .iret⟩

/-! ### The C handlers -/

inductive Event
  | call (handler : Word) (info : InterruptInfo)
  | outb (port : BitVec 16) (value : Byte)
  deriving DecidableEq

/-- What C code can see: memory, and `irq_handlers`, of which it knows the place. -/
structure Kernel where
  mem : Memory
  irqHandlers : Vector Word 16

/-- A function that is registered for an interrupt: what it does, given its pointer, and
what it sends to the ports.  It does not write to the frame its pointer leads to. -/
structure IrqFunc where
  run : Word → Kernel → Kernel × List (BitVec 16 × Byte)
  keeps_frame : ∀ info k i, i < pushedSize →
    (run info k).1.mem (info + BitVec.ofNat 32 i) = k.mem (info + BitVec.ofNat 32 i)

/-- `register_irq_handler`.  A write outside `irq_handlers` gives `none`. -/
def registerIrqHandler (irqHandlers : Vector Word 16) (irq : Byte) (handler : Word) :
    Option (Vector Word 16) :=
  if h : irq.toNat < 16 then some (irqHandlers.set irq.toNat handler h) else none

/-- `pic_eoi`. -/
def picEoi (irq : Byte) : List Event :=
  (if 8 ≤ irq.toNat then [.outb 0xA0 0x20] else []) ++ [.outb 0x20 0x20]

/-- `irq_handlers[info->irq_no](info)`, when it is set. -/
def callRegistered (funcs : Word → IrqFunc) (handler info : Word) (k : Kernel) :
    Kernel × List Event :=
  if handler ≠ 0 then
    let (k', sent) := (funcs handler).run info k
    (k', .call handler (readInfo k.mem info) :: sent.map fun out => .outb out.1 out.2)
  else (k, [])

/-- `irq_handler`.  A read outside `irq_handlers` gives `none`. -/
def irqHandler (funcs : Word → IrqFunc) (info : Word) (k : Kernel) :
    Option (Kernel × List Event) :=
  let irqNo := (readInfo k.mem info).irqNo
  if h : irqNo.toNat < 16 then
    let (k, called) := callRegistered funcs (k.irqHandlers[irqNo.toNat]) info k
    some (k, called ++ picEoi ((readInfo k.mem info).irqNo.setWidth 8))
  else none

/-! ### The linked kernel -/

structure State where
  cpu : Cpu
  irqHandlers : Vector Word 16
  events : List Event

/-- Where the argument of a function is: above the return address. -/
def Cpu.argument (c : Cpu) : Word := read32 c.mem (c.regs.esp + 4)

/-- What the compiled code of a handler may leave behind, given the processor on entry: the
registers that a callee need not keep, the flags but for NT, and any memory but the frame
it was given. -/
structure Leaves where
  eax : Cpu → Word
  ecx : Cpu → Word
  edx : Cpu → Word
  eflags : Cpu → Word
  mem : Cpu → Memory → Memory
  keeps_nt : ∀ c, eflags c &&& flagNT = c.regs.eflags &&& flagNT
  keeps_frame : ∀ c m i, i < pushedSize →
    mem c m (c.argument + BitVec.ofNat 32 i) = m (c.argument + BitVec.ofNat 32 i)

/-- What is known of the linked kernel: the address of each stub, the return address that
the call in `irq_common_stub` pushes, the functions by their addresses, and what compiled
code leaves. -/
structure Image where
  symbol : Symbol → Word
  symbol_inj : Function.Injective symbol
  afterCall : Word
  funcs : Word → IrqFunc
  leaves : Leaves

def allSymbols : List Symbol :=
  (List.finRange 32).map .isr ++ (List.finRange 16).map .irq ++ [.isrCommonStub, .irqCommonStub]

/-- The stub at an address. -/
def Image.symbolAt (image : Image) (a : Word) : Option Symbol :=
  allSymbols.find? fun sym => image.symbol sym = a

/-- Why a run stops: a fault, or `isr_handler` has reported an exception and does not return. -/
inductive CpuHalt
  | fault
  | aborted (info : InterruptInfo)

/-- `call irq_handler`: the return address is pushed, and popped by the `ret`. -/
def callIrqHandler (image : Image) (s : State) : Except CpuHalt State :=
  let c := s.cpu.push image.afterCall
  match irqHandler image.funcs c.argument { mem := c.mem, irqHandlers := s.irqHandlers } with
  | none => .error .fault
  | some (k, events) => .ok
    { cpu := { c with
        regs.eax := image.leaves.eax c
        regs.ecx := image.leaves.ecx c
        regs.edx := image.leaves.edx c
        regs.eflags := image.leaves.eflags c
        regs.esp := c.regs.esp + 4
        mem := image.leaves.mem c k.mem }
      irqHandlers := k.irqHandlers
      events := s.events ++ events }

/-- A step that only the processor takes. -/
def State.onCpu (s : State) : Option Cpu → Except CpuHalt State
  | none => .error .fault
  | some cpu => .ok { s with cpu }

def execOp (image : Image) (s : State) : Op → Except CpuHalt State
  | .instr i => s.onCpu (s.cpu.exec i)
  | .call .isrHandler =>
    let c := s.cpu.push image.afterCall
    .error (.aborted (readInfo c.mem c.argument))
  | .call .irqHandler => callIrqHandler image s

/-- The processor from a label on, with so many jumps to go. -/
def runFrom (image : Image) : ℕ → Symbol → State → Except CpuHalt State
  | 0, _, _ => .error .fault
  | jumps + 1, sym, s => do
    let s ← (listing sym).body.foldlM (execOp image) s
    match (listing sym).exit with
    | .jmp target => runFrom image jumps target s
    | .iret => s.onCpu s.cpu.iret

/-! ### Gates -/

abbrev Idt := Fin 256 → IdtEntry

/-- The entry that `set_idt_gate` writes. -/
def gateTo (handler : Word) (type : Byte) : IdtEntry where
  offsetLow := (handler &&& 0xFFFF).setWidth 16
  selector := codeSelector
  zero := 0
  typeAttr := type
  offsetHigh := (handler >>> 16).setWidth 16

/-- `set_idt_gate`. -/
def setIdtGate (idt : Idt) (i : Fin 256) (handler : Word) (type : Byte) : Idt :=
  Function.update idt i (gateTo handler type)

/-- `TRAP_GATE`. -/
def trapGate : Byte := 0x8F

/-- `INTERRUPT_GATE`. -/
def interruptGate : Byte := 0x8E

/-- The vector of an exception. -/
def excVector (v : Fin 32) : Fin 256 := ⟨v, by omega⟩

/-- `IRQ0` to `IRQ15`. -/
def irqVector (n : Fin 16) : Fin 256 := ⟨32 + n, by omega⟩

/-- The gates that `isr_install` sets. -/
def isrInstall (image : Image) (idt : Idt) : Idt :=
  let idt := (List.finRange 32).foldl
    (fun idt v => setIdtGate idt (excVector v) (image.symbol (.isr v)) trapGate) idt
  (List.finRange 16).foldl
    (fun idt n => setIdtGate idt (irqVector n) (image.symbol (.irq n)) interruptGate) idt

/-- An interrupt or an exception: through its gate to a stub, and to the end of that. -/
def interrupt (image : Image) (idt : Idt) (vector : Fin 256) (errorCode : Option Word)
    (s : State) : Except CpuHalt State := do
  let s ← s.onCpu (s.cpu.deliver (idt vector) errorCode)
  match image.symbolAt s.cpu.regs.eip with
  | none => .error .fault
  | some sym => runFrom image 2 sym s

end MVK
