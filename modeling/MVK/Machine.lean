import MVK.Lib.SelfMap
import MVK.Lib.TransCache
import MVK.Word

/-!
# The machine: physical memory, the page walk, and the boot code

Physical memory is a family of frames of 1024 words; `cr3` names the frame of the
page directory.  The walk is the two-level lookup of the hardware, with
`CR4.PSE = 0` (no 4 MiB pages) and `CR0.WP = 1` (a supervisor store needs both
writable bits).  The accessed and dirty bits the hardware may set in an entry are
left out: nothing in the program reads them.

The kernel image is linked at `0xC0000000` and loaded at physical address 0, so an
object of the image is named by its page number in the image, which is also its
frame number.

## Main definitions

* `Machine`, `Machine.translate`, `Machine.walk` — the state and the page walk.
* `mmu` — the machine as an address translation.
* `Layout` — where the linker puts the paging objects.
* `start` — the boot code up to the jump to the higher half.
-/

namespace MVK

open SelfMap Translation

/-- Physical memory and the page-directory base register. -/
structure Machine where
  mem : Frame → Index → Word
  cr3 : Word

/-- A translation: the frame, and the access rights of the two entries together. -/
@[ext] structure PageTranslation where
  frame : Frame
  writable : Bool
  user : Bool
  deriving DecidableEq

/-- An entry is present when bit 0 is set; bits 31–12 are its frame. -/
def entryFormat : Format Frame Word where
  present e := e.getLsbD 0
  frame := frameOf

@[simp] theorem entryFormat_present (e : Word) : entryFormat.present e = e.getLsbD 0 := rfl

@[simp] theorem entryFormat_frame (e : Word) : entryFormat.frame e = frameOf e := rfl

/-- The rights and the frame that a directory entry and a table entry give. -/
def pathTranslation (path : Word × Word) : PageTranslation where
  frame := frameOf path.2
  writable := path.1.getLsbD 1 && path.2.getLsbD 1
  user := path.1.getLsbD 2 && path.2.getLsbD 2

/-- The hardware's two-level walk of a page. -/
def Machine.translate (m : Machine) (p : Page) : Option PageTranslation :=
  (lookup entryFormat m.mem (frameOf m.cr3) p.1 p.2).map pathTranslation

/-- The physical address the walk of a virtual address yields. -/
def Machine.walk (m : Machine) (v : Word) : Option Word :=
  (m.translate (pageOf v)).map fun t => (t.frame ++ offsetOf v : BitVec (20 + 12))

/-- The machine with the word at frame `f`, index `i` replaced. -/
def Machine.setWord (m : Machine) (f : Frame) (i : Index) (w : Word) : Machine :=
  { m with mem := setEntry m.mem f i w }

@[simp] theorem Machine.setWord_cr3 (m : Machine) (f : Frame) (i : Index) (w : Word) :
    (m.setWord f i w).cr3 = m.cr3 := rfl

@[simp] theorem Machine.setWord_mem (m : Machine) (f : Frame) (i : Index) (w : Word) :
    (m.setWord f i w).mem = setEntry m.mem f i w := rfl

/-- The machine as an address translation. -/
def mmu : Mmu Machine Word Page PageTranslation Word where
  page := pageOf
  walk := Machine.translate
  read m t va := m.mem t.frame (wordOf va)
  write m t va w := m.setWord t.frame (wordOf va) w
  writable t := t.writable

@[simp] theorem mmu_page (v : Word) : mmu.page v = pageOf v := rfl

@[simp] theorem mmu_walk (m : Machine) (p : Page) : mmu.walk m p = m.translate p := rfl

@[simp] theorem mmu_read (m : Machine) (t : PageTranslation) (v : Word) :
    mmu.read m t v = m.mem t.frame (wordOf v) := rfl

@[simp] theorem mmu_write (m : Machine) (t : PageTranslation) (v w : Word) :
    mmu.write m t v w = m.setWord t.frame (wordOf v) w := rfl

@[simp] theorem mmu_writable (t : PageTranslation) : mmu.writable t = t.writable := rfl

/-- Kernel code: programs of 32-bit loads and stores. -/
abbrev Code := Prog Word Word

/-! ### The kernel image -/

def kernelAddress : Word := 0xC0000000

/-- `KERNEL_TO_PHYS(addr)`. -/
def kernelToPhys (addr : Word) : Word := addr - kernelAddress

/-- `PHYS_TO_KERNEL(addr)`. -/
def physToKernel (addr : Word) : Word := addr + kernelAddress

/-- `CHECK_FLAG(flags, bit)`. -/
def checkFlag (flags : Word) (bit : ℕ) : Bool := flags &&& (1 : Word) <<< bit != 0

/-- The virtual address of page `k` of the kernel image. -/
def imageAddr (k : ℕ) : Word := BitVec.ofNat 32 (0xC0000000 + 4096 * k)

def kernelPageTablesSize : ℕ := 2

/-- `KERNEL_ADDRESS / (4096 * 1024)`. -/
def kernelPageDirectoryStart : ℕ := 0xC0000000 / (4096 * 1024)

def freePageTablesSize : ℕ := kernelPageDirectoryStart - 1

@[simp] theorem kernelPageDirectoryStart_eq : kernelPageDirectoryStart = 768 := rfl

@[simp] theorem freePageTablesSize_eq : freePageTablesSize = 767 := rfl

/-- The image pages of the page-aligned paging objects. -/
structure Placement where
  bootPageDirectory : ℕ
  bootPageTable1 : ℕ
  bootPageTable2 : ℕ
  pageDirectory : ℕ
  kernelPageTables : ℕ
  freePageTables : ℕ

/-- Each object with its size in pages. -/
def Placement.objects (p : Placement) : List (ℕ × ℕ) :=
  [(p.bootPageDirectory, 1), (p.bootPageTable1, 1), (p.bootPageTable2, 1),
    (p.pageDirectory, 1), (p.kernelPageTables, kernelPageTablesSize),
    (p.freePageTables, freePageTablesSize)]

/-- A placement by the linker: the objects do not overlap, and lie with the rest of
the image in the 8 MiB that the boot code maps. -/
structure Layout extends Placement where
  apart : toPlacement.objects.Pairwise fun a b => a.1 + a.2 ≤ b.1 ∨ b.1 + b.2 ≤ a.1
  inWindow : ∀ o ∈ toPlacement.objects, o.1 + o.2 ≤ 2048

/-- The frame of image page `k`. -/
def imageFrame (k : ℕ) : Frame := BitVec.ofNat 20 k

/-! ### The boot code -/

/-- Paging is off: an address is a physical address. -/
def writePhys (mem : Frame → Index → Word) (pa w : Word) : Frame → Index → Word :=
  setEntry mem (frameOf pa) (wordOf pa) w

/-- What the two filling loops of the boot code work on. -/
structure BootState where
  mem : Frame → Index → Word
  esi : Word
  edi : Word

/-- `1: movl %esi, %edx; orl $0x003, %edx; movl %edx, (%edi); …; loop 1b`, with the
count in `ecx`. -/
def fillTable : ℕ → BootState → BootState
  | 0, s => s
  | ecx + 1, s =>
    fillTable ecx
      { mem := writePhys s.mem s.edi (s.esi ||| 0x003)
        esi := s.esi + 4096
        edi := s.edi + 4 }

/-- `_start`, from power-on memory to paging enabled. -/
def start (L : Layout) (mem : Frame → Index → Word) : Machine :=
  let table1 := kernelToPhys (imageAddr L.bootPageTable1)
  let table2 := kernelToPhys (imageAddr L.bootPageTable2)
  let dir := kernelToPhys (imageAddr L.bootPageDirectory)
  let s := fillTable 1024 { mem := mem, esi := 0, edi := table1 }
  let s := fillTable 1024 { s with edi := table2 }
  -- slot 0 keeps the first 4 MiB where they are until the jump to the higher half
  let mem := writePhys s.mem (dir + 0 * 4) (table1 + 0x003)
  let mem := writePhys mem (dir + (768 + 0) * 4) (table1 + 0x003)
  let mem := writePhys mem (dir + (768 + 1) * 4) (table2 + 0x003)
  { mem := mem, cr3 := dir }

end MVK
