import MVK.Machine

/-!
# The paging code

The functions of the kernel's page-table code and of its page allocator, as the
source computes them.  Functions that touch the tables are programs of loads and
stores at the virtual addresses the source uses; the allocator's bitmap is a C
array of its own, `pageBitmap`.

## Main definitions

* `pagingInitialize` — building the kernel's tables under the boot directory.
* `getPhysicalAddress`, `mapPage`, `unmapPage` — the table edits.
* `allocPage`, `freePage`, `allocPages`, `freePages` — the page allocator.
-/

namespace MVK

open Translation Translation.Prog

/-- `PAGE_BITMAP_SIZE`. -/
def pageBitmapSize : ℕ := freePageTablesSize * 1024 / 32

@[simp] theorem pageBitmapSize_eq : pageBitmapSize = 24544 := rfl

/-- `NULL`. -/
def null : Word := 0

/-- Zero `words` words from `ptr` on: `memset(ptr, 0, 4 * words)`. -/
def memsetZero (ptr : Word) (words : ℕ) : Code Unit :=
  loop (fun k _ => write (ptr + 4 * BitVec.ofNat 32 k) 0) words ()

/-- The inner loop of `paging_initialize`: fill one kernel page table, with
`current_address` as the accumulator. -/
def fillKernelTable (table : Word) (current_address : Word) : Code Word :=
  loop (fun j current_address => do
    write (table + 4 * BitVec.ofNat 32 j)
      (current_address * pageSize ||| pageFlagPresent ||| pageFlagWritable)
    return current_address + 1) 1024 current_address

/-- `paging_initialize` up to `load_page_directory`. -/
def initializeTables (L : Layout) : Code Unit := do
  let page_directory := imageAddr L.pageDirectory
  memsetZero page_directory 1024
  let _ ← loop (fun i current_address => do
    let table := imageAddr L.kernelPageTables + pageSize * BitVec.ofNat 32 i
    let current_address ← fillKernelTable table current_address
    write (page_directory + 4 * BitVec.ofNat 32 (kernelPageDirectoryStart + i))
      (kernelToPhys table ||| pageFlagPresent ||| pageFlagWritable)
    return current_address) kernelPageTablesSize 0
  memsetZero (imageAddr L.freePageTables) (freePageTablesSize * 1024)
  -- the directory is also the table of its last slot
  write (page_directory + 4 * 1023)
    (kernelToPhys page_directory ||| pageFlagPresent ||| pageFlagWritable)

/-- The machine and the allocator's bitmap. -/
structure Heap where
  machine : Machine
  pageBitmap : ℕ → Word

/-- `paging_initialize`. -/
def pagingInitialize (L : Layout) (m : Machine) : Except Stop Heap := do
  let (_, m) ← (initializeTables L).run mmu m
  return { machine := { m with cr3 := kernelToPhys (imageAddr L.pageDirectory) }
           pageBitmap := fun _ => 0 }

/-- `get_physical_address`. -/
def getPhysicalAddress (vaddr : Word) : Code Word := do
  let pd_index := vaddr >>> 22
  let pt_index := vaddr >>> 12 &&& 0x03FF#32
  let pde ← read (pdEntryAddr pd_index)
  if pde &&& pageFlagPresent = 0 then return null else
    let pte ← read (ptEntryAddr pd_index pt_index)
    if pte &&& pageFlagPresent = 0 then return null else
      let pte ← read (ptEntryAddr pd_index pt_index)
      return (pte &&& ~~~0xFFF#32) + (vaddr &&& 0xFFF#32)

/-- The directory entry `map_page` installs for slot `pd_index`. -/
def tableEntry (page_tables pd_index : Word) : Word :=
  kernelToPhys (page_tables + pageSize * pd_index) |||
    pageFlagUser ||| pageFlagWritable ||| pageFlagPresent

/-- `map_page`. -/
def mapPage (paddr vaddr page_tables page_tables_length : Word) (flags : BitVec 16) :
    Code Unit := do
  let paddr := paddr &&& ~~~0xFFF#32
  let vaddr := vaddr &&& ~~~0xFFF#32
  let pd_index := vaddr >>> 22
  let pt_index := vaddr >>> 12 &&& 0x03FF#32
  let pde ← read (pdEntryAddr pd_index)
  if pde &&& pageFlagPresent = 0 then
    -- the caller has tables for the slots below `page_tables_length` only
    if pd_index ≥ page_tables_length then
      Prog.abort "map_page: Can't allocate Page Table!"
    else
      write (pdEntryAddr pd_index) (tableEntry page_tables pd_index)
  -- the directory entry is open to the user; whether the page is, `flags` says
  write (ptEntryAddr pd_index pt_index)
    (paddr ||| (flags.setWidth 32 &&& 0xFFF#32) ||| pageFlagPresent)
  invalidate vaddr

/-- `unmap_page`. -/
def unmapPage (vaddr : Word) : Code Unit := do
  let vaddr := vaddr &&& ~~~0xFFF#32
  let pd_index := vaddr >>> 22
  let pt_index := vaddr >>> 12 &&& 0x03FF#32
  let pde ← read (pdEntryAddr pd_index)
  if pde &&& pageFlagPresent = 0 then return () else
    let pte ← read (ptEntryAddr pd_index pt_index)
    if pte &&& pageFlagPresent = 0 then return () else
      -- the entry keeps its frame and its other flags
      let pte ← read (ptEntryAddr pd_index pt_index)
      write (ptEntryAddr pd_index pt_index) (pte &&& ~~~pageFlagPresent)
      invalidate vaddr

/-! ### The page allocator -/

/-- The globals `mmap_free_memory` and `mmap_free_memory_length`. -/
structure FreeRegion where
  mmapFreeMemory : Word
  mmapFreeMemoryLength : BitVec 64

/-- The inner loop of `alloc_page`: the first clear bit from `bit_index` down.  Bit 0
is never looked at: the loop runs `while (bit_index > 0)`. -/
def scanWord (word : Word) : ℕ → Option ℕ
  | 0 => none
  | bit_index + 1 =>
    if word >>> (bit_index + 1) &&& 0b1 = 0 then some (bit_index + 1) else scanWord word bit_index

/-- The outer loop of `alloc_page`, over the `n` words from `bitmap_index` on. -/
def scanBitmap (page_bitmap : ℕ → Word) : ℕ → ℕ → Option (ℕ × ℕ)
  | 0, _ => none
  | n + 1, bitmap_index =>
    if page_bitmap bitmap_index ≠ 0xFFFFFFFF then
      match scanWord (page_bitmap bitmap_index) 31 with
      | some bit_index => some (bitmap_index, bit_index)
      | none => scanBitmap page_bitmap n (bitmap_index + 1)
    else scanBitmap page_bitmap n (bitmap_index + 1)

/-- `map_page` with the arguments every caller passes for the tables. -/
def mapFreePage (L : Layout) (paddr vaddr : Word) (flags : BitVec 16) : Code Unit :=
  mapPage paddr vaddr (imageAddr L.freePageTables) (BitVec.ofNat 32 freePageTablesSize) flags

/-- `alloc_page`. -/
def allocPage (L : Layout) (r : FreeRegion) (flags : BitVec 16) (h : Heap) :
    Except Stop (Word × Heap) :=
  match scanBitmap h.pageBitmap pageBitmapSize 0 with
  | none => .ok (null, h)
  | some (bitmap_index, bit_index) =>
    let page_index := BitVec.ofNat 32 bitmap_index * 32 + (31 - BitVec.ofNat 32 bit_index)
    let page_offset := page_index * pageSize
    -- the first free page lies past the region: the call does not return
    if page_offset.setWidth 64 ≥ r.mmapFreeMemoryLength then .error (.abort "OUT OF MEMORY")
    else do
      let page_physical_address := r.mmapFreeMemory + page_offset
      let page_virtual_address := page_offset + pageSize
      let (_, m) ←
        (mapFreePage L page_physical_address page_virtual_address flags).run mmu h.machine
      -- the bit is set once the page is mapped
      let word := h.pageBitmap bitmap_index ||| (1 : Word) <<< bit_index
      .ok (page_virtual_address,
        { machine := m, pageBitmap := Function.update h.pageBitmap bitmap_index word })

/-- `free_page`.  The mask is 64 bits wide and the word 32. -/
def freePage (page_addr : Word) (h : Heap) : Except Stop Heap := do
  -- `alloc_page` returned the offset plus one page; here the address itself is the offset
  let page_offset := page_addr
  let page_index := page_offset / pageSize
  let bitmap_index := (page_index &&& ~~~63) / 64
  let bit_index : Word := 63 - (page_index &&& 63)
  let (_, m) ← (unmapPage page_addr).run mmu h.machine
  let word := h.pageBitmap bitmap_index.toNat
  let word := (word.setWidth 64 &&& ~~~((1 : BitVec 64) <<< bit_index.toNat)).setWidth 32
  return { machine := m, pageBitmap := Function.update h.pageBitmap bitmap_index.toNat word }

/-- The loop of `alloc_pages`: `n` more pages, keeping the first pointer. -/
def allocPagesLoop (L : Layout) (r : FreeRegion) (flags : BitVec 16) :
    ℕ → Word → Heap → Except Stop (Word × Heap)
  | 0, ptr, h => .ok (ptr, h)
  | n + 1, ptr, h => do
    let (page_ptr, h) ← allocPage L r flags h
    allocPagesLoop L r flags n (if ptr = null then page_ptr else ptr) h

/-- `alloc_pages`. -/
def allocPages (L : Layout) (r : FreeRegion) (pages : Word) (flags : BitVec 16) (h : Heap) :
    Except Stop (Word × Heap) :=
  allocPagesLoop L r flags pages.toNat null h

/-- The loop of `free_pages`: the `n` pages from index `i` on. -/
def freePagesLoop (pages_addr : Word) : ℕ → ℕ → Heap → Except Stop Heap
  | 0, _, h => .ok h
  | n + 1, i, h => do
    let h ← freePage (pages_addr + BitVec.ofNat 32 i * pageSize) h
    freePagesLoop pages_addr n (i + 1) h

/-- `free_pages`. -/
def freePages (pages_addr pages : Word) (h : Heap) : Except Stop Heap :=
  freePagesLoop pages_addr pages.toNat 0 h

end MVK
