import MVK.BoundaryTag
import MVK.HeapLock

/-!
# The C library's allocator

`malloc` and its kin keep regions of pages, cut into blocks.  The blocks of a region are
linked to their neighbours, and the free ones also into one of 32 lists by the size of
what they can hold.  Pages come from two hooks, which are parameters here: a source of
pages may fail, may not return, and may write to memory that was not handed out.

A loop that follows links takes how often it may go round, and gives `none` at one more.

## Main definitions

* `getexp` — the list of a size.
* `Allocator` — the memory, the heads of the lists, and the counts of whole regions.
* `insertTag`, `removeTag`, `meltLeft`, `absorbRight`, `splitTag`, `allocateNewTag` — the
  edits.
* `PageSource` — the hooks.
* `malloc`, `free`, `calloc`, `realloc` — **the four calls.**
-/

namespace MVK

def liballocMagic : Word := 0xc001c0de

def maxComplete : Word := 5

def maxExp : Word := 32

def minExp : Word := 8

/-- `MODE`, which is `MODE_BEST`. -/
def mode : Word := 0

def lPageSize : Word := 4096

def lPageCount : Word := 16

/-- The loop of `getexp`, with `n` shifts to go. -/
def getexpLoop (size : Word) : ℕ → Word → Word
  | 0, shift => shift
  | n + 1, shift => if (1 : Word) <<< shift.toNat > size then shift else getexpLoop size n (shift + 1)

/-- `getexp`. -/
def getexp (size : Word) : Word :=
  if size < (1 : Word) <<< minExp.toNat then -1
  else getexpLoop size (maxExp - minExp).toNat minExp - 1

/-- What `insert_tag`, `malloc` and `free` make of an exponent: it is no less than `MINEXP`. -/
def clampExp (index : Word) : Word := if index.slt minExp then minExp else index

/-- The state of the allocator, the memory it lies in, and the state of the page source. -/
structure Allocator (σ : Type*) where
  mem : Memory
  pages : σ
  flags : FlagState
  freePages : Word → Word
  completePages : Word → Word
  initialized : Word

/-- `liballoc_alloc` and `liballoc_free`.  `none` is a call that does not return. -/
structure PageSource (σ : Type*) where
  liballocAlloc : Word → σ → Memory → Option (Word × σ × Memory)
  liballocFree : Word → Word → σ → Memory → Option (σ × Memory)

namespace Allocator

variable {σ : Type*}

/-- `tag->f`. -/
def get (s : Allocator σ) (tag : Word) (f : TagField) : Word := field s.mem tag f

/-- `tag->f = v`. -/
def set (s : Allocator σ) (tag : Word) (f : TagField) (v : Word) : Allocator σ :=
  { s with mem := setField s.mem tag f v }

/-- `l_freePages[index] = tag`. -/
def setFreePages (s : Allocator σ) (index tag : Word) : Allocator σ :=
  { s with freePages := Function.update s.freePages index tag }

/-- `l_completePages[index] = n`. -/
def setCompletePages (s : Allocator σ) (index n : Word) : Allocator σ :=
  { s with completePages := Function.update s.completePages index n }

def lock (s : Allocator σ) : Allocator σ := { s with flags := (liballocLock s.flags).2 }

def unlock (s : Allocator σ) : Allocator σ := { s with flags := (liballocUnlock s.flags).2 }

/-! ### The edits -/

/-- `insert_tag`. -/
def insertTag (s : Allocator σ) (tag index : Word) : Allocator σ :=
  let realIndex :=
    if index.slt 0 then clampExp (getexp (s.get tag .realSize - tagSize)) else index
  let s := s.set tag .index realIndex
  let s :=
    if s.freePages realIndex ≠ 0 then
      let s := s.set (s.freePages realIndex) .prev tag
      s.set tag .next (s.freePages realIndex)
    else s
  s.setFreePages realIndex tag

/-- `remove_tag`. -/
def removeTag (s : Allocator σ) (tag : Word) : Allocator σ :=
  let s :=
    if s.freePages (s.get tag .index) = tag then
      s.setFreePages (s.get tag .index) (s.get tag .next)
    else s
  let s :=
    if s.get tag .prev ≠ 0 then s.set (s.get tag .prev) .next (s.get tag .next) else s
  let s :=
    if s.get tag .next ≠ 0 then s.set (s.get tag .next) .prev (s.get tag .prev) else s
  ((s.set tag .next 0).set tag .prev 0).set tag .index (-1)

/-- `melt_left`. -/
def meltLeft (s : Allocator σ) (tag : Word) : Word × Allocator σ :=
  let left := s.get tag .splitLeft
  let s := s.set left .realSize (s.get left .realSize + s.get tag .realSize)
  let s := s.set left .splitRight (s.get tag .splitRight)
  let s :=
    if s.get tag .splitRight ≠ 0 then s.set (s.get tag .splitRight) .splitLeft left else s
  (left, s)

/-- `absorb_right`. -/
def absorbRight (s : Allocator σ) (tag : Word) : Word × Allocator σ :=
  let right := s.get tag .splitRight
  let s := s.removeTag right
  let s := s.set tag .realSize (s.get tag .realSize + s.get right .realSize)
  let s := s.set tag .splitRight (s.get right .splitRight)
  let s :=
    if s.get right .splitRight ≠ 0 then s.set (s.get right .splitRight) .splitLeft tag else s
  (tag, s)

/-- `split_tag`. -/
def splitTag (s : Allocator σ) (tag : Word) : Word × Allocator σ :=
  let remainder := s.get tag .realSize - tagSize - s.get tag .size
  let newTag := tag + tagSize + s.get tag .size
  let s := s.set newTag .magic liballocMagic
  let s := s.set newTag .realSize remainder
  let s := s.set newTag .next 0
  let s := s.set newTag .prev 0
  let s := s.set newTag .splitLeft tag
  let s := s.set newTag .splitRight (s.get tag .splitRight)
  let s :=
    if s.get newTag .splitRight ≠ 0 then
      s.set (s.get newTag .splitRight) .splitLeft newTag
    else s
  let s := s.set tag .splitRight newTag
  let s := s.set tag .realSize (s.get tag .realSize - s.get newTag .realSize)
  (newTag, s.insertTag newTag (-1))

/-- The pages that `allocate_new_tag` asks for. -/
def pagesFor (size : Word) : Word :=
  let usage := size + tagSize
  let pages := usage / lPageSize
  let pages := if usage % lPageSize ≠ 0 then pages + 1 else pages
  if pages < lPageCount then lPageCount else pages

/-- `allocate_new_tag`. -/
def allocateNewTag (s : Allocator σ) (src : PageSource σ) (size : Word) :
    Option (Word × Allocator σ) :=
  match src.liballocAlloc (pagesFor size) s.pages s.mem with
  | none => none
  | some (tag, pages, mem) =>
    let s := { s with pages, mem }
    if tag = 0 then some (0, s)
    else
      let s := s.set tag .magic liballocMagic
      let s := s.set tag .size size
      let s := s.set tag .realSize (pagesFor size * lPageSize)
      let s := s.set tag .index (-1)
      let s := s.set tag .next 0
      let s := s.set tag .prev 0
      let s := s.set tag .splitLeft 0
      let s := s.set tag .splitRight 0
      some (tag, s)

/-! ### The calls -/

/-- The first call of `malloc` empties the lists. -/
def initLists (s : Allocator σ) : Allocator σ :=
  if s.initialized = 0 then
    { s with
      freePages := fun i => if i < maxExp then 0 else s.freePages i
      completePages := fun i => if i < maxExp then 0 else s.completePages i
      initialized := 1 }
  else s

/-- The search of `malloc` along a list. -/
def findTag (s : Allocator σ) (size : Word) : ℕ → Word → Option Word
  | 0, _ => none
  | fuel + 1, tag =>
    if tag = 0 then some 0
    else if s.get tag .realSize - tagSize ≥ size + tagSize then some tag
    else findTag s size fuel (s.get tag .next)

/-- The end of `malloc`, when it has a tag. -/
def useTag (s : Allocator σ) (tag size : Word) : Word × Allocator σ :=
  let s := s.set tag .size size
  let remainder := s.get tag .realSize - size - tagSize * 2
  let s :=
    if (0 : Word).slt remainder ∧ ¬ (getexp remainder).slt 0 then (s.splitTag tag).2 else s
  (tag + tagSize, s.unlock)

/-- `malloc`. -/
def malloc (s : Allocator σ) (src : PageSource σ) (fuel : ℕ) (size : Word) :
    Option (Word × Allocator σ) :=
  let s := s.lock.initLists
  let index := clampExp (getexp size + mode)
  match s.findTag size fuel (s.freePages index) with
  | none => none
  | some tag =>
    if tag = 0 then
      match s.allocateNewTag src size with
      | none => none
      | some (tag, s) => if tag = 0 then some (0, s.unlock) else some (s.useTag tag size)
    else
      let s := s.removeTag tag
      let s :=
        if s.get tag .splitLeft = 0 ∧ s.get tag .splitRight = 0 then
          s.setCompletePages index (s.completePages index - 1)
        else s
      some (s.useTag tag size)

/-- The first loop of `free`. -/
def meltLeftAll : ℕ → Word → Allocator σ → Option (Word × Allocator σ)
  | 0, _, _ => none
  | fuel + 1, tag, s =>
    if s.get tag .splitLeft ≠ 0 ∧ ¬ (s.get (s.get tag .splitLeft) .index).slt 0 then
      let melted := s.meltLeft tag
      meltLeftAll fuel melted.1 (melted.2.removeTag melted.1)
    else some (tag, s)

/-- The second loop of `free`. -/
def absorbRightAll : ℕ → Word → Allocator σ → Option (Word × Allocator σ)
  | 0, _, _ => none
  | fuel + 1, tag, s =>
    if s.get tag .splitRight ≠ 0 ∧ ¬ (s.get (s.get tag .splitRight) .index).slt 0 then
      let absorbed := s.absorbRight tag
      absorbRightAll fuel absorbed.1 absorbed.2
    else some (tag, s)

/-- The pages that `free` gives back with a region. -/
def pagesOf (realSize : Word) : Word :=
  let pages := realSize / lPageSize
  let pages := if realSize % lPageSize ≠ 0 then pages + 1 else pages
  if pages < lPageCount then lPageCount else pages

/-- The end of `free`, with a tag that has no free neighbour. -/
def returnTag (s : Allocator σ) (src : PageSource σ) (tag : Word) : Option (Allocator σ) :=
  let index := clampExp (getexp (s.get tag .realSize - tagSize))
  if s.get tag .splitLeft = 0 ∧ s.get tag .splitRight = 0 then
    if s.completePages index = maxComplete then
      match src.liballocFree tag (pagesOf (s.get tag .realSize)) s.pages s.mem with
      | none => none
      | some (pages, mem) => some { s with pages, mem }.unlock
    else
      let s := s.setCompletePages index (s.completePages index + 1)
      some (s.insertTag tag index).unlock
  else some (s.insertTag tag index).unlock

/-- `free`. -/
def free (s : Allocator σ) (src : PageSource σ) (fuel : ℕ) (ptr : Word) : Option (Allocator σ) :=
  if ptr = 0 then some s
  else
    let s := s.lock
    let tag := ptr - tagSize
    if s.get tag .magic ≠ liballocMagic then some s.unlock
    else
      match meltLeftAll fuel tag s with
      | none => none
      | some (tag, s) =>
        match absorbRightAll fuel tag s with
        | none => none
        | some (tag, s) => s.returnTag src tag

/-- The loop of `liballoc_memset`, with `n` bytes to go. -/
def memsetLoop (c : Byte) : ℕ → Word → Memory → Memory
  | 0, _, mem => mem
  | n + 1, s, mem => memsetLoop c n (s + 1) (Function.update mem s c)

/-- `liballoc_memset`. -/
def liballocMemset (s : Word) (c : Byte) (n : Word) (mem : Memory) : Word × Memory :=
  (s, memsetLoop c n.toNat s mem)

/-- The loops of `liballoc_memcpy`: by words while there are four bytes to go, then by
bytes. -/
def memcpyWords : ℕ → Word → Word → Memory → Memory
  | n + 4, dest, src, mem => memcpyWords n (dest + 4) (src + 4) (write32 mem dest (read32 mem src))
  | n, dest, src, mem => (memcpyLoop n dest src mem).2

/-- `liballoc_memcpy`. -/
def liballocMemcpy (s1 s2 n : Word) (mem : Memory) : Word × Memory :=
  (s1, memcpyWords n.toNat s1 s2 mem)

/-- `n` bytes are written at `NULL`.  Page 0 is never mapped, so the first of them faults. -/
def WritesNull (ptr n : Word) : Prop := ptr = 0 ∧ n ≠ 0

instance (ptr n : Word) : Decidable (WritesNull ptr n) := inferInstanceAs (Decidable (_ ∧ _))

/-- `calloc`.  The product is that of 32-bit words. -/
def calloc (s : Allocator σ) (src : PageSource σ) (fuel : ℕ) (nobj size : Word) :
    Option (Word × Allocator σ) :=
  let realSize := nobj * size
  match s.malloc src fuel realSize with
  | none => none
  | some (p, s) =>
    -- there is no test for `NULL`: without memory the call ends in `liballoc_memset`
    if WritesNull p realSize then none
    else some (p, { s with mem := (liballocMemset p 0 realSize s.mem).2 })

/-- `realloc`. -/
def realloc (s : Allocator σ) (src : PageSource σ) (fuel : ℕ) (p size : Word) :
    Option (Word × Allocator σ) :=
  if size = 0 then
    match s.free src fuel p with
    | none => none
    | some s => some (0, s)
  else if p = 0 then s.malloc src fuel size
  else
    let realSize := s.lock.get (p - tagSize) .size
    let s := s.lock.unlock
    let realSize := if realSize > size then size else realSize
    match s.malloc src fuel size with
    | none => none
    | some (ptr, s) =>
      -- nor is there one here: without memory the call ends in `liballoc_memcpy`
      if WritesNull ptr realSize then none
      else
        match { s with mem := (liballocMemcpy ptr p realSize s.mem).2 }.free src fuel p with
        | none => none
        | some s => some (ptr, s)

end Allocator

end MVK
