import MVK.Cpu
import Mathlib.Tactic.IntervalCases

/-!
# The descriptor table

Everything else here takes it that an address in the code is the linear address, and that a
segment register takes the null selector, kernel code and kernel data and nothing else.  Both
are the doing of `gdt_initialize` and `set_gdt`: the processor reads their table as eight bytes
for each descriptor, in a layout of its own.

The limit that `set_gdt` gets is the size of the table, one more than the offset of its last
byte; the segment of the TSS is one byte too long in the same way.

## Main definitions

* `GdtEntryBits`, `GdtEntryBits.packed` — an entry, and its eight bytes.
* `gdtInitialize`, `setGdt` — the table, and how it is loaded.
* `Descriptor`, `Gdtr.load` — how the processor reads the table.
* `SegmentRegister.linear` — from an address in a segment to the linear address.

## Main results

* `ofBits_packed` — the processor reads what the fields of the entry say.
* `descriptor_of_limit` — the byte that the limit has too many lets no selector in.
* `segments_stay_flat` — **addresses are linear addresses**, after any loads.
* `loadSegment_iff` — **the processor takes the selectors that the stubs load.**
-/

namespace MVK

/-! ### The table -/

/-- `gdt_entry_bits`. -/
structure GdtEntryBits where
  limitLow : BitVec 16
  baseLow : BitVec 24
  accessed : BitVec 1
  readWrite : BitVec 1
  conformingExpandDown : BitVec 1
  code : BitVec 1
  tss : BitVec 1
  dpl : BitVec 2
  present : BitVec 1
  limitHigh : BitVec 4
  available : BitVec 1
  always0 : BitVec 1
  big : BitVec 1
  gran : BitVec 1
  baseHigh : BitVec 8
  deriving DecidableEq

/-- The eight bytes of an entry: the bit fields follow each other from the lowest bit on. -/
def GdtEntryBits.packed (e : GdtEntryBits) : BitVec 64 :=
  e.baseHigh ++ e.gran ++ e.big ++ e.always0 ++ e.available ++ e.limitHigh ++ e.present ++ e.dpl ++
    e.tss ++ e.code ++ e.conformingExpandDown ++ e.readWrite ++ e.accessed ++ e.baseLow ++
    e.limitLow

/-- An entry after `memset`. -/
def zeroEntry : GdtEntryBits := ⟨0, 0, 0, 0, 0, 0, 0, 0, 0, 0, 0, 0, 0, 0, 0⟩

/-- `sizeof(tss_entry)`: 25 words and two half words. -/
def tssSize : Word := 104

/-- `gdt_initialize`, but for its texts.  `tss` is the address of `TSS`. -/
def gdtInitialize (tss : Word) : Vector GdtEntryBits 4 :=
  let gdt := Vector.replicate 4 zeroEntry
  -- `CODE_GDT_R0`
  let gdt := gdt.set 1 { gdt[1] with
    limitHigh := 0xF
    limitLow := 0xFFFF
    baseHigh := 0x00
    baseLow := 0x0000
    accessed := 0
    readWrite := 1
    conformingExpandDown := 0
    code := 1
    tss := 1
    dpl := 0
    present := 1
    available := 1
    always0 := 0
    big := 1
    gran := 1 }
  -- `DATA_GDT_R0`
  let gdt := gdt.set 2 gdt[1]
  let gdt := gdt.set 2 { gdt[2] with code := 0 }
  -- `TSS_GDT_R3`
  gdt.set 3 { gdt[3] with
    limitHigh := ((tssSize &&& 0xF0000) >>> 16).setWidth 4
    limitLow := (tssSize &&& 0xFFFF).setWidth 16
    baseHigh := ((tss &&& 0xFF000000) >>> 24).setWidth 8
    baseLow := (tss &&& 0xFFFFFF).setWidth 24
    accessed := 1
    readWrite := 0
    conformingExpandDown := 0
    code := 1
    tss := 0
    dpl := 3
    present := 1
    available := 0
    always0 := 0
    big := 0
    gran := 0 }

/-- `sizeof(GDT)`. -/
def gdtSize : Word := 32

/-! ### The processor's view -/

/-- A descriptor as the processor reads it. -/
structure Descriptor where
  limit : BitVec 20
  base : Word
  type : BitVec 4
  /-- Code or data, not a system descriptor. -/
  s : Bool
  dpl : BitVec 2
  p : Bool
  db : Bool
  g : Bool
  deriving DecidableEq

def Descriptor.ofBits (d : BitVec 64) : Descriptor where
  limit := d.extractLsb' 48 4 ++ d.extractLsb' 0 16
  base := d.extractLsb' 56 8 ++ d.extractLsb' 16 24
  type := d.extractLsb' 40 4
  s := d.getLsbD 44
  dpl := d.extractLsb' 45 2
  p := d.getLsbD 47
  db := d.getLsbD 54
  g := d.getLsbD 55

namespace Descriptor

/-- Bit 3 of the type tells code from data. -/
def isCode (d : Descriptor) : Bool := d.s && d.type.getLsbD 3

def isData (d : Descriptor) : Bool := d.s && !d.type.getLsbD 3

/-- Conforming code, or data that grows downwards. -/
def bit2 (d : Descriptor) : Bool := d.type.getLsbD 2

/-- Code that can be read, or data that can be written. -/
def bit1 (d : Descriptor) : Bool := d.type.getLsbD 1

/-- The limit in bytes. -/
def byteLimit (d : Descriptor) : Word :=
  if d.g then d.limit ++ (0xFFF : BitVec 12) else d.limit.setWidth 32

end Descriptor

/-- `gdtr`, with the table that it points to. -/
structure Gdtr where
  limit : BitVec 16
  table : Vector GdtEntryBits 4

/-- The descriptor of a selector, when the whole of it lies within the limit.  No local table is
loaded.  What would be read behind the array is not known, and gives `none` too. -/
def Gdtr.descriptor (gdtr : Gdtr) (selector : BitVec 16) : Option Descriptor :=
  let index := (selector >>> 3).toNat
  if selector.getLsbD 2 = false ∧ index * 8 + 7 ≤ gdtr.limit.toNat then
    gdtr.table[index]?.map fun e => .ofBits e.packed
  else none

/-- A segment register with the descriptor that it keeps; a null selector has none. -/
structure SegmentRegister where
  selector : BitVec 16
  descriptor : Option Descriptor

/-- The privilege level that a selector asks for. -/
def rpl (selector : BitVec 16) : BitVec 2 := selector.extractLsb' 0 2

def isNull (selector : BitVec 16) : Bool := selector.ult 4

/-- Whether ring 0 may load the descriptor into DS, ES, FS or GS: data, or code that can be read;
and the selector may not ask for less privilege than the segment has, unless it is conforming. -/
def Descriptor.dataLoadable (d : Descriptor) (selector : BitVec 16) : Bool :=
  (d.isData || d.isCode && d.bit1) && (d.isCode && d.bit2 || (rpl selector).ule d.dpl) && d.p

/-- `mov` into DS, ES, FS or GS in ring 0. -/
def Gdtr.loadData (gdtr : Gdtr) (selector : BitVec 16) : Option SegmentRegister :=
  if isNull selector then some ⟨selector, none⟩ else do
    let d ← gdtr.descriptor selector
    if d.dataLoadable selector then some ⟨selector, some d⟩ else none

/-- `mov` into SS in ring 0: data that can be written, of ring 0. -/
def Gdtr.loadStack (gdtr : Gdtr) (selector : BitVec 16) : Option SegmentRegister :=
  if isNull selector then none else do
    let d ← gdtr.descriptor selector
    if rpl selector = 0 ∧ d.isData ∧ d.bit1 ∧ d.dpl = 0 ∧ d.p then some ⟨selector, some d⟩
    else none

/-- A far jump in ring 0, to a code segment. -/
def Gdtr.loadCode (gdtr : Gdtr) (selector : BitVec 16) : Option SegmentRegister :=
  if isNull selector then none else do
    let d ← gdtr.descriptor selector
    if d.isCode ∧ d.dpl = 0 ∧ (d.bit2 ∨ rpl selector = 0) ∧ d.p then some ⟨selector, some d⟩
    else none

inductive Access
  | fetch
  | read
  | write
  deriving DecidableEq

/-- What the type of a segment allows. -/
def Descriptor.allows (d : Descriptor) : Access → Bool
  | .fetch => d.isCode
  | .read => d.isData || d.isCode && d.bit1
  | .write => d.isData && d.bit1

/-- Whether `size` bytes from `offset` on lie in the segment. -/
def Descriptor.contains (d : Descriptor) (offset : Word) (size : ℕ) : Prop :=
  if d.isData ∧ d.bit2 then
    d.byteLimit < offset ∧ offset.toNat + size ≤ if d.db then 2 ^ 32 else 2 ^ 16
  else offset.toNat + size ≤ d.byteLimit.toNat + 1

instance (d : Descriptor) (offset : Word) (size : ℕ) : Decidable (d.contains offset size) := by
  unfold Descriptor.contains
  infer_instance

/-- The linear address of an access of `size` bytes, if the processor does not refuse it. -/
def SegmentRegister.linear (r : SegmentRegister) (access : Access) (offset : Word) (size : ℕ) :
    Option Word := do
  let d ← r.descriptor
  if d.allows access ∧ d.contains offset size then some (d.base + offset) else none

deriving instance DecidableEq for Segment

inductive SegmentName
  | cs
  | ss
  | data (segment : Segment)
  deriving DecidableEq

/-- A load of a segment register in ring 0. -/
def Gdtr.load (gdtr : Gdtr) : SegmentName → BitVec 16 → Option SegmentRegister
  | .cs => gdtr.loadCode
  | .ss => gdtr.loadStack
  | .data _ => gdtr.loadData

abbrev Segments := SegmentName → SegmentRegister

/-- Loads, one after the other. -/
def Gdtr.loads (gdtr : Gdtr) (loads : List (SegmentName × BitVec 16)) (segments : Segments) :
    Option Segments :=
  loads.foldlM (fun segments load =>
    (gdtr.load load.1 load.2).map (Function.update segments load.1)) segments

/-- `set_gdt`: the size goes into the 16 bits of the limit, and all segment registers are loaded
from the new table. -/
def setGdt (gdt : Vector GdtEntryBits 4) (size : Word) (segments : Segments) :
    Option (Gdtr × Segments) := do
  let gdtr : Gdtr := { limit := size.setWidth 16, table := gdt }
  let segments ← gdtr.loads [(.cs, codeSelector), (.data .ds, dataSelector),
    (.data .es, dataSelector), (.data .fs, dataSelector), (.data .gs, dataSelector),
    (.ss, dataSelector)] segments
  return (gdtr, segments)

/-! ### What the entries say -/

/-- The processor reads what the fields say. -/
theorem ofBits_packed (e : GdtEntryBits) : Descriptor.ofBits e.packed =
    { limit := e.limitHigh ++ e.limitLow
      base := e.baseHigh ++ e.baseLow
      type := e.code ++ e.conformingExpandDown ++ e.readWrite ++ e.accessed
      s := e.tss.getLsbD 0
      dpl := e.dpl
      p := e.present.getLsbD 0
      db := e.big.getLsbD 0
      g := e.gran.getLsbD 0 } := by
  have hlimitLow : e.packed.extractLsb' 0 16 = e.limitLow := BitVec.extractLsb'_append_eq_right
  have hbaseLow : e.packed.extractLsb' 16 24 = e.baseLow := by
    rw [GdtEntryBits.packed, BitVec.extractLsb'_append_eq_of_le (by decide)]
    exact BitVec.extractLsb'_append_eq_right
  have htype : e.packed.extractLsb' 40 4 =
      e.code ++ e.conformingExpandDown ++ e.readWrite ++ e.accessed := by
    ext i hi
    rw [BitVec.getElem_extractLsb']
    rw [← BitVec.getLsbD_eq_getElem]
    interval_cases i <;> simp only [GdtEntryBits.packed, BitVec.getLsbD_append] <;> rfl
  have hs : e.packed.getLsbD 44 = e.tss.getLsbD 0 := by
    simp only [GdtEntryBits.packed, BitVec.getLsbD_append]
    rfl
  have hdpl : e.packed.extractLsb' 45 2 = e.dpl := by
    rw [GdtEntryBits.packed]
    iterate 7 rw [BitVec.extractLsb'_append_eq_of_le (by decide)]
    exact BitVec.extractLsb'_append_eq_right
  have hp : e.packed.getLsbD 47 = e.present.getLsbD 0 := by
    simp only [GdtEntryBits.packed, BitVec.getLsbD_append]
    rfl
  have hlimitHigh : e.packed.extractLsb' 48 4 = e.limitHigh := by
    rw [GdtEntryBits.packed]
    iterate 9 rw [BitVec.extractLsb'_append_eq_of_le (by decide)]
    exact BitVec.extractLsb'_append_eq_right
  have hdb : e.packed.getLsbD 54 = e.big.getLsbD 0 := by
    simp only [GdtEntryBits.packed, BitVec.getLsbD_append]
    rfl
  have hg : e.packed.getLsbD 55 = e.gran.getLsbD 0 := by
    simp only [GdtEntryBits.packed, BitVec.getLsbD_append]
    rfl
  have hbaseHigh : e.packed.extractLsb' 56 8 = e.baseHigh := by
    rw [GdtEntryBits.packed]
    iterate 13 rw [BitVec.extractLsb'_append_eq_of_le (by decide)]
    exact BitVec.extractLsb'_append_eq_left
  rw [Descriptor.ofBits, hlimitLow, hbaseLow, htype, hs, hdpl, hp, hlimitHigh, hdb, hg, hbaseHigh]

/-! ### The table that is read -/

/-- `GDT` and its size, as `set_gdt` gets them. -/
def kernelGdtr (tss : Word) : Gdtr where
  limit := gdtSize.setWidth 16
  table := gdtInitialize tss

def codeDescriptor : Descriptor where
  limit := 0xFFFFF
  base := 0
  type := 0xA
  s := true
  dpl := 0
  p := true
  db := true
  g := true

def dataDescriptor : Descriptor := { codeDescriptor with type := 0x2 }

/-- A 32-bit TSS that is not busy, of ring 3, and one byte too long. -/
def tssDescriptor (tss : Word) : Descriptor where
  limit := 104
  base := tss
  type := 0x9
  s := false
  dpl := 3
  p := true
  db := false
  g := false

/-- The two fields of a base. -/
theorem base_split (base : Word) :
    ((base &&& 0xFF000000) >>> 24).setWidth 8 ++ (base &&& 0xFFFFFF).setWidth 24 = base := by
  have hhigh : ((base &&& 0xFF000000) >>> 24).setWidth 8 = base.extractLsb' 24 8 := by
    ext i hi
    interval_cases i <;> simp
  have hlow : (base &&& 0xFFFFFF).setWidth 24 = base.extractLsb' 0 24 := by
    ext i hi
    interval_cases i <;> simp
  rw [hhigh, hlow]
  exact BitVec.extractLsb'_append_extractLsb'

theorem read_null (tss : Word) :
    Descriptor.ofBits (gdtInitialize tss)[0].packed = .ofBits 0 := by
  have hentry : (gdtInitialize tss)[0] = zeroEntry := rfl
  have hpacked : zeroEntry.packed = 0 := by decide
  rw [hentry, hpacked]

theorem read_code (tss : Word) :
    Descriptor.ofBits (gdtInitialize tss)[1].packed = codeDescriptor := by
  have hentry : (gdtInitialize tss)[1] = ⟨0xFFFF, 0, 0, 1, 0, 1, 1, 0, 1, 0xF, 1, 0, 1, 1, 0⟩ := rfl
  rw [ofBits_packed, hentry]
  rfl

theorem read_data (tss : Word) :
    Descriptor.ofBits (gdtInitialize tss)[2].packed = dataDescriptor := by
  have hentry : (gdtInitialize tss)[2] = ⟨0xFFFF, 0, 0, 1, 0, 0, 1, 0, 1, 0xF, 1, 0, 1, 1, 0⟩ := rfl
  rw [ofBits_packed, hentry]
  rfl

/-- The descriptor of the TSS leads to it, wherever it lies. -/
theorem read_tss (tss : Word) :
    Descriptor.ofBits (gdtInitialize tss)[3].packed = tssDescriptor tss := by
  have hentry : (gdtInitialize tss)[3] = ⟨104, (tss &&& 0xFFFFFF).setWidth 24, 1, 0, 0, 1, 0, 3, 1,
    0, 0, 0, 0, 0, ((tss &&& 0xFF000000) >>> 24).setWidth 8⟩ := rfl
  have hlimit : (0 : BitVec 4) ++ (104 : BitVec 16) = (104 : BitVec 20) := by decide
  have htype : (1 : BitVec 1) ++ (0 : BitVec 1) ++ (0 : BitVec 1) ++ (1 : BitVec 1) =
    (0x9 : BitVec 4) := by decide
  rw [ofBits_packed, hentry]
  dsimp only
  rw [hlimit, htype, base_split]
  rfl

/-- The limit leaves the four descriptors of the array, though it is one too large. -/
theorem descriptor_kernelGdtr (tss : Word) (selector : BitVec 16) :
    (kernelGdtr tss).descriptor selector =
      if selector.getLsbD 2 then none else
        match (selector >>> 3).toNat with
        | 0 => some (Descriptor.ofBits 0)
        | 1 => some codeDescriptor
        | 2 => some dataDescriptor
        | 3 => some (tssDescriptor tss)
        | _ => none := by
  have hlimit : (kernelGdtr tss).limit.toNat = 32 := rfl
  have hread : ∀ i (hi : i < 4), (kernelGdtr tss).table[i]?.map (fun e => .ofBits e.packed) =
      some (Descriptor.ofBits (gdtInitialize tss)[i].packed) := by
    intro i hi
    rw [Vector.getElem?_eq_getElem hi]
    rfl
  rw [Gdtr.descriptor, hlimit]
  cases selector.getLsbD 2 with
  | true => simp
  | false =>
    rw [if_neg Bool.false_ne_true]
    generalize (selector >>> 3).toNat = index
    match index with
    | 0 =>
      rw [if_pos ⟨rfl, by decide⟩, hread 0 (by decide), read_null]
      rfl
    | 1 =>
      rw [if_pos ⟨rfl, by decide⟩, hread 1 (by decide), read_code]
      rfl
    | 2 =>
      rw [if_pos ⟨rfl, by decide⟩, hread 2 (by decide), read_data]
      rfl
    | 3 =>
      rw [if_pos ⟨rfl, by decide⟩, hread 3 (by decide), read_tss]
      rfl
    | index + 4 =>
      rw [if_neg fun h => absurd h.2 (by omega)]
      rfl

/-! ### Loads -/

/-- All limits from the last byte of the table on, up to the next whole descriptor, are the
same. -/
theorem descriptor_of_limit (table : Vector GdtEntryBits 4) {limit : BitVec 16}
    (hlow : 31 ≤ limit.toNat) (hhigh : limit.toNat < 39) (selector : BitVec 16) :
    (Gdtr.mk limit table).descriptor selector = (Gdtr.mk 31 table).descriptor selector := by
  have hexact : (31 : BitVec 16).toNat = 31 := rfl
  have hiff : (selector >>> 3).toNat * 8 + 7 ≤ limit.toNat ↔
      (selector >>> 3).toNat * 8 + 7 ≤ (31 : BitVec 16).toNat := by
    omega
  rw [Gdtr.descriptor, Gdtr.descriptor]
  simp only [hiff]

/-- No selector reaches behind the table. -/
theorem descriptor_of_le (tss : Word) {selector : BitVec 16} (h : 32 ≤ selector.toNat) :
    (kernelGdtr tss).descriptor selector = none := by
  have hlimit : (kernelGdtr tss).limit.toNat = 32 := rfl
  have hindex : (selector >>> 3).toNat = selector.toNat / 8 := by
    rw [BitVec.toNat_ushiftRight, Nat.shiftRight_eq_div_pow]
  rw [Gdtr.descriptor, if_neg]
  rintro ⟨-, hle⟩
  omega

/-- What each segment register takes. -/
theorem load_eq (tss : Word) (name : SegmentName) (selector : BitVec 16) :
    (kernelGdtr tss).load name selector =
      match name with
      | .cs =>
        if selector = codeSelector then some ⟨selector, some codeDescriptor⟩ else none
      | .ss =>
        if selector = dataSelector then some ⟨selector, some dataDescriptor⟩ else none
      | .data _ =>
        if isNull selector then some ⟨selector, none⟩
        else if selector = codeSelector then some ⟨selector, some codeDescriptor⟩
        else if selector = dataSelector then some ⟨selector, some dataDescriptor⟩
        else none := by
  by_cases hsmall : selector.toNat < 32
  · obtain ⟨n, hn, rfl⟩ : ∃ n < 32, selector = BitVec.ofNat 16 n :=
      ⟨selector.toNat, hsmall, by simp⟩
    cases name with
    | cs =>
      rw [Gdtr.load, Gdtr.loadCode, descriptor_kernelGdtr]
      interval_cases n <;> rfl
    | ss =>
      rw [Gdtr.load, Gdtr.loadStack, descriptor_kernelGdtr]
      interval_cases n <;> rfl
    | data segment =>
      rw [Gdtr.load, Gdtr.loadData, descriptor_kernelGdtr]
      interval_cases n <;> rfl
  · have hnone := descriptor_of_le tss (not_lt.mp hsmall)
    have hcode : selector ≠ codeSelector := fun h => hsmall (h ▸ by decide)
    have hdata : selector ≠ dataSelector := fun h => hsmall (h ▸ by decide)
    cases name with
    | cs =>
      rw [Gdtr.load, Gdtr.loadCode, hnone]
      simp [hcode]
    | ss =>
      rw [Gdtr.load, Gdtr.loadStack, hnone]
      simp [hdata]
    | data segment =>
      rw [Gdtr.load, Gdtr.loadData, hnone]
      simp [hcode, hdata]

/-! ### Addresses -/

/-- The whole address space lies in the two segments. -/
theorem contains_kernel {d : Descriptor} (hd : d = codeDescriptor ∨ d = dataDescriptor)
    (offset : Word) (size : ℕ) : d.contains offset size ↔ offset.toNat + size ≤ 2 ^ 32 := by
  obtain rfl | rfl := hd
  · rw [Descriptor.contains, if_neg (by decide)]
    rfl
  · rw [Descriptor.contains, if_neg (by decide)]
    rfl

/-- An address in the two segments is its own linear address. -/
theorem linear_kernel {r : SegmentRegister} {d : Descriptor} (hr : r.descriptor = some d)
    (hd : d = codeDescriptor ∨ d = dataDescriptor) (access : Access) (offset : Word) (size : ℕ) :
    r.linear access offset size =
      if d.allows access ∧ offset.toNat + size ≤ 2 ^ 32 then some offset else none := by
  have hbase : d.base + offset = offset := by
    obtain rfl | rfl := hd <;> exact BitVec.zero_add offset
  rw [SegmentRegister.linear, hr, Option.bind_eq_bind, Option.bind_some, hbase]
  simp only [contains_kernel hd]

/-- What a segment register holds from `set_gdt` on. -/
def KernelRegister (name : SegmentName) (r : SegmentRegister) : Prop :=
  match name with
  | .cs => r.descriptor = some codeDescriptor
  | .ss => r.descriptor = some dataDescriptor
  | .data _ =>
    (isNull r.selector = true ∧ r.descriptor = none) ∨
      isNull r.selector = false ∧
        (r.descriptor = some codeDescriptor ∨ r.descriptor = some dataDescriptor)

theorem kernelRegister_of_load {tss : Word} {name : SegmentName} {selector : BitVec 16}
    {r : SegmentRegister} (h : (kernelGdtr tss).load name selector = some r) :
    KernelRegister name r := by
  rw [load_eq] at h
  cases name with
  | cs =>
    obtain ⟨-, hr⟩ := Option.ite_none_right_eq_some.mp h
    obtain rfl := Option.some.inj hr
    rfl
  | ss =>
    obtain ⟨-, hr⟩ := Option.ite_none_right_eq_some.mp h
    obtain rfl := Option.some.inj hr
    rfl
  | data segment =>
    dsimp only at h
    split at h
    · next hnull =>
      obtain rfl := Option.some.inj h
      exact .inl ⟨hnull, rfl⟩
    · next hnull =>
      have hnull := Bool.eq_false_iff.mpr hnull
      split at h
      · obtain rfl := Option.some.inj h
        exact .inr ⟨hnull, .inl rfl⟩
      · obtain ⟨-, hr⟩ := Option.ite_none_right_eq_some.mp h
        obtain rfl := Option.some.inj hr
        exact .inr ⟨hnull, .inr rfl⟩

/-- Loads keep what the registers hold. -/
theorem kernelRegister_of_loads {tss : Word} {loads : List (SegmentName × BitVec 16)}
    {segments segments' : Segments} (h : ∀ name, KernelRegister name (segments name))
    (hloads : (kernelGdtr tss).loads loads segments = some segments') (name : SegmentName) :
    KernelRegister name (segments' name) := by
  induction loads generalizing segments with
  | nil =>
    obtain rfl := Option.some.inj hloads
    exact h name
  | cons load loads ih =>
    rw [Gdtr.loads, List.foldlM_cons] at hloads
    obtain ⟨segments₁, hfirst, hrest⟩ := Option.bind_eq_some_iff.mp hloads
    obtain ⟨r, hload, rfl⟩ := Option.map_eq_some_iff.mp hfirst
    refine ih (fun other => ?_) hrest
    by_cases hname : other = load.1
    · rw [hname, Function.update_self]
      exact kernelRegister_of_load hload
    · rw [Function.update_of_ne hname]
      exact h other

/-- The segment registers after `set_gdt`. -/
def kernelSegments : Segments
  | .cs => ⟨codeSelector, some codeDescriptor⟩
  | .ss | .data _ => ⟨dataSelector, some dataDescriptor⟩

theorem kernelRegister_kernelSegments (name : SegmentName) :
    KernelRegister name (kernelSegments name) :=
  match name with
  | .cs | .ss => rfl
  | .data _ => .inr ⟨rfl, .inr rfl⟩

/-- `set_gdt` succeeds, whatever the segments were before. -/
theorem setGdt_kernel (tss : Word) (before : Segments) :
    setGdt (gdtInitialize tss) gdtSize before = some (kernelGdtr tss, kernelSegments) := by
  have hcs : (kernelGdtr tss).load .cs codeSelector =
      some ⟨codeSelector, some codeDescriptor⟩ := load_eq tss .cs codeSelector
  have hss : (kernelGdtr tss).load .ss dataSelector =
      some ⟨dataSelector, some dataDescriptor⟩ := load_eq tss .ss dataSelector
  have hdata : ∀ segment, (kernelGdtr tss).load (.data segment) dataSelector =
      some ⟨dataSelector, some dataDescriptor⟩ := fun segment =>
    load_eq tss (.data segment) dataSelector
  change (((kernelGdtr tss).loads _ before).bind fun segments =>
    some (kernelGdtr tss, segments)) = _
  simp only [Gdtr.loads, List.foldlM_cons, List.foldlM_nil, hcs, hss, hdata, Option.map_some,
    Option.bind_eq_bind, Option.bind_some, Option.pure_def]
  congr 2
  funext name
  match name with
  | .cs | .ss | .data .ds | .data .es | .data .fs | .data .gs => rfl

/-- **Addresses are linear addresses.**  From `set_gdt` on, after any loads of segment registers
that the processor accepts, each address that it lets through in a segment is the linear
address.  It lets through all fetches and reads by CS and all reads and writes by SS that stay
below 2^32, and the reads by another register unless its selector is null. -/
theorem segments_stay_flat (tss : Word) (before : Segments) :
    ∃ gdtr segments, setGdt (gdtInitialize tss) gdtSize before = some (gdtr, segments) ∧
      ∀ loads segments', gdtr.loads loads segments = some segments' →
        (∀ access offset size, (segments' .cs).linear access offset size =
          if access ≠ .write ∧ offset.toNat + size ≤ 2 ^ 32 then some offset else none) ∧
        (∀ access offset size, (segments' .ss).linear access offset size =
          if access ≠ .fetch ∧ offset.toNat + size ≤ 2 ^ 32 then some offset else none) ∧
        ∀ segment offset size, (segments' (.data segment)).linear .read offset size =
          if isNull (segments' (.data segment)).selector = false ∧
            offset.toNat + size ≤ 2 ^ 32 then some offset else none := by
  refine ⟨_, _, setGdt_kernel tss before, fun loads segments' hloads => ?_⟩
  have hkernel := kernelRegister_of_loads kernelRegister_kernelSegments hloads
  refine ⟨fun access offset size => ?_, fun access offset size => ?_,
    fun segment offset size => ?_⟩
  · have hallows : codeDescriptor.allows access ↔ access ≠ .write := by cases access <;> decide
    rw [linear_kernel (hkernel .cs) (.inl rfl)]
    simp only [hallows]
  · have hallows : dataDescriptor.allows access ↔ access ≠ .fetch := by cases access <;> decide
    rw [linear_kernel (hkernel .ss) (.inr rfl)]
    simp only [hallows]
  · have hcodeRead : codeDescriptor.allows .read = true := rfl
    have hdataRead : dataDescriptor.allows .read = true := rfl
    obtain ⟨hnull, hnone⟩ | ⟨hnull, hcode | hdata⟩ := hkernel (.data segment)
    · rw [SegmentRegister.linear, hnone, hnull]
      rfl
    · rw [linear_kernel hcode (.inl rfl), hnull]
      simp only [hcodeRead, true_and]
    · rw [linear_kernel hdata (.inr rfl), hnull]
      simp only [hdataRead, true_and]

/-- **The processor takes the selectors that the stubs load**: a load of a data segment register
succeeds exactly when the table of `gdt_initialize` lets it. -/
theorem loadSegment_iff (tss : Word) (c : Cpu) (segment : Segment) :
    (c.loadSegment segment).isSome =
      ((kernelGdtr tss).load (.data segment) (c.regs.eax.setWidth 16)).isSome := by
  have hisSome : (c.loadSegment segment).isSome = loadable (c.regs.eax.setWidth 16) := by
    unfold Cpu.loadSegment
    dsimp only
    split
    · next hload =>
      rw [hload]
      cases segment <;> rfl
    · next hload => exact (Bool.eq_false_iff.mpr hload).symm
  rw [hisSome, load_eq]
  dsimp only
  generalize c.regs.eax.setWidth 16 = selector
  rw [loadable]
  by_cases hnull : isNull selector
  · have hult : selector.ult 4 = true := hnull
    rw [if_pos hnull, hult]
    rfl
  · have hult : selector.ult 4 = false := Bool.eq_false_iff.mpr hnull
    rw [if_neg hnull, hult, Bool.false_or]
    by_cases hcode : selector = codeSelector
    · simp [hcode]
    · by_cases hdata : selector = dataSelector
      · rw [if_neg hcode, if_pos hdata]
        simp [hdata]
      · simp [hcode, hdata]

end MVK
