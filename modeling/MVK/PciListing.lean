import MVK.PciScan
import MVK.Report

/-!
# The listing of the devices

At its end `kernel_main` prints a line for each device that the scan has found, with the
numbers that its configuration space holds, all in hexadecimal and none padded.  What stands
between the numbers is enough to tell them apart.

## Main definitions

* `deviceCall`, `listingCalls` — the calls of `printf`.
* `pciListing` — what they print.
* `deviceLine`, `listingLines` — the lines of the listing.

## Main results

* `listing_text` — what the calls print.
* `listing_reads_back` — **the listing determines every number in it.**
-/

namespace MVK

open Lines Numeral

section Listing

variable (cfg : ConfigSpace) (buf : Vector Byte 128)

/-- The arguments of `printf` for a device. -/
def deviceRow (x : PciDevice) : List Word :=
  [x.bus.setWidth 32, x.device.setWidth 32, x.function.setWidth 32,
    (pciGetClass cfg x.bus x.device x.function).setWidth 32,
    (pciGetSubclass cfg x.bus x.device x.function).setWidth 32,
    (pciGetVendor cfg x.bus x.device x.function).setWidth 32,
    (pciGetDevice cfg x.bus x.device x.function).setWidth 32,
    (pciGetRevision cfg x.bus x.device x.function).setWidth 32,
    (pciGetProgif cfg x.bus x.device x.function).setWidth 32]

def deviceCall (x : PciDevice) : OutputCall :=
  .printf (cstring "  %x:%x.%x [%x:%x] [%x:%x] (rev %x) (prog-if %x)\n") (deviceRow cfg x) buf

/-- The devices that the loop meets.  An entry outside the block gives `none`; no block is
`NULL`. -/
def listedDevices (st : PciList) : Option (List PciDevice) :=
  if st.connectedDevices = [] then some []
  else (List.range st.connectedDevicesLength.toNat).mapM fun i => st.connectedDevices[i]?

/-- The calls at the end of `kernel_main`. -/
def listingCalls (devices : List PciDevice) (length : Word) : List OutputCall :=
  .puts (cstring "PCI Bus Information:") :: devices.map (deviceCall cfg buf) ++
    [.printf (cstring "  %u connected devices.\n") [length] buf]

/-- What they print. -/
def pciListing (strings : Strings) (st : PciList) : Option (List Word) := do
  let devices ← listedDevices st
  let outputs ← (listingCalls cfg buf devices st.connectedDevicesLength).mapM
    (OutputCall.output strings)
  return outputs.flatten

end Listing

/-! ### The lines -/

/-- What stands before each number. -/
def rowLabels : List (List Char) :=
  ["  ", ":", ".", " [", ":", "] [", ":", "] (rev ", ") (prog-if "].map String.toList

/-- Numbers in hexadecimal, each after its label. -/
def fieldsText (fields : List (List Char × Word)) : List Char :=
  fields.flatMap fun f => f.1 ++ lowerDigits 16 f.2.toNat

def deviceLine (row : List Word) : List Char := fieldsText (rowLabels.zip row) ++ ")".toList

def countLine (count : Word) : List Char :=
  "  ".toList ++ lowerDigits 10 count.toNat ++ " connected devices.".toList

def listingLines (rows : List (List Word)) (count : Word) : List (List Char) :=
  "PCI Bus Information:".toList :: rows.map deviceLine ++ [countLine count]

/-! ### What the calls print -/

variable {strings : Strings} {cfg cfg' : ConfigSpace}

theorem rendering_fields (fields : List (List Char × Word)) :
    (fields.map fun f => ((f.1, .x f.2) : Piece strings)).flatMap Piece.rendering =
      (fieldsText fields).map intOf := by
  induction fields with
  | nil => rfl
  | cons f fields ih =>
    rw [List.map_cons, List.flatMap_cons, ih, fieldsText, fieldsText, List.flatMap_cons,
      List.map_append, List.map_append]
    rfl

theorem prints_device (buf : Vector Byte 128) (x : PciDevice) :
    Prints strings (deviceCall cfg buf x) (deviceLine (deviceRow cfg x)) := by
  have hplain : ∀ l ∈ rowLabels, Plain l := by decide
  have hformat : cstring "  %x:%x.%x [%x:%x] [%x:%x] (rev %x) (prog-if %x)\n" =
      (rowLabels.flatMap fun l => l.map byteOf ++ [byteOf '%', byteOf 'x']) ++
        (")".toList.map byteOf ++ [byteOf '\n', 0]) := by decide
  refine prints_line buf (fun p hp => ?_) (by decide) rfl
    (rendering_fields (rowLabels.zip (deviceRow cfg x))) hformat
  obtain ⟨f, hf, rfl⟩ := List.mem_map.mp hp
  exact hplain f.1 (List.of_mem_zip hf).1

theorem prints_count (buf : Vector Byte 128) (count : Word) :
    Prints strings (.printf (cstring "  %u connected devices.\n") [count] buf)
      (countLine count) := by
  have hformat : cstring "  %u connected devices.\n" =
      ("  ".toList.map byteOf ++ [byteOf '%', byteOf 'u']) ++
        (" connected devices.".toList.map byteOf ++ [byteOf '\n', 0]) := by decide
  have hplain : ∀ p ∈ [(("  ".toList, .u count) : Piece strings)], Plain p.1 :=
    fun p hp => List.mem_singleton.mp hp ▸ (by decide : Plain "  ".toList)
  refine prints_line buf hplain (by decide) rfl ?_ ?_
  · simp [Piece.rendering, Directive.rendering]
  · rw [hformat]
    simp [Piece.format, Directive.format]

/-- Reading one entry after the other. -/
theorem mapM_range_getElem {α : Type} (read l : List α) :
    ((List.range' read.length l.length).mapM fun i => (read ++ l)[i]?) = some l := by
  induction l generalizing read with
  | nil => rfl
  | cons x l ih =>
    have hfirst : (read ++ x :: l)[read.length]? = some x := by simp
    have hrest := ih (read ++ [x])
    rw [List.length_append, List.length_singleton, List.append_assoc, List.singleton_append]
      at hrest
    rw [List.length_cons, List.range'_succ, List.mapM_cons, hfirst, hrest]
    rfl

/-- The loop runs over the block. -/
theorem listedDevices_of {l : List PciDevice} (h : l.length < 2 ^ 32) :
    listedDevices (.of l) = some l := by
  have hlength : (BitVec.ofNat 32 l.length).toNat = l.length := by
    rw [BitVec.toNat_ofNat]
    exact Nat.mod_eq_of_lt h
  rw [listedDevices, PciList.of]
  dsimp only
  split
  · next hnil => rw [hnil]
  · rw [hlength, List.range_eq_range']
    exact mapM_range_getElem [] l

/-- **The listing in full.** -/
theorem listing_text (buf : Vector Byte 128) {l : List PciDevice} (h : l.length < 2 ^ 32) :
    pciListing cfg buf strings (.of l) =
      some ((unlines '\n' (listingLines (l.map (deviceRow cfg)) (BitVec.ofNat 32 l.length))).map
        intOf) := by
  have hrows : List.Forall₂ (Prints strings) (l.map (deviceCall cfg buf))
      ((l.map (deviceRow cfg)).map deviceLine) := by
    rw [List.map_map, List.forall₂_map_left_iff, List.forall₂_map_right_iff]
    exact List.forall₂_same.mpr fun x _ => prints_device buf x
  have hcalls : List.Forall₂ (Prints strings) (listingCalls cfg buf l (BitVec.ofNat 32 l.length))
      (listingLines (l.map (deviceRow cfg)) (BitVec.ofNat 32 l.length)) :=
    List.rel_append (.cons (prints_puts (by decide)) hrows) (.cons (prints_count buf _) .nil)
  obtain ⟨outputs, hmap, hflat⟩ := mapM_prints hcalls
  have hlength : (PciList.of l).connectedDevicesLength = BitVec.ofNat 32 l.length := rfl
  rw [pciListing, listedDevices_of h, hlength, Option.bind_eq_bind, Option.bind_some,
    Option.bind_eq_bind, hmap, Option.bind_some, hflat]
  rfl

/-! ### Reading the listing -/

def hexDigits : List Char := "0123456789abcdef".toList

theorem mem_hexDigits {n : ℕ} : ∀ c ∈ lowerDigits 16 n, c ∈ hexDigits := by
  intro c hc
  obtain ⟨d, hd, rfl⟩ := List.mem_map.mp hc
  have hall : ∀ d : Fin 16, Nat.digitChar d ∈ hexDigits := by decide
  exact hall ⟨d, lt_of_mem_numeral (by decide) hd⟩

/-- A text that cannot be taken for more digits of the number before it. -/
def Stops (text : List Char) : Prop := ∀ c ∈ text.head?, c ∉ hexDigits

instance (text : List Char) : Decidable (Stops text) :=
  match text with
  | [] => isTrue fun _ hc => nomatch hc
  | c :: _ => decidable_of_iff (c ∉ hexDigits)
      ⟨fun h _ hc => Option.some.inj hc ▸ h, fun h => h c rfl⟩

theorem Stops.append {text : List Char} (h : Stops text) (hne : text ≠ []) (rest : List Char) :
    Stops (text ++ rest) := by
  cases text with
  | nil => exact absurd rfl hne
  | cons c text => exact h

theorem fieldsText_cons (l : List Char) (labels : List (List Char)) (v : Word)
    (values : List Word) (rest : List Char) :
    fieldsText ((l :: labels).zip (v :: values)) ++ rest =
      l ++ (lowerDigits 16 v.toNat ++ (fieldsText (labels.zip values) ++ rest)) := by
  simp only [fieldsText, List.zip_cons_cons, List.flatMap_cons, List.append_assoc]

theorem stops_fieldsText {labels : List (List Char)}
    (hlabels : ∀ l ∈ labels, l ≠ [] ∧ Stops l) {values : List Word} {rest : List Char}
    (hlength : values.length = labels.length) (hrest : Stops rest) :
    Stops (fieldsText (labels.zip values) ++ rest) := by
  match labels, values, hlength with
  | [], _, _ => exact hrest
  | l :: labels, v :: values, _ =>
    rw [fieldsText_cons]
    obtain ⟨hne, hstops⟩ := hlabels l List.mem_cons_self
    exact hstops.append hne _

/-- Numbers with labels between them can be told apart. -/
theorem fieldsText_inj {labels : List (List Char)} (hlabels : ∀ l ∈ labels, l ≠ [] ∧ Stops l)
    {values values' : List Word} {rest : List Char} (hlength : values.length = labels.length)
    (hlength' : values'.length = labels.length) (hrest : Stops rest)
    (h : fieldsText (labels.zip values) ++ rest = fieldsText (labels.zip values') ++ rest) :
    values = values' := by
  induction labels generalizing values values' with
  | nil => rw [List.length_eq_zero_iff.mp hlength, List.length_eq_zero_iff.mp hlength']
  | cons l labels ih =>
    match values, values', hlength, hlength' with
    | v :: values, v' :: values', hlength, hlength' =>
      have hlabels := fun m hm => hlabels m (List.mem_cons_of_mem l hm)
      have hlength := Nat.succ.inj hlength
      have hlength' := Nat.succ.inj hlength'
      rw [fieldsText_cons, fieldsText_cons] at h
      obtain ⟨hdigits, htext⟩ := span_inj mem_hexDigits mem_hexDigits
        (stops_fieldsText hlabels hlength hrest) (stops_fieldsText hlabels hlength' hrest)
        (List.append_cancel_left h)
      rw [BitVec.eq_of_toNat_eq (lowerDigits_inj (by decide) (by decide) hdigits),
        ih hlabels hlength hlength' htext]

theorem deviceLine_inj {row row' : List Word} (hrow : row.length = 9) (hrow' : row'.length = 9)
    (h : deviceLine row = deviceLine row') : row = row' :=
  fieldsText_inj (by decide : ∀ l ∈ rowLabels, l ≠ [] ∧ Stops l) hrow hrow' (by decide) h

theorem newline_notMem_fieldsText {fields : List (List Char × Word)}
    (hlabels : ∀ f ∈ fields, '\n' ∉ f.1) : '\n' ∉ fieldsText fields := by
  intro hmem
  obtain ⟨f, hf, hchar⟩ := List.mem_flatMap.mp hmem
  rcases List.mem_append.mp hchar with hlabel | hdigits
  · exact hlabels f hf hlabel
  · exact newline_notMem_lowerDigits (by decide) (by decide) _ hdigits

/-- No line of the listing holds a line break. -/
theorem newline_notMem_listingLines (rows : List (List Word)) (count : Word) :
    ∀ line ∈ listingLines rows count, '\n' ∉ line := by
  have hplain : ∀ l ∈ rowLabels, '\n' ∉ l := by decide
  intro line hline
  rw [listingLines, List.mem_append, List.mem_cons, List.mem_singleton] at hline
  rcases hline with (rfl | hrow) | rfl
  · decide
  · obtain ⟨row, -, rfl⟩ := List.mem_map.mp hrow
    rw [deviceLine, List.mem_append, not_or]
    exact ⟨newline_notMem_fieldsText fun f hf => hplain f.1 (List.of_mem_zip hf).1, by decide⟩
  · rw [countLine, List.mem_append, List.mem_append, not_or, not_or]
    exact ⟨⟨by decide, newline_notMem_lowerDigits (by decide) (by decide) _⟩, by decide⟩

/-- The lines give the rows back. -/
theorem rows_of_listingLines {rows rows' : List (List Word)} {count count' : Word}
    (hrows : ∀ row ∈ rows, row.length = 9) (hrows' : ∀ row ∈ rows', row.length = 9)
    (h : listingLines rows count = listingLines rows' count') : rows = rows' := by
  have hmap : rows.map deviceLine = rows'.map deviceLine :=
    (List.append_inj' (List.cons.inj h).2 rfl).1
  clear h
  induction rows generalizing rows' with
  | nil => exact (List.map_eq_nil_iff.mp hmap.symm).symm
  | cons row rows ih =>
    cases rows' with
    | nil => cases hmap
    | cons row' rows' =>
      obtain ⟨hline, hrest⟩ := List.cons.inj hmap
      rw [deviceLine_inj (hrows row List.mem_cons_self) (hrows' row' List.mem_cons_self) hline,
        ih (fun r hr => hrows r (List.mem_cons_of_mem _ hr))
          (fun r hr => hrows' r (List.mem_cons_of_mem _ hr)) hrest]

/-- **The listing determines every number in it**: whatever is in the configuration spaces and
in the lists, two listings are the same text exactly when they list the same devices in the
same order, with the same numbers. -/
theorem listing_reads_back (buf buf' : Vector Byte 128) {l l' : List PciDevice}
    (h : l.length < 2 ^ 32) (h' : l'.length < 2 ^ 32) :
    pciListing cfg buf strings (.of l) = pciListing cfg' buf' strings (.of l') ↔
      l.map (deviceRow cfg) = l'.map (deviceRow cfg') := by
  have hnine : ∀ (cfg : ConfigSpace) (l : List PciDevice),
      ∀ row ∈ l.map (deviceRow cfg), row.length = 9 := by
    intro cfg l row hrow
    obtain ⟨x, -, rfl⟩ := List.mem_map.mp hrow
    rfl
  rw [listing_text buf h, listing_text buf' h']
  constructor
  · intro heq
    have htext := (List.map_injective_iff.mpr intOf_inj) (Option.some.inj heq)
    exact rows_of_listingLines (hnine cfg l) (hnine cfg' l')
      (unlines_inj (newline_notMem_listingLines _ _) (newline_notMem_listingLines _ _) htext)
  · intro heq
    have hlength : l.length = l'.length := by
      rw [← List.length_map (deviceRow cfg), heq, List.length_map]
    rw [heq, hlength]

/-- A controller that is no bridge. -/
def onlyHost : ConfigSpace := lonelyFunction 0x00 0x06 0x00 0x00

theorem listing_reads_back_sample :
    pciListing onlyHost (Vector.replicate 128 0) (fun _ => []) (.of [⟨0, 0, 0⟩]) ≠
      pciListing unconfiguredBridge (Vector.replicate 128 0) (fun _ => []) (.of [⟨0, 0, 0⟩]) :=
  (listing_reads_back (Vector.replicate 128 0) (Vector.replicate 128 0) (by decide)
    (by decide)).not.mpr (by decide)

end MVK
