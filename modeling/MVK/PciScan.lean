import Mathlib.Data.List.Nodup
import MVK.Lib.PostOrder
import MVK.Pci

/-!
# What the PCI scan finds

The buses form a hierarchy: the functions of a bus are its items, and a bridge leads to
its secondary bus.  `check_bus` scans it in post-order.  It follows the secondary bus
numbers as it reads them, so it returns exactly when no cycle of bridges can be reached;
and on a forest it finds every function once.

`scan_pci_buses` has two cases.  With several host controllers it is to scan one bus for
each; but its loop ends at the first function that is there, instead of the first that is
not.

## Main definitions

* `Visible` — a function that answers.
* `busFunctions`, `bridgeTo` — the hierarchy of the buses.
* `scannedBuses`, `hostBuses` — the buses that are scanned, and those that should be.
* `BridgeForest`, `Complete` — the forests, and the complete lists.
* `Ends` — a run that returns, or has no memory left for the list.

## Main results

* `checkBusWith_eq_walk` — **`check_bus` is a post-order walk.**
* `pci_scan_returns_iff` — **exactly when the scan returns.**
* `pci_scan_complete_iff` — **exactly when it finds everything.**
-/

namespace MVK

open PostOrder Relation

/-! ### The hierarchy of the buses -/

/-- A function that answers: function 0 of its device does; and it is that one, or the
device has several and it answers itself. -/
def Visible (cfg : ConfigSpace) (x : PciDevice) : Prop :=
  x.device.toNat < 32 ∧ x.function.toNat < 8 ∧ pciGetVendor cfg x.bus x.device 0 ≠ 0xFFFF ∧
    (x.function = 0 ∨ (pciGetHeaderType cfg x.bus x.device 0 &&& 0x80 ≠ 0 ∧
      pciGetVendor cfg x.bus x.device x.function ≠ 0xFFFF))

instance (cfg : ConfigSpace) (x : PciDevice) : Decidable (Visible cfg x) :=
  inferInstanceAs (Decidable (_ ∧ _))

/-- The `n` functions of a device from number `f` on that answer. -/
def furtherFunctions (cfg : ConfigSpace) (bus device : Byte) (n f : ℕ) : List PciDevice :=
  ((List.range' f n).map fun f => ⟨bus, device, BitVec.ofNat 8 f⟩).filter fun x =>
    pciGetVendor cfg x.bus x.device x.function ≠ 0xFFFF

/-- The functions of a device, in the order of the scan. -/
def deviceFunctions (cfg : ConfigSpace) (bus device : Byte) : List PciDevice :=
  if pciGetVendor cfg bus device 0 = 0xFFFF then []
  else ⟨bus, device, 0⟩ ::
    if pciGetHeaderType cfg bus device 0 &&& 0x80 ≠ 0 then furtherFunctions cfg bus device 7 1
    else []

/-- The functions of a bus, in the order of the scan. -/
def busFunctions (cfg : ConfigSpace) (bus : Byte) : List PciDevice :=
  (List.range' 0 32).flatMap fun d => deviceFunctions cfg bus (BitVec.ofNat 8 d)

/-- The bus behind a PCI-to-PCI bridge. -/
def bridgeTo (cfg : ConfigSpace) (x : PciDevice) : Option Byte :=
  if pciGetClass cfg x.bus x.device x.function = 0x06 ∧
      pciGetSubclass cfg x.bus x.device x.function = 0x04 then
    some (pciGetSecondaryBus cfg x.bus x.device x.function)
  else none

section Functions

variable {cfg : ConfigSpace} {bus device : Byte}

theorem byte_ofNat_add_one (n : ℕ) : BitVec.ofNat 8 n + 1 = BitVec.ofNat 8 (n + 1) :=
  (BitVec.ofNat_add n 1).symm

/-- A small number is that of one byte. -/
theorem eq_ofNat_iff {x : Byte} {n : ℕ} (hn : n < 256) : x = BitVec.ofNat 8 n ↔ x.toNat = n := by
  rw [← BitVec.toNat_inj, BitVec.toNat_ofNat, Nat.mod_eq_of_lt hn]

theorem mem_furtherFunctions {x : PciDevice} : x ∈ furtherFunctions cfg bus device 7 1 ↔
    x.bus = bus ∧ x.device = device ∧ (1 ≤ x.function.toNat ∧ x.function.toNat < 8) ∧
      pciGetVendor cfg x.bus x.device x.function ≠ 0xFFFF := by
  simp only [furtherFunctions, List.mem_filter, List.mem_map, List.mem_range'_1, decide_eq_true_eq,
    PciDevice.ext_iff]
  constructor
  · rintro ⟨⟨f, hf, rfl, rfl, hfun⟩, hv⟩
    have hnat := (eq_ofNat_iff (by omega)).mp hfun.symm
    exact ⟨rfl, rfl, by omega, hv⟩
  · rintro ⟨rfl, rfl, hf, hv⟩
    exact ⟨⟨x.function.toNat, by omega, rfl, rfl, ((eq_ofNat_iff x.function.isLt).mpr rfl).symm⟩,
      hv⟩

theorem mem_deviceFunctions {x : PciDevice} : x ∈ deviceFunctions cfg bus device ↔
    x.bus = bus ∧ x.device = device ∧ x.function.toNat < 8 ∧
      pciGetVendor cfg bus device 0 ≠ 0xFFFF ∧
      (x.function = 0 ∨ (pciGetHeaderType cfg bus device 0 &&& 0x80 ≠ 0 ∧
        pciGetVendor cfg x.bus x.device x.function ≠ 0xFFFF)) := by
  have hzero : x.function = 0 ↔ x.function.toNat = 0 := eq_ofNat_iff (by decide)
  unfold deviceFunctions
  split
  · next hv =>
    refine ⟨fun hx => absurd hx List.not_mem_nil, ?_⟩
    rintro ⟨-, -, -, hne, -⟩
    exact absurd hv hne
  · next hv =>
    rw [List.mem_cons, PciDevice.ext_iff]
    dsimp only
    split
    · next hm =>
      rw [mem_furtherFunctions]
      constructor
      · rintro (⟨hb, hd, hf⟩ | ⟨hb, hd, hf, hpresent⟩)
        · have hnat := hzero.mp hf
          exact ⟨hb, hd, by omega, hv, Or.inl hf⟩
        · exact ⟨hb, hd, hf.2, hv, Or.inr ⟨hm, hpresent⟩⟩
      · rintro ⟨hb, hd, hf, -, hf0 | ⟨-, hpresent⟩⟩
        · exact Or.inl ⟨hb, hd, hf0⟩
        · by_cases hf0 : x.function = 0
          · exact Or.inl ⟨hb, hd, hf0⟩
          · have hne := mt hzero.mpr hf0
            exact Or.inr ⟨hb, hd, ⟨by omega, hf⟩, hpresent⟩
    · next hm =>
      constructor
      · rintro (⟨hb, hd, hf⟩ | hnil)
        · have hnat := hzero.mp hf
          exact ⟨hb, hd, by omega, hv, Or.inl hf⟩
        · exact absurd hnil List.not_mem_nil
      · rintro ⟨hb, hd, -, -, hf | ⟨hm', -⟩⟩
        · exact Or.inl ⟨hb, hd, hf⟩
        · exact absurd hm' hm

/-- **The functions of a bus are those that answer.** -/
theorem mem_busFunctions {x : PciDevice} :
    x ∈ busFunctions cfg bus ↔ x.bus = bus ∧ Visible cfg x := by
  simp only [busFunctions, List.mem_flatMap, List.mem_range'_1, mem_deviceFunctions, Visible]
  constructor
  · rintro ⟨d, hd, rfl, hdev, hf, hv, hrest⟩
    have hnat := (eq_ofNat_iff (by omega)).mp hdev
    rw [← hdev] at hv hrest
    exact ⟨rfl, by omega, hf, hv, hrest⟩
  · rintro ⟨rfl, hd, hf, hv, hrest⟩
    have hdev : x.device = BitVec.ofNat 8 x.device.toNat := (eq_ofNat_iff x.device.isLt).mpr rfl
    refine ⟨x.device.toNat, by omega, ?_⟩
    rw [← hdev]
    exact ⟨rfl, rfl, hf, hv, hrest⟩

theorem nodup_furtherFunctions : (furtherFunctions cfg bus device 7 1).Nodup := by
  refine List.Nodup.filter _ (List.Nodup.map_on ?_ List.nodup_range')
  intro a ha b hb hab
  rw [List.mem_range'_1] at ha hb
  have hfun := congrArg (fun x => x.function.toNat) hab
  simp only [BitVec.toNat_ofNat] at hfun
  omega

theorem nodup_deviceFunctions : (deviceFunctions cfg bus device).Nodup := by
  unfold deviceFunctions
  split
  · exact List.nodup_nil
  · refine List.nodup_cons.mpr ⟨?_, ?_⟩
    · split
      · rw [mem_furtherFunctions]
        rintro ⟨-, -, ⟨hpos, -⟩, -⟩
        exact Nat.not_succ_le_zero 0 hpos
      · exact List.not_mem_nil
    · split
      · exact nodup_furtherFunctions
      · exact List.nodup_nil

theorem nodup_busFunctions : (busFunctions cfg bus).Nodup := by
  refine List.nodup_flatMap.mpr ⟨fun d _ => nodup_deviceFunctions, ?_⟩
  refine List.Pairwise.imp_of_mem ?_ List.pairwise_lt_range'
  intro a b ha hb hab x hxa hxb
  rw [List.mem_range'_1] at ha hb
  have hda := (eq_ofNat_iff (by omega)).mp (mem_deviceFunctions.mp hxa).2.1
  have hdb := (eq_ofNat_iff (by omega)).mp (mem_deviceFunctions.mp hxb).2.1
  omega

end Functions

/-! ### The scan is a walk -/

/-- The buses that `scan_pci_buses` scans: bus 0; or, when function 0:0.0 says that it has
siblings, the buses of the functions before the first that is present. -/
def scannedBuses (cfg : ConfigSpace) : List Byte :=
  if pciGetHeaderType cfg 0 0 0 &&& 0x80 = 0 then [0]
  else ((List.range' 0 8).map (BitVec.ofNat 8)).takeWhile fun f => pciGetVendor cfg 0 0 f = 0xFFFF

section Walk

variable {S E : Type} {cfg : ConfigSpace} {append : S → PciDevice → Except E S} {tooDeep : E}
  {visit : Byte → S → Except E S} {bus device : Byte}

/-- What the scan does with each function. -/
abbrev scanStep (cfg : ConfigSpace) (append : S → PciDevice → Except E S)
    (visit : Byte → S → Except E S) (st : S) (x : PciDevice) : Except E S :=
  descend (bridgeTo cfg) visit st x >>= fun st => append st x

theorem checkFunction_eq (x : PciDevice) (st : S) :
    checkFunction cfg append visit x.bus x.device x.function st =
      scanStep cfg append visit st x := by
  unfold checkFunction scanStep descend bridgeTo
  dsimp only
  split
  · rfl
  · rfl

theorem checkFunctions_eq (n f : ℕ) (st : S) :
    checkFunctions cfg append visit bus device n (BitVec.ofNat 8 f) st =
      (furtherFunctions cfg bus device n f).foldlM (scanStep cfg append visit) st := by
  induction n generalizing f st with
  | zero => rfl
  | succ n ih =>
    have hcons : furtherFunctions cfg bus device (n + 1) f =
        if pciGetVendor cfg bus device (BitVec.ofNat 8 f) ≠ 0xFFFF then
          ⟨bus, device, BitVec.ofNat 8 f⟩ :: furtherFunctions cfg bus device n (f + 1)
        else furtherFunctions cfg bus device n (f + 1) := by
      simp only [furtherFunctions, List.range'_succ, List.map_cons, List.filter_cons,
        decide_eq_true_eq]
    rw [checkFunctions, hcons, byte_ofNat_add_one]
    split
    · rw [List.foldlM_cons,
        ← checkFunction_eq (⟨bus, device, BitVec.ofNat 8 f⟩ : PciDevice) st]
      exact bind_congr fun st => ih (f + 1) st
    · exact ih (f + 1) st

theorem checkDevice_eq (st : S) : checkDevice cfg append visit bus device st =
    (deviceFunctions cfg bus device).foldlM (scanStep cfg append visit) st := by
  unfold checkDevice deviceFunctions
  split
  · rfl
  · rw [List.foldlM_cons, ← checkFunction_eq (⟨bus, device, 0⟩ : PciDevice) st]
    refine bind_congr ?_
    intro st
    split
    · exact checkFunctions_eq 7 1 st
    · rfl

theorem checkDevices_eq (n d : ℕ) (st : S) :
    checkDevices cfg append visit bus n (BitVec.ofNat 8 d) st =
      ((List.range' d n).flatMap fun d => deviceFunctions cfg bus (BitVec.ofNat 8 d)).foldlM
        (scanStep cfg append visit) st := by
  induction n generalizing d st with
  | zero => rfl
  | succ n ih =>
    rw [checkDevices, List.range'_succ, List.flatMap_cons, List.foldlM_append, byte_ofNat_add_one,
      checkDevice_eq]
    exact bind_congr fun st => ih (d + 1) st

/-- **`check_bus` is a post-order walk**, wherever the list is kept. -/
theorem checkBusWith_eq_walk (depth : ℕ) (bus : Byte) (st : S) :
    checkBusWith cfg append tooDeep depth bus st =
      walk (busFunctions cfg) (bridgeTo cfg) append tooDeep depth bus st := by
  induction depth generalizing bus st with
  | zero => rfl
  | succ depth ih =>
    have hvisit : checkBusWith cfg append tooDeep depth =
        walk (busFunctions cfg) (bridgeTo cfg) append tooDeep depth := by
      funext bus st
      exact ih bus st
    rw [checkBusWith, hvisit]
    exact checkDevices_eq 32 0 st

theorem scanHostFunctions_eq (depth n f : ℕ) (st : S) :
    scanHostFunctions cfg append tooDeep depth n (BitVec.ofNat 8 f) st =
      (((List.range' f n).map (BitVec.ofNat 8)).takeWhile
        fun f => pciGetVendor cfg 0 0 f = 0xFFFF).foldlM (fun st bus =>
          walk (busFunctions cfg) (bridgeTo cfg) append tooDeep depth bus st) st := by
  induction n generalizing f st with
  | zero => rfl
  | succ n ih =>
    rw [scanHostFunctions, List.range'_succ, List.map_cons, List.takeWhile_cons, byte_ofNat_add_one]
    split
    · next hv => rw [decide_eq_false hv]; rfl
    · next hv =>
      rw [decide_eq_true (not_not.mp hv), checkBusWith_eq_walk]
      exact bind_congr fun st => ih (f + 1) st

/-- **The scan goes through its buses** one after the other. -/
theorem scanPciBuses_eq (depth : ℕ) (st : S) : scanPciBuses cfg append tooDeep depth st =
    (scannedBuses cfg).foldlM (fun st bus =>
      walk (busFunctions cfg) (bridgeTo cfg) append tooDeep depth bus st) st := by
  rw [scanPciBuses, scannedBuses]
  split
  · rw [List.foldlM_cons, checkBusWith_eq_walk]
    exact (bind_pure _).symm
  · exact scanHostFunctions_eq depth 8 0 st

end Walk

section List

variable {cfg : ConfigSpace} {realloc : Realloc}

/-- The list with the entries of `l`. -/
def PciList.of (l : List PciDevice) : PciList :=
  { connectedDevices := l, connectedDevicesLength := BitVec.ofNat 32 l.length }

/-- One entry more, as long as the size of the block does not wrap. -/
theorem appendDevice_of (hrealloc : ReallocKeeps realloc) {l : List PciDevice}
    (hlen : 3 * (l.length + 1) < 2 ^ 32) {x : PciDevice} {st : PciList}
    (h : appendDevice realloc (.of l) x = .ok st) : st = .of (l ++ [x]) := by
  have hlength : BitVec.ofNat 32 l.length + 1 = BitVec.ofNat 32 (l.length + 1) :=
    (BitVec.ofNat_add l.length 1).symm
  have hsize : (BitVec.ofNat 32 (l.length + 1) * 3).toNat = 3 * (l.length + 1) := by
    rw [BitVec.toNat_mul, BitVec.toNat_ofNat, show (3 : Word).toNat = 3 from rfl]
    omega
  have hindex : (BitVec.ofNat 32 (l.length + 1) - 1).toNat = l.length := by
    rw [← hlength, BitVec.add_sub_cancel, BitVec.toNat_ofNat]
    omega
  unfold appendDevice PciList.of at h
  dsimp only at h
  rw [hlength] at h
  split at h
  · exact absurd h (by simp)
  · next block hblock =>
    obtain ⟨hblockLength, hkeep⟩ := hrealloc _ _ block hblock
    rw [hsize, Nat.mul_div_cancel_left _ (by decide)] at hblockLength
    have hset : block.set l.length x = l ++ [x] := by
      refine List.ext_getElem? ?_
      intro i
      rw [List.getElem?_set, hblockLength]
      rcases Nat.lt_trichotomy i l.length with hlt | rfl | hgt
      · rw [if_neg (by omega), hkeep i hlt (by omega), List.getElem?_append_left hlt]
      · simp
      · rw [if_neg (by omega), List.getElem?_eq_none (by omega), List.getElem?_eq_none]
        rw [List.length_append, List.length_singleton]
        omega
    rw [hindex, hset] at h
    rw [← Except.ok.inj h, PciList.of, List.length_append, List.length_singleton]

/-- A list of entries more. -/
theorem foldlM_appendDevice (hrealloc : ReallocKeeps realloc) {l xs : List PciDevice}
    (hlen : 3 * (l.length + xs.length) < 2 ^ 32) {st : PciList}
    (h : xs.foldlM (appendDevice realloc) (.of l) = .ok st) : st = .of (l ++ xs) := by
  induction xs generalizing l with
  | nil =>
    rw [List.append_nil]
    exact (Except.ok.inj h).symm
  | cons x xs ih =>
    rw [List.length_cons] at hlen
    rw [List.foldlM_cons] at h
    obtain ⟨mid, hfirst, hrest⟩ := bind_eq_ok.mp h
    obtain rfl := appendDevice_of hrealloc (by omega) hfirst
    have hst := @ih (l ++ [x]) (by rw [List.length_append, List.length_singleton]; omega) hrest
    rwa [List.append_assoc, List.singleton_append] at hst

end List

/-! ### When the scan returns -/

/-- `realloc` has returned `NULL`. -/
def outOfMemory : Halt := .abort "ERROR: Couldn't allocate PCI devices list!"

/-- A run comes to an end: it returns, or has no memory left for the list. -/
def Ends (r : Except Halt PciList) : Prop := (∃ st, r = .ok st) ∨ r = .error outOfMemory

/-- A `realloc` that always has room. -/
def roomyRealloc : Realloc := fun block size =>
  some ((block ++ List.replicate (size.toNat / 3) (⟨0, 0, 0⟩ : PciDevice)).take (size.toNat / 3))

theorem roomyRealloc_keeps : ReallocKeeps roomyRealloc := by
  intro block size block' h
  obtain rfl := Option.some.inj h
  refine ⟨?_, ?_⟩
  · rw [List.length_take, List.length_append, List.length_replicate]
    omega
  · intro i hi hi'
    rw [List.length_take] at hi'
    rw [List.getElem?_take_of_lt (by omega), List.getElem?_append_left hi]

theorem roomyRealloc_ne_none (block : List PciDevice) (size : Word) :
    roomyRealloc block size ≠ none := Option.some_ne_none _

section Returns

variable {cfg : ConfigSpace} {realloc : Realloc}

theorem appendDevice_error {st : PciList} {x : PciDevice} {err : Halt}
    (h : appendDevice realloc st x = .error err) : err = outOfMemory := by
  unfold appendDevice at h
  dsimp only at h
  split at h
  · exact (Except.error.inj h).symm
  · exact absurd h (by simp)

/-- With room, every function can be added. -/
theorem appendDevice_total (hroom : ∀ block size, realloc block size ≠ none) (st : PciList)
    (x : PciDevice) : ∃ st', appendDevice realloc st x = .ok st' := by
  obtain ⟨block, hblock⟩ := Option.ne_none_iff_exists'.mp
    (hroom st.connectedDevices ((st.connectedDevicesLength + 1) * 3))
  unfold appendDevice
  dsimp only
  rw [hblock]
  exact ⟨_, rfl⟩

/-- Entries are added until there is no memory left. -/
theorem ends_foldlM_appendDevice (l : List PciDevice) (st : PciList) :
    Ends (l.foldlM (appendDevice realloc) st) := by
  cases hrun : l.foldlM (appendDevice realloc) st with
  | ok st' => exact Or.inl ⟨st', rfl⟩
  | error err =>
    have herr := foldlM_error (fun _ _ _ hstep => appendDevice_error hstep) hrun
    exact Or.inr (congrArg Except.error herr)

/-- The scan of a list. -/
theorem pciInitialize_eq (depth : ℕ) : pciInitialize cfg realloc depth =
    (scannedBuses cfg).foldlM (fun st bus => walk (busFunctions cfg) (bridgeTo cfg)
      (appendDevice realloc) .depth depth bus st) (.of []) :=
  scanPciBuses_eq depth _

theorem finite_byte : Finite Byte :=
  Finite.of_injective BitVec.toFin fun _ _ h => BitVec.eq_of_toFin_eq h

/-- A run that returns has met no cycle of bridges. -/
theorem acyclic_of_returns {depth : ℕ} {st : PciList}
    (h : pciInitialize cfg realloc depth = .ok st) : ∀ bus ∈ scannedBuses cfg,
      ∀ m, Reaches (busFunctions cfg) (bridgeTo cfg) bus m →
        ¬ TransGen (Leads (busFunctions cfg) (bridgeTo cfg)) m m := by
  intro bus hbus
  have hfinite := finite_byte
  rw [pciInitialize_eq] at h
  obtain ⟨l, hl⟩ := exists_scan_of_foldlM_walk h bus hbus
  exact exists_scan_iff.mp ⟨depth, l, hl⟩

/-- With room, a run that comes to an end returns. -/
theorem returns_of_ends (hroom : ∀ block size, realloc block size ≠ none) {depth : ℕ}
    (h : Ends (pciInitialize cfg realloc depth)) :
    ∃ st, pciInitialize cfg realloc depth = .ok st := by
  rcases h with hok | herr
  · exact hok
  · rw [pciInitialize_eq] at herr
    have hdepth := foldlM_error
      (fun _ _ _ hwalk => walk_error (appendDevice_total hroom) hwalk) herr
    exact absurd hdepth (by simp [outOfMemory])

/-- **When the PCI scan returns**: when no chain of bridges leads from a bus that is scanned
into a cycle.  Then there is a depth that is enough, whatever `realloc` gives. -/
theorem pci_scan_returns_iff (cfg : ConfigSpace) :
    (∃ depth, ∀ realloc, Ends (pciInitialize cfg realloc depth)) ↔
      ∀ bus ∈ scannedBuses cfg, ∀ m, Reaches (busFunctions cfg) (bridgeTo cfg) bus m →
        ¬ TransGen (Leads (busFunctions cfg) (bridgeTo cfg)) m m := by
  have hfinite := finite_byte
  constructor
  · rintro ⟨depth, hends⟩
    obtain ⟨st, hst⟩ := returns_of_ends roomyRealloc_ne_none (hends roomyRealloc)
    exact acyclic_of_returns hst
  · intro hno
    -- one depth is enough for all the buses
    obtain ⟨depth, hdepth⟩ := exists_scan_all fun bus hbus => exists_scan_iff.mpr (hno bus hbus)
    refine ⟨depth, fun realloc => ?_⟩
    obtain ⟨l, hl⟩ := @foldlM_walk_of_scan _ _ _ _ _ _ (appendDevice realloc) .depth _ _ hdepth
    rw [pciInitialize_eq, hl]
    exact ends_foldlM_appendDevice l _

end Returns

/-- A space in which only 0:0.0 answers, with the given header: vendor 0x8086, and the bytes
of subclass, class, header type and secondary bus. -/
def lonelyFunction (subclass cls headerType secondaryBus : Byte) : ConfigSpace :=
  fun bus device function offset =>
    if bus = 0 ∧ device = 0 ∧ function = 0 then
      if offset = 0x0 then 0x86 else if offset = 0x1 then 0x80
      else if offset = 0xA then subclass else if offset = 0xB then cls
      else if offset = 0xE then headerType else if offset = 0x19 then secondaryBus
      else 0
    else 0xFF

/-- A function that reads as ones only is not visible. -/
theorem present_of_visible {cfg : ConfigSpace} {present : Byte → BitVec 5 → BitVec 3 → Prop}
    (habsent : ∀ bus device function offset, ¬ present bus device function →
      cfg bus device function offset = 0xFF)
    {x : PciDevice} (hx : Visible cfg x) :
    ∃ device function, present x.bus device function ∧
      x = ⟨x.bus, device.setWidth 8, function.setWidth 8⟩ := by
  obtain ⟨hdevice, hfunction, hvendor, hrest⟩ := hx
  have hpresent : ∀ (device : BitVec 5) (function : BitVec 3),
      pciGetVendor cfg x.bus (device.setWidth 8) (function.setWidth 8) ≠ 0xFFFF →
        present x.bus device function := by
    intro device function hvendor
    by_contra hne
    refine hvendor ?_
    rw [pciGetVendor, pciConfigReadWord_eq, habsent _ _ _ _ hne, habsent _ _ _ _ hne]
    decide
  have hdev := @setWidth_setWidth x.device 5 hdevice
  have hfn := @setWidth_setWidth x.function 3 hfunction
  have hat : present x.bus (x.device.setWidth 5) (x.function.setWidth 3) := by
    rcases hrest with h0 | ⟨-, hfvendor⟩
    · rw [h0]
      exact hpresent _ 0 (by rwa [hdev])
    · exact hpresent _ _ (by rwa [hdev, hfn])
  exact ⟨_, _, hat, PciDevice.ext rfl hdev.symm hfn.symm⟩

/-- Nothing else answers. -/
theorem eq_of_visible_lonelyFunction {subclass cls headerType secondaryBus : Byte} {x : PciDevice}
    (hx : Visible (lonelyFunction subclass cls headerType secondaryBus) x) : x = ⟨0, 0, 0⟩ := by
  obtain ⟨device, function, ⟨hbus, rfl, rfl⟩, hxeq⟩ := @present_of_visible _
    (fun bus device function => bus = 0 ∧ device = 0 ∧ function = 0)
    (fun _ _ _ _ hne => if_neg hne) x hx
  rw [hxeq, hbus]
  rfl

/-- A bridge whose secondary bus was left at 0. -/
def unconfiguredBridge : ConfigSpace := lonelyFunction 0x04 0x06 0x01 0x00

/-- The scan of bus 0 starts over behind the bridge, and comes to no end. -/
theorem pci_scan_loops : ReallocKeeps roomyRealloc ∧
    ∀ depth, ¬ Ends (pciInitialize unconfiguredBridge roomyRealloc depth) := by
  refine ⟨roomyRealloc_keeps, ?_⟩
  intro depth hends
  obtain ⟨st, hst⟩ := returns_of_ends roomyRealloc_ne_none hends
  have hself : Leads (busFunctions unconfiguredBridge) (bridgeTo unconfiguredBridge) 0 0 :=
    ⟨⟨0, 0, 0⟩, mem_busFunctions.mpr ⟨rfl, by decide⟩, by decide⟩
  have hscanned : 0 ∈ scannedBuses unconfiguredBridge := by decide
  exact acyclic_of_returns hst 0 hscanned 0 ReflTransGen.refl (TransGen.single hself)

/-! ### When the scan is complete -/

/-- The buses of the host controllers: bus 0; or, when function 0:0.0 says that it has
siblings, the buses of the functions before the first that is absent. -/
def hostBuses (cfg : ConfigSpace) : List Byte :=
  if pciGetHeaderType cfg 0 0 0 &&& 0x80 = 0 then [0]
  else ((List.range' 0 8).map (BitVec.ofNat 8)).takeWhile fun f => pciGetVendor cfg 0 0 f ≠ 0xFFFF

/-- Below the host buses there is no cycle of bridges, and no bus is the secondary bus of two
of them. -/
structure BridgeForest (cfg : ConfigSpace) : Prop where
  acyclic : ∀ bus ∈ hostBuses cfg, ∀ m, Reaches (busFunctions cfg) (bridgeTo cfg) bus m →
    ¬ TransGen (Leads (busFunctions cfg) (bridgeTo cfg)) m m
  parent : ∀ x y bus, Visible cfg x → Visible cfg y →
    (∃ host ∈ hostBuses cfg, Reaches (busFunctions cfg) (bridgeTo cfg) host x.bus) →
    (∃ host ∈ hostBuses cfg, Reaches (busFunctions cfg) (bridgeTo cfg) host y.bus) →
    bridgeTo cfg x = some bus → bridgeTo cfg y = some bus → x = y

/-- The list holds each function visible on a host bus, or behind a bridge of the list, once;
and its length is their number. -/
structure Complete (cfg : ConfigSpace) (st : PciList) : Prop where
  mem : ∀ x, x ∈ st.connectedDevices ↔ Visible cfg x ∧
    (x.bus ∈ hostBuses cfg ∨ ∃ y ∈ st.connectedDevices, bridgeTo cfg y = some x.bus)
  nodup : st.connectedDevices.Nodup
  length : st.connectedDevicesLength.toNat = st.connectedDevices.length

section Complete

variable {cfg : ConfigSpace} {realloc : Realloc}

/-- There are less than 2 ^ 24 functions, so their number fits a word, and so does three
times their number. -/
theorem length_le_of_nodup {l : List PciDevice} (hl : l.Nodup) : l.length ≤ 2 ^ 24 := by
  let key : PciDevice → ℕ := fun x =>
    65536 * x.bus.toNat + 256 * x.device.toNat + x.function.toNat
  have hbound : ∀ x, key x < 2 ^ 24 := by
    intro x
    have hb := x.bus.isLt
    have hd := x.device.isLt
    have hf := x.function.isLt
    change 65536 * x.bus.toNat + 256 * x.device.toNat + x.function.toNat < _
    omega
  have hinj : ∀ x y, key x = key y → x = y := by
    intro x y hxy
    have hdx := x.device.isLt
    have hfx := x.function.isLt
    have hdy := y.device.isLt
    have hfy := y.function.isLt
    change 65536 * x.bus.toNat + 256 * x.device.toNat + x.function.toNat =
      65536 * y.bus.toNat + 256 * y.device.toNat + y.function.toNat at hxy
    refine PciDevice.ext ?_ ?_ ?_
    all_goals apply BitVec.eq_of_toNat_eq; omega
  have hsub : (l.map key).toFinset ⊆ Finset.range (2 ^ 24) := by
    intro k hk
    obtain ⟨x, -, rfl⟩ := List.mem_map.mp (List.mem_toFinset.mp hk)
    exact Finset.mem_range.mpr (hbound x)
  have hcard := Finset.card_le_card hsub
  rwa [List.toFinset_card_of_nodup (hl.map hinj), List.length_map, Finset.card_range] at hcard

/-- Below a host bus, the hierarchy is a forest. -/
theorem BridgeForest.forest (hF : BridgeForest cfg) {host : Byte} (hhost : host ∈ hostBuses cfg) :
    Forest (busFunctions cfg) (bridgeTo cfg) host where
  acyclic := hF.acyclic host hhost
  parent m m' x y bus hm hm' hx hy := by
    obtain ⟨rfl, hvx⟩ := mem_busFunctions.mp hx
    obtain ⟨rfl, hvy⟩ := mem_busFunctions.mp hy
    exact hF.parent x y bus hvx hvy ⟨host, hhost, hm⟩ ⟨host, hhost, hm'⟩
  home m m' x _ _ hx hx' := by
    rw [← (mem_busFunctions.mp hx).1, (mem_busFunctions.mp hx').1]
  nodup _ _ := nodup_busFunctions

/-- What a scan of bus 0 finds is complete, when bus 0 is the only host bus. -/
theorem complete_of_scan (hF : BridgeForest cfg) (hhost : hostBuses cfg = [0]) {depth : ℕ}
    {l : List PciDevice} (hl : scan (busFunctions cfg) (bridgeTo cfg) depth 0 = some l) :
    Complete cfg (.of l) := by
  have hnodup : l.Nodup :=
    nodup_scan (hF.forest (by rw [hhost]; exact List.mem_singleton_self 0)) hl
  have hmem : ∀ x, x ∈ l ↔ Reaches (busFunctions cfg) (bridgeTo cfg) 0 x.bus ∧ Visible cfg x := by
    intro x
    rw [mem_scan hl]
    constructor
    · rintro ⟨m, hm, hx⟩
      obtain ⟨rfl, hv⟩ := mem_busFunctions.mp hx
      exact ⟨hm, hv⟩
    · rintro ⟨hm, hv⟩
      exact ⟨x.bus, hm, mem_busFunctions.mpr ⟨rfl, hv⟩⟩
  refine ⟨?_, hnodup, ?_⟩
  · intro x
    change x ∈ l ↔ Visible cfg x ∧ (x.bus ∈ hostBuses cfg ∨ ∃ y ∈ l, bridgeTo cfg y = some x.bus)
    rw [hmem, hhost, List.mem_singleton, and_comm]
    refine and_congr_right fun _ => ⟨?_, ?_⟩
    · -- the bus is bus 0, or the last link on the way to it is a bridge of the list
      intro hreach
      rcases ReflTransGen.cases_tail hreach with h0 | ⟨m, hm, y, hy, hyx⟩
      · exact Or.inl h0
      · obtain ⟨rfl, hv⟩ := mem_busFunctions.mp hy
        exact Or.inr ⟨y, (hmem y).mpr ⟨hm, hv⟩, hyx⟩
    · rintro (h0 | ⟨y, hy, hyx⟩)
      · rw [h0]
      · obtain ⟨hm, hv⟩ := (hmem y).mp hy
        exact hm.tail ⟨y, mem_busFunctions.mpr ⟨rfl, hv⟩, hyx⟩
  · have hle := length_le_of_nodup hnodup
    change (BitVec.ofNat 32 l.length).toNat = l.length
    rw [BitVec.toNat_ofNat]
    omega

/-- **When the PCI scan is complete**, on a forest in which 0:0.0 is present: when 0:0.0 does
not say that it has siblings. -/
theorem pci_scan_complete_iff (hrealloc : ReallocKeeps realloc)
    (hpresent : pciGetVendor cfg 0 0 0 ≠ 0xFFFF) (hF : BridgeForest cfg) :
    (∃ depth, Ends (pciInitialize cfg realloc depth) ∧
        ∀ st, pciInitialize cfg realloc depth = .ok st → Complete cfg st) ↔
      pciGetHeaderType cfg 0 0 0 &&& 0x80 = 0 := by
  have hfinite := finite_byte
  constructor
  · rintro ⟨depth, -, hall⟩
    by_contra hmulti
    -- the loop ends at function 0, which is present: nothing is scanned
    have hscanned : scannedBuses cfg = [] := by
      rw [scannedBuses, if_neg hmulti, List.range'_succ, List.map_cons, List.takeWhile_cons]
      exact if_neg (by simpa using hpresent)
    have hrun : pciInitialize cfg realloc depth = .ok (.of []) := by
      rw [pciInitialize_eq, hscanned]
      rfl
    have hhost : (0 : Byte) ∈ hostBuses cfg := by
      rw [hostBuses, if_neg hmulti, List.range'_succ, List.map_cons, List.takeWhile_cons,
        if_pos (by simpa using hpresent)]
      exact List.mem_cons_self
    have hvisible : Visible cfg ⟨0, 0, 0⟩ := ⟨by decide, by decide, hpresent, Or.inl rfl⟩
    exact List.not_mem_nil (((hall _ hrun).mem ⟨0, 0, 0⟩).mpr ⟨hvisible, Or.inl hhost⟩)
  · intro hsingle
    have hhost : hostBuses cfg = [0] := by rw [hostBuses, if_pos hsingle]
    have hmem : (0 : Byte) ∈ hostBuses cfg := by rw [hhost]; exact List.mem_singleton_self 0
    obtain ⟨depth, l, hl⟩ := exists_scan_iff.mpr (hF.acyclic 0 hmem)
    have hlen := length_le_of_nodup (nodup_scan (hF.forest hmem) hl)
    have hrun : pciInitialize cfg realloc depth = l.foldlM (appendDevice realloc) (.of []) := by
      rw [pciInitialize_eq, scannedBuses, if_pos hsingle, List.foldlM_cons, walk_of_scan hl]
      exact bind_pure _
    refine ⟨depth, ?_, ?_⟩
    · rw [hrun]
      exact ends_foldlM_appendDevice l _
    · intro st hst
      rw [hrun] at hst
      obtain rfl := foldlM_appendDevice hrealloc (by rw [List.length_nil]; omega) hst
      exact complete_of_scan hF hhost hl

end Complete

/-- The first of several host controllers: it says that it has siblings. -/
def firstHost : ConfigSpace := lonelyFunction 0x00 0x06 0x80 0x00

/-- Without a bridge there is only one bus below the host. -/
theorem bridgeForest_of_no_bridge {cfg : ConfigSpace}
    (hno : ∀ x, Visible cfg x → bridgeTo cfg x = none) : BridgeForest cfg where
  acyclic bus _ m _ hcycle := by
    obtain ⟨m', ⟨x, hx, hxm⟩, -⟩ := TransGen.head'_iff.mp hcycle
    rw [hno x (mem_busFunctions.mp hx).2] at hxm
    exact absurd hxm (by simp)
  parent x y bus hx _ _ _ hxb _ := by
    rw [hno x hx] at hxb
    exact absurd hxb (by simp)

theorem bridgeForest_firstHost : BridgeForest firstHost :=
  bridgeForest_of_no_bridge fun _ hx => by
    rw [eq_of_visible_lonelyFunction hx]
    decide

/-- The scan finds nothing, although function 0:0.0 is there. -/
theorem pci_scan_finds_nothing :
    pciGetVendor firstHost 0 0 0 ≠ 0xFFFF ∧ BridgeForest firstHost ∧
      (∀ depth, pciInitialize firstHost roomyRealloc depth = .ok (.of [])) ∧
      ¬ Complete firstHost (.of []) := by
  refine ⟨by decide, bridgeForest_firstHost, ?_, ?_⟩
  · intro depth
    rw [pciInitialize_eq, show scannedBuses firstHost = [] by decide]
    rfl
  · intro hcomplete
    have hlisted := (hcomplete.mem ⟨0, 0, 0⟩).mpr ⟨by decide, Or.inl (by decide)⟩
    exact List.not_mem_nil hlisted

/-- A host controller, a bridge to bus 1, and a function behind it. -/
def bridgedSpace : ConfigSpace := fun bus device function offset =>
  if function = 0 ∧ (bus = 0 ∧ (device = 0 ∨ device = 1) ∨ bus = 1 ∧ device = 0) then
    if offset = 0x0 then 0x86 else if offset = 0x1 then 0x80
    else if offset = 0xA then (if device = 1 then 0x04 else 0x00)
    else if offset = 0xB then (if bus = 0 then 0x06 else 0x02)
    else if offset = 0xE then (if device = 1 then 0x01 else 0x00)
    else if offset = 0x19 then (if device = 1 then 0x01 else 0x00)
    else 0
  else 0xFF

theorem eq_of_visible_bridgedSpace {x : PciDevice} (hx : Visible bridgedSpace x) :
    x = ⟨0, 0, 0⟩ ∨ x = ⟨0, 1, 0⟩ ∨ x = ⟨1, 0, 0⟩ := by
  obtain ⟨device, function, ⟨rfl, hat⟩, hxeq⟩ := @present_of_visible bridgedSpace
    (fun bus device function => function = 0 ∧
      (bus = 0 ∧ (device = 0 ∨ device = 1) ∨ bus = 1 ∧ device = 0))
    (fun _ _ _ _ hne => if_neg hne) x hx
  rcases hat with ⟨hbus, rfl | rfl⟩ | ⟨hbus, rfl⟩
  · exact Or.inl (by rw [hxeq, hbus]; rfl)
  · exact Or.inr (Or.inl (by rw [hxeq, hbus]; rfl))
  · exact Or.inr (Or.inr (by rw [hxeq, hbus]; rfl))

/-- Its one bridge leads from bus 0 to bus 1. -/
theorem bridgeTo_bridgedSpace {x : PciDevice} {bus : Byte} (hx : Visible bridgedSpace x)
    (hbridge : bridgeTo bridgedSpace x = some bus) : x = ⟨0, 1, 0⟩ ∧ bus = 1 := by
  rcases eq_of_visible_bridgedSpace hx with rfl | rfl | rfl
  · exact absurd hbridge (by rw [show bridgeTo bridgedSpace ⟨0, 0, 0⟩ = none by decide]; simp)
  · have hone : bridgeTo bridgedSpace ⟨0, 1, 0⟩ = some 1 := by decide
    exact ⟨rfl, Option.some.inj (hbridge.symm.trans hone)⟩
  · exact absurd hbridge (by rw [show bridgeTo bridgedSpace ⟨1, 0, 0⟩ = none by decide]; simp)

theorem bridgeForest_bridgedSpace : BridgeForest bridgedSpace where
  acyclic bus _ m _ hcycle := by
    have hleads : ∀ a b, Leads (busFunctions bridgedSpace) (bridgeTo bridgedSpace) a b →
        a = 0 ∧ b = 1 := by
      rintro a b ⟨x, hx, hbridge⟩
      obtain ⟨rfl, hv⟩ := mem_busFunctions.mp hx
      obtain ⟨rfl, rfl⟩ := bridgeTo_bridgedSpace hv hbridge
      exact ⟨rfl, rfl⟩
    -- a cycle would lead away from its bus and back to it
    obtain ⟨b, hfirst, -⟩ := TransGen.head'_iff.mp hcycle
    obtain ⟨a, -, hlast⟩ := TransGen.tail'_iff.mp hcycle
    have hone := (hleads _ _ hlast).2
    rw [(hleads _ _ hfirst).1] at hone
    exact absurd hone (by decide)
  parent x y bus hx hy _ _ hxb hyb :=
    (bridgeTo_bridgedSpace hx hxb).1.trans (bridgeTo_bridgedSpace hy hyb).1.symm

theorem pci_scan_complete_iff_sample :
    (∃ depth, Ends (pciInitialize bridgedSpace roomyRealloc depth) ∧
        ∀ st, pciInitialize bridgedSpace roomyRealloc depth = .ok st → Complete bridgedSpace st) ↔
      pciGetHeaderType bridgedSpace 0 0 0 &&& 0x80 = 0 :=
  pci_scan_complete_iff roomyRealloc_keeps (by decide) bridgeForest_bridgedSpace

end MVK
