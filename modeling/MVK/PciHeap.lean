import MVK.AllocatorCalls
import MVK.PciScan

/-!
# The list of PCI devices in the heap

`check_function` grows the list of devices by `realloc`, three bytes at a time, and writes
the new entry behind the others.  Here the scan runs on the memory of the C library's
allocator: what it leaves there is the list that the scan finds, with `realloc` as a
parameter, as an array; and the other objects of the heap are as they were.

## Main definitions

* `appendDeviceIn`, `pciInitializeIn` — the list in memory.
* `ListsDevices` — the array of a list.

## Main results

* `scanPciBuses_of_found` — what a scan finds does not depend on where its list is.
* `ListsDevices.append` — **one entry more.**
* `pci_list_in_heap` — **the scan on the heap.**
-/

namespace MVK

open Allocator ObjectStore Transition PostOrder

/-! ### What is found -/

/-- What is found on some buses, in the order of the scan. -/
def foundOn (cfg : ConfigSpace) (depth : ℕ) : List Byte → Option (List PciDevice)
  | [] => some []
  | bus :: buses => do
    let first ← scan (busFunctions cfg) (bridgeTo cfg) depth bus
    let rest ← foundOn cfg depth buses
    return first ++ rest

/-- **What a scan finds** does not depend on what is done with it. -/
theorem scanPciBuses_of_found {S E : Type} {cfg : ConfigSpace} {depth : ℕ}
    {ds : List PciDevice} (hfound : foundOn cfg depth (scannedBuses cfg) = some ds)
    (append : S → PciDevice → Except E S) (tooDeep : E) (st : S) :
    scanPciBuses cfg append tooDeep depth st = ds.foldlM append st := by
  rw [scanPciBuses_eq]
  generalize scannedBuses cfg = buses at hfound ⊢
  induction buses generalizing ds st with
  | nil =>
    obtain rfl := Option.some.inj hfound
    rfl
  | cons bus buses ih =>
    unfold foundOn at hfound
    simp only [Option.bind_eq_bind, Option.bind_eq_some_iff] at hfound
    obtain ⟨first, hfirst, rest, hrest, hds⟩ := hfound
    obtain rfl := Option.some.inj hds
    rw [List.foldlM_cons, walk_of_scan hfirst, List.foldlM_append]
    exact bind_congr fun st => ih st hrest

/-! ### The list in memory -/

/-- Why the scan with its list in the heap does not return: it stops with a text, needs more
calls at a time than there may be, or a call of `realloc` does not return. -/
inductive HeapHalt
  | abort (msg : String)
  | depth
  | hangs

/-- `pci_connected_devices` and `pci_connected_devices_length`, and the heap. -/
structure PciHeap (σ : Type) where
  heap : Allocator σ
  connectedDevices : Word
  connectedDevicesLength : Word

section Memory

variable {σ : Type} (src : PageSource σ) (fuel : ℕ)

/-- The end of `check_function`: one more entry. -/
def appendDeviceIn (st : PciHeap σ) (dev : PciDevice) : Except HeapHalt (PciHeap σ) :=
  let length := st.connectedDevicesLength + 1
  match st.heap.realloc src fuel st.connectedDevices (length * 3) with
  | none => .error .hangs
  | some (ptr, heap) =>
    if ptr = 0 then .error (.abort "ERROR: Couldn't allocate PCI devices list!")
    else
      let entry := ptr + (length - 1) * 3
      let mem := Function.update heap.mem entry dev.bus
      let mem := Function.update mem (entry + 1) dev.device
      let mem := Function.update mem (entry + 2) dev.function
      .ok { heap := { heap with mem }, connectedDevices := ptr, connectedDevicesLength := length }

/-- `pci_initialize`. -/
def pciInitializeIn (cfg : ConfigSpace) (depth : ℕ) (heap : Allocator σ) :
    Except HeapHalt (PciHeap σ) :=
  scanPciBuses cfg (appendDeviceIn src fuel) .depth depth
    { heap, connectedDevices := 0, connectedDevicesLength := 0 }

end Memory

/-- The bytes of a list of devices. -/
def deviceBytes (ds : List PciDevice) : List Byte :=
  ds.flatMap fun d => [d.bus, d.device, d.function]

/-- The objects `objs`, and the array of the list. -/
def withDevices (objs : Objects Word Byte) (ptr : Word) (ds : List PciDevice) : Objects Word Byte :=
  if ds = [] then objs else Function.update objs ptr (some ((deviceBytes ds).map some))

/-- **The list is an array in the heap**, beside the objects `objs`. -/
structure ListsDevices {σ : Type} (lent : σ → Multiset PageRange → Prop) (objs : Objects Word Byte)
    (st : PciHeap σ) (ds : List PciDevice) : Prop where
  length : st.connectedDevicesLength = BitVec.ofNat 32 ds.length
  null : ds = [] → st.connectedDevices = 0
  pointer : ds ≠ [] → st.connectedDevices ≠ 0 ∧ objs st.connectedDevices = none
  heap : Represents lent st.heap (withDevices objs st.connectedDevices ds)

@[simp] theorem length_deviceBytes (ds : List PciDevice) :
    (deviceBytes ds).length = 3 * ds.length := by
  simp [deviceBytes, List.length_flatMap, Nat.mul_comm]

theorem deviceBytes_append (ds : List PciDevice) (x : PciDevice) :
    deviceBytes (ds ++ [x]) = deviceBytes ds ++ [x.bus, x.device, x.function] := by
  simp [deviceBytes]

section Append

variable {σ : Type} {lent : σ → Multiset PageRange → Prop} {src : PageSource σ} {fuel : ℕ}
  {objs : Objects Word Byte} {ds : List PciDevice}

/-- Three bytes of an object. -/
theorem Represents.store_three {s : Allocator σ} {p : Word} {L : List (Option Byte)} {b d f : Byte}
    (h : Represents lent s (Function.update objs p (some (L ++ List.replicate 3 none))))
    {entry : Word} (hentry : entry = p + BitVec.ofNat 32 L.length) {mem : Memory}
    (hmem : mem = Function.update (Function.update (Function.update s.mem entry b) (entry + 1) d)
      (entry + 2) f) :
    Represents lent { s with mem }
      (Function.update objs p (some (L ++ [some b, some d, some f]))) := by
  have hstore : ∀ {s : Allocator σ} {bytes : List (Option Byte)} (i : ℕ) (v : Byte),
      Represents lent s (Function.update objs p (some bytes)) → i < bytes.length →
      Represents lent { s with mem := Function.update s.mem (p + BitVec.ofNat 32 i) v }
        (Function.update objs p (some (bytes.set i (some v)))) := by
    rintro s bytes i v ⟨U, hU⟩ hi
    have hrep := hU.refinesStore (v := v) (Function.update_self ..) hi
    rwa [ObjectEvent.after, Function.update_self, Option.map_some, Function.update_idem] at hrep
  have hnext : ∀ k, entry + BitVec.ofNat 32 k = p + BitVec.ofNat 32 (L.length + k) := by
    intro k
    rw [hentry, BitVec.add_assoc, ← BitVec.ofNat_add]
  have hset : (((L ++ List.replicate 3 none).set L.length (some b)).set (L.length + 1)
      (some d)).set (L.length + 2) (some f) = L ++ [some b, some d, some f] := by
    simp [List.replicate]
  have h₁ := hstore L.length b h (by simp)
  have h₂ := hstore (L.length + 1) d h₁ (by simp)
  have h₃ := hstore (L.length + 2) f h₂ (by simp)
  rw [hset, ← hentry, ← hnext 1, ← hnext 2] at h₃
  rw [hmem]
  exact h₃

/-- The block after `realloc`: the entries, and three bytes more. -/
theorem ListsDevices.grow {st : PciHeap σ} (h : ListsDevices lent objs st ds)
    (hsrc : src.Honest lent) (hfuel : 2 ^ 32 < fuel) (hsize : 3 * (ds.length + 1) + 32 < 2 ^ 32)
    {size ptr : Word} (hbytes : size.toNat = 3 * (ds.length + 1)) {heap : Allocator σ}
    (hrealloc : st.heap.realloc src fuel st.connectedDevices size = some (ptr, heap))
    (hptr : ptr ≠ 0) :
    objs ptr = none ∧ Represents lent heap (Function.update objs ptr
      (some ((deviceBytes ds).map some ++ List.replicate 3 none))) := by
  have hfits : size.toNat + 32 < 2 ^ 32 := by omega
  have hne : size ≠ 0 := by
    rintro rfl
    have hzero : (0 : Word).toNat = 0 := rfl
    omega
  obtain ⟨U, hU⟩ := h.heap
  by_cases hnil : ds = []
  · -- the first entry: `realloc` of `NULL`
    rw [Allocator.realloc, if_neg hne, if_pos (h.null hnil)] at hrealloc
    have hrefines := hU.refinesMalloc hsrc hfuel hfits hrealloc
    rw [withDevices, if_pos hnil, if_neg hptr, hbytes] at hrefines
    subst hnil
    exact ⟨hrefines.1.1, hrefines.2⟩
  · obtain ⟨-, hfresh⟩ := h.pointer hnil
    rw [withDevices, if_neg hnil] at hU
    have hrefines := hU.refinesRealloc hsrc hfuel hfits hne (Function.update_self ..) hrealloc
    rw [if_neg hptr] at hrefines
    obtain ⟨hgranted, hafter⟩ := hrefines
    have hapart : ptr ≠ st.connectedDevices := by
      rintro rfl
      have hnone := hgranted.1
      rw [Function.update_self] at hnone
      cases hnone
    have hresized : resized size.toNat ((deviceBytes ds).map some) =
        (deviceBytes ds).map some ++ List.replicate 3 none := by
      rw [resized, List.length_map, length_deviceBytes, List.take_of_length_le, hbytes]
      · congr 2
        omega
      · rw [List.length_map, length_deviceBytes]
        omega
    have hold : Function.update (Function.update objs st.connectedDevices
        (some ((deviceBytes ds).map some))) st.connectedDevices none = objs := by
      rw [Function.update_idem]
      exact Function.update_eq_self_iff.mpr hfresh.symm
    rw [ObjectEvent.after, Function.update_self, Option.map_some, hresized, hold] at hafter
    have hclear := hgranted.1
    rw [Function.update_of_ne hapart] at hclear
    exact ⟨hclear, hafter⟩

/-- **One entry more.** -/
theorem ListsDevices.append {st st' : PciHeap σ} (h : ListsDevices lent objs st ds)
    (hsrc : src.Honest lent) (hfuel : 2 ^ 32 < fuel) (hsize : 3 * (ds.length + 1) + 32 < 2 ^ 32)
    {x : PciDevice} (happend : appendDeviceIn src fuel st x = .ok st') :
    ListsDevices lent objs st' (ds ++ [x]) := by
  have hlength : st.connectedDevicesLength + 1 = BitVec.ofNat 32 (ds.length + 1) := by
    rw [h.length]
    exact (BitVec.ofNat_add ds.length 1).symm
  have hbytes : (BitVec.ofNat 32 (ds.length + 1) * 3).toNat = 3 * (ds.length + 1) := by
    rw [BitVec.toNat_mul, BitVec.toNat_ofNat, show (3 : Word).toNat = 3 from rfl]
    omega
  have hoffset : (BitVec.ofNat 32 (ds.length + 1) - 1) * 3 = BitVec.ofNat 32 (3 * ds.length) := by
    rw [← hlength, h.length, BitVec.add_sub_cancel]
    refine BitVec.eq_of_toNat_eq ?_
    rw [BitVec.toNat_mul, BitVec.toNat_ofNat, BitVec.toNat_ofNat,
      show (3 : Word).toNat = 3 from rfl]
    omega
  unfold appendDeviceIn at happend
  dsimp only at happend
  rw [hlength] at happend
  cases hrealloc : st.heap.realloc src fuel st.connectedDevices
      (BitVec.ofNat 32 (ds.length + 1) * 3) with
  | none =>
    rw [hrealloc] at happend
    cases happend
  | some found =>
    obtain ⟨ptr, heap⟩ := found
    rw [hrealloc] at happend
    dsimp only at happend
    split at happend
    · cases happend
    · next hptr =>
      obtain rfl := Except.ok.inj happend
      -- the block has room for the new entry behind the others
      obtain ⟨hclear, hgrown⟩ : objs ptr = none ∧ Represents lent heap (Function.update objs ptr
          (some ((deviceBytes ds).map some ++ List.replicate 3 none))) :=
        h.grow hsrc hfuel hsize hbytes hrealloc hptr
      have hentry : ptr + (BitVec.ofNat 32 (ds.length + 1) - 1) * 3 =
          ptr + BitVec.ofNat 32 ((deviceBytes ds).map some).length := by
        rw [hoffset, List.length_map, length_deviceBytes]
      have hstored := hgrown.store_three (b := x.bus) (d := x.device) (f := x.function) hentry rfl
      refine ⟨?_, fun hnil => absurd hnil (by simp), fun _ => ⟨hptr, hclear⟩, ?_⟩
      · rw [List.length_append, List.length_singleton]
      · rw [withDevices, if_neg (by simp), deviceBytes_append, List.map_append]
        exact hstored

/-- **A list more.** -/
theorem ListsDevices.foldlM {st st' : PciHeap σ} {xs : List PciDevice}
    (h : ListsDevices lent objs st ds) (hsrc : src.Honest lent) (hfuel : 2 ^ 32 < fuel)
    (hsize : 3 * (ds.length + xs.length) + 32 < 2 ^ 32)
    (happend : xs.foldlM (appendDeviceIn src fuel) st = .ok st') :
    ListsDevices lent objs st' (ds ++ xs) := by
  induction xs generalizing ds st with
  | nil =>
    obtain rfl := Except.ok.inj happend
    rwa [List.append_nil]
  | cons x xs ih =>
    rw [List.length_cons] at hsize
    rw [List.foldlM_cons, bind_eq_ok] at happend
    obtain ⟨st₁, hfirst, hrest⟩ := happend
    have hlists := ih (h.append hsrc hfuel (by omega) hfirst)
      (by rw [List.length_append, List.length_singleton]; omega) hrest
    rwa [List.append_assoc, List.singleton_append] at hlists

/-- Entry `i` of the array. -/
def deviceAt (mem : Memory) (ptr : Word) (i : ℕ) : PciDevice where
  bus := mem (ptr + BitVec.ofNat 32 (3 * i))
  device := mem (ptr + BitVec.ofNat 32 (3 * i + 1))
  function := mem (ptr + BitVec.ofNat 32 (3 * i + 2))

theorem deviceBytes_getElem? {i k : ℕ} (hi : i < ds.length) (hk : k < 3) :
    (deviceBytes ds)[3 * i + k]? = [ds[i].bus, ds[i].device, ds[i].function][k]? := by
  induction ds generalizing i with
  | nil => exact absurd hi (Nat.not_lt_zero i)
  | cons d ds ih =>
    have hcons : deviceBytes (d :: ds) = [d.bus, d.device, d.function] ++ deviceBytes ds := rfl
    rw [hcons]
    cases i with
    | zero =>
      rw [Nat.mul_zero, Nat.zero_add, List.getElem?_append_left hk]
      rfl
    | succ i =>
      rw [List.getElem?_append_right (by simp only [List.length_cons, List.length_nil]; omega)]
      have hback : 3 * (i + 1) + k - [d.bus, d.device, d.function].length = 3 * i + k := by
        simp only [List.length_cons, List.length_nil]
        omega
      rw [hback, ih (by simpa using hi)]
      rfl

/-- The array in memory holds the list. -/
theorem ListsDevices.deviceAt {st : PciHeap σ} (h : ListsDevices lent objs st ds) {i : ℕ}
    (hi : i < ds.length) : MVK.deviceAt st.heap.mem st.connectedDevices i = ds[i] := by
  obtain ⟨U, hU⟩ := h.heap
  have hne : ds ≠ [] := List.ne_nil_of_length_pos (Nat.lt_of_le_of_lt (Nat.zero_le i) hi)
  have hobj : withDevices objs st.connectedDevices ds st.connectedDevices =
      some ((deviceBytes ds).map some) := by
    rw [withDevices, if_neg hne, Function.update_self]
  obtain ⟨b, hb, hbp⟩ := hU.block _ _ hobj
  obtain ⟨-, -, hknown⟩ := hU.known hb (fun _ _ => rfl) ((congrArg _ hbp).trans hobj)
  rw [← hbp]
  have hbyte : ∀ k v, k < 3 → [ds[i].bus, ds[i].device, ds[i].function][k]? = some v →
      st.heap.mem (b.address + BitVec.ofNat 32 (3 * i + k)) = v := by
    intro k v hk hv
    refine hknown (3 * i + k) v ?_
    rw [List.getElem?_map, deviceBytes_getElem? hi hk, hv]
    rfl
  exact PciDevice.ext (hbyte 0 _ (by decide) rfl) (hbyte 1 _ (by decide) rfl)
    (hbyte 2 _ (by decide) rfl)

end Append

/-- **The scan on the heap.**  When it returns, the list that the scan finds is an array in
the heap, the same that the scan of lists gives, and the objects that were there are as they
were. -/
theorem pci_list_in_heap {σ : Type} {lent : σ → Multiset PageRange → Prop} {src : PageSource σ}
    {fuel depth : ℕ} {cfg : ConfigSpace} {heap : Allocator σ} {objs : Objects Word Byte}
    {ds : List PciDevice} {st : PciHeap σ} (hsrc : src.Honest lent) (hfuel : 2 ^ 32 < fuel)
    (hfound : foundOn cfg depth (scannedBuses cfg) = some ds)
    (hsize : 3 * ds.length + 32 < 2 ^ 32) (hrep : Represents lent heap objs)
    (hscan : pciInitializeIn src fuel cfg depth heap = .ok st) :
    pciInitialize cfg roomyRealloc depth = .ok (.of ds) ∧ ListsDevices lent objs st ds ∧
      ∀ i (hi : i < ds.length), deviceAt st.heap.mem st.connectedDevices i = ds[i] := by
  have hstart : ListsDevices lent objs ⟨heap, 0, 0⟩ [] :=
    ⟨rfl, fun _ => rfl, fun hne => absurd rfl hne, hrep⟩
  rw [pciInitializeIn, scanPciBuses_of_found hfound] at hscan
  have hlists := hstart.foldlM hsrc hfuel (by rw [List.length_nil]; omega) hscan
  rw [List.nil_append] at hlists
  refine ⟨?_, hlists, fun i hi => hlists.deviceAt hi⟩
  rw [pciInitialize, scanPciBuses_of_found hfound]
  cases hroomy : ds.foldlM (appendDevice roomyRealloc) (.of []) with
  | ok st' =>
    have hlist := foldlM_appendDevice roomyRealloc_keeps (by rw [List.length_nil]; omega) hroomy
    exact hroomy.trans (by rw [hlist, List.nil_append])
  | error err =>
    have hnever : ∀ e, err = e := fun e => foldlM_error (fun st x err herr => by
      obtain ⟨st', hst'⟩ := appendDevice_total roomyRealloc_ne_none st x
      rw [hst'] at herr
      cases herr) hroomy
    cases (hnever .depth).symm.trans (hnever outOfMemory)

/-- A page source that lends regions one after the other, 1 MiB apart, and takes none back. -/
def regionsInTurn : PageSource (List PageRange) where
  liballocAlloc n lent mem :=
    if lent.length < 8 ∧ n.toNat ≤ 256 then
      some (BitVec.ofNat 32 (0x100000 * (lent.length + 1)),
        ⟨BitVec.ofNat 32 (0x100000 * (lent.length + 1)), n⟩ :: lent, mem)
    else some (0, lent, mem)
  liballocFree _ _ _ _ := none

def LentInTurn (p : List PageRange) (ranges : Multiset PageRange) : Prop :=
  p.length ≤ 8 ∧ ranges = p ∧ ∀ r ∈ ranges, r.stop ≤ 0x100000 * (p.length + 1)

theorem regionsInTurn_honest : regionsInTurn.Honest LentInTurn where
  alloc := by
    rintro n p mem base p' mem' ranges ⟨hlength, rfl, hbelow⟩ hcall
    dsimp only [regionsInTurn] at hcall
    split at hcall
    · next hfits =>
      simp only [Option.some.injEq, Prod.mk.injEq] at hcall
      obtain ⟨rfl, rfl, rfl⟩ := hcall
      have hbase : (BitVec.ofNat 32 (0x100000 * (p.length + 1))).toNat =
          0x100000 * (p.length + 1) := by
        rw [BitVec.toNat_ofNat]
        omega
      refine ⟨fun _ _ _ _ _ => rfl, Or.inr ⟨fun h0 => ?_, ?_, fun r hr => ?_, ?_, rfl, ?_⟩⟩
      · rw [h0, toNat_zero_word] at hbase
        omega
      · change (BitVec.ofNat 32 _).toNat + 4096 * n.toNat ≤ 2 ^ 32
        omega
      · exact Or.inr ((hbelow r hr).trans hbase.ge)
      · rw [List.length_cons]
        omega
      · intro r hr
        rw [List.length_cons]
        rcases Multiset.mem_cons.mp hr with rfl | hr
        · change (BitVec.ofNat 32 _).toNat + 4096 * n.toNat ≤ _
          omega
        · exact (hbelow r hr).trans (by omega)
    · simp only [Option.some.injEq, Prod.mk.injEq] at hcall
      obtain ⟨rfl, rfl, rfl⟩ := hcall
      exact ⟨fun _ _ _ _ _ => rfl, Or.inl ⟨rfl, hlength, rfl, hbelow⟩⟩
  free := by
    intro r p mem p' mem' ranges _ hcall
    cases hcall

/-- The allocator as it starts on them. -/
def unused : Allocator (List PageRange) where
  mem _ := 0
  pages := []
  flags := ⟨true, []⟩
  freePages _ := 0
  completePages _ := 0
  initialized := 0

/-- The list of three functions is moved twice as it grows, and the object at `0x100020`
stays. -/
theorem pci_list_in_heap_sample :
    ∃ heap st, unused.calloc regionsInTurn (2 ^ 32 + 1) 3 1 = some (0x100020, heap) ∧
      pciInitializeIn regionsInTurn (2 ^ 32 + 1) bridgedSpace 2 heap = .ok st ∧
      ListsDevices LentInTurn
        (Function.update (fun _ => none) 0x100020 (some (List.replicate 3 (some 0)))) st
        [⟨0, 0, 0⟩, ⟨1, 0, 0⟩, ⟨0, 1, 0⟩] ∧
      deviceAt st.heap.mem st.connectedDevices 1 = ⟨1, 0, 0⟩ := by
  have hfound : foundOn bridgedSpace 2 (scannedBuses bridgedSpace) =
      some [⟨0, 0, 0⟩, ⟨1, 0, 0⟩, ⟨0, 1, 0⟩] := by decide +kernel
  have hfst : (unused.calloc regionsInTurn (2 ^ 32 + 1) 3 1).map Prod.fst = some 0x100020 := by
    decide +kernel
  obtain ⟨⟨p, heap⟩, hc, rfl⟩ := Option.map_eq_some_iff.mp hfst
  have hok : ((unused.calloc regionsInTurn (2 ^ 32 + 1) 3 1).map fun found =>
      (pciInitializeIn regionsInTurn (2 ^ 32 + 1) bridgedSpace 2 found.2).isOk) = some true := by
    decide +kernel
  rw [hc, Option.map_some, Option.some.injEq] at hok
  have hrep := ((AllocatorStep.calloc hc).refines regionsInTurn_honest (by decide)
    (.start rfl ⟨by decide, rfl, fun r hr => absurd hr (Multiset.notMem_zero r)⟩)
    ⟨show (3 * 1 : Word).toNat + 32 < 2 ^ 32 by decide, trivial⟩).2
  cases hscan : pciInitializeIn regionsInTurn (2 ^ 32 + 1) bridgedSpace 2 heap with
  | error err =>
    rw [hscan] at hok
    cases hok
  | ok st =>
    obtain ⟨-, hlists, hat⟩ := pci_list_in_heap regionsInTurn_honest (by decide) hfound (by decide)
      hrep hscan
    exact ⟨heap, st, hc, hscan, hlists, hat 1 (by decide)⟩

end MVK
