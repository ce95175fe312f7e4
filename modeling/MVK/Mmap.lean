import MVK.Paging

/-!
# The free region of the memory map

`mmap_initialize` takes the largest available entry of the boot loader's memory map,
cuts the kernel image off its front, and rounds the rest to whole pages.  Entries have
64-bit addresses; the region's base is a 32-bit pointer, and the subtractions are
unsigned.  So the region it leaves is inside available memory only for some maps.

## Main definitions

* `mmapInitialize` — the code.
* `WithinAvailable` — the region lies in one available entry, or is empty.
* `Selected`, `trim` — the entry the code picks, and how much of its front goes.
* `TrimFits` — the maps for which that is sound.
* `OthersShorter` — the maps where no second entry can hold the region by accident.

## Main results

* `findLargest_spec` — the loop picks the first entry of the greatest length.
* `mmapInitialize_aligned` — the region is made of whole pages.
* `mmap_within_available` — **when the region is available memory.**
-/

namespace MVK

open Translation

/-! ### The code -/

/-- A `multiboot_memory_map_t`, packed into 24 bytes. -/
structure MultibootMmapEntry where
  addrLow : Word
  addrHigh : Word
  lenLow : Word
  lenHigh : Word
  type : Word

def multibootMemoryAvailable : Word := 1

/-- What `mmap_initialize` reads of the multiboot information: the flags, the size in
bytes of the memory map, and the map that `mmap_addr` points to. -/
structure MultibootInfo where
  flags : Word
  mmapLength : Word
  mmap : ℕ → MultibootMmapEntry

/-- The kernel image: `_kernel_start` is `0xC0000000`, and `_kernel_end` comes after. -/
structure KernelImage where
  kernelEnd : Word
  start_lt_end : kernelAddress < kernelEnd

/-- `mmap_length`: the number of entries. -/
def MultibootInfo.entries (mbi : MultibootInfo) : ℕ := (mbi.mmapLength / 24).toNat

/-- The body of the loop over the entries. -/
def considerEntry (r : FreeRegion) (entry : MultibootMmapEntry) : FreeRegion :=
  if entry.type = multibootMemoryAvailable then
    let entry_length := entry.lenLow.setWidth 64 ||| entry.lenHigh.setWidth 64 <<< 32
    -- of equally long entries the first stays; the pointer drops `addr_high`
    if r.mmapFreeMemoryLength < entry_length then
      { mmapFreeMemory := entry.addrLow, mmapFreeMemoryLength := entry_length }
    else r
  else r

/-- The loop over the first `n` entries; the two globals start at zero. -/
def findLargest (mmap : ℕ → MultibootMmapEntry) : ℕ → FreeRegion
  | 0 => { mmapFreeMemory := null, mmapFreeMemoryLength := 0 }
  | n + 1 => considerEntry (findLargest mmap n) (mmap n)

/-- `Make sure we don't overlap with the kernel`. -/
def cutKernel (image : KernelImage) (r : FreeRegion) : FreeRegion :=
  -- the image starts at physical address 0, so the second comparison always holds
  if r.mmapFreeMemory < kernelToPhys image.kernelEnd ∧
      (r.mmapFreeMemory.setWidth 64 + r.mmapFreeMemoryLength).setWidth 32 ≥
        kernelToPhys kernelAddress then
    let prev_pointer := r.mmapFreeMemory
    let mmap_free_memory := kernelToPhys image.kernelEnd
    { mmapFreeMemory := mmap_free_memory
      mmapFreeMemoryLength :=
        r.mmapFreeMemoryLength - (mmap_free_memory - prev_pointer).setWidth 64 }
  else r

/-- `Align the region to the page boundary`: the base up. -/
def alignBase (r : FreeRegion) : FreeRegion :=
  let pointer_alignment := r.mmapFreeMemory % pageSize
  if pointer_alignment ≠ 0 then
    let prev_pointer := r.mmapFreeMemory
    let mmap_free_memory := r.mmapFreeMemory + (pageSize - pointer_alignment)
    { mmapFreeMemory := mmap_free_memory
      mmapFreeMemoryLength :=
        r.mmapFreeMemoryLength - (mmap_free_memory - prev_pointer).setWidth 64 }
  else r

/-- And the length down. -/
def alignLength (r : FreeRegion) : FreeRegion :=
  let length_alignment : Word := (r.mmapFreeMemoryLength % pageSize.setWidth 64).setWidth 32
  { r with mmapFreeMemoryLength := r.mmapFreeMemoryLength - length_alignment.setWidth 64 }

/-- `mmap_initialize`. -/
def mmapInitialize (image : KernelImage) (mbi : MultibootInfo) : Except Stop FreeRegion :=
  if ¬ checkFlag mbi.flags 6 then .error (.abort " FAILED")
  else if mbi.mmapLength ≠ 0 then
    .ok (alignLength (alignBase (cutKernel image (findLargest mbi.mmap mbi.entries))))
  else .error (.abort " FAILED")

/-! ### The map in numbers -/

namespace MultibootMmapEntry

/-- The 64-bit base of an entry. -/
def base (e : MultibootMmapEntry) : ℕ := 2 ^ 32 * e.addrHigh.toNat + e.addrLow.toNat

/-- The 64-bit length of an entry. -/
def length (e : MultibootMmapEntry) : ℕ := 2 ^ 32 * e.lenHigh.toNat + e.lenLow.toNat

def Available (e : MultibootMmapEntry) : Prop := e.type = multibootMemoryAvailable

instance (e : MultibootMmapEntry) : Decidable e.Available :=
  inferInstanceAs (Decidable (_ = _))

theorem toNat_length (e : MultibootMmapEntry) :
    (e.lenLow.setWidth 64 ||| e.lenHigh.setWidth 64 <<< 32).toNat = e.length := by
  have hlow := e.lenLow.isLt
  have hhigh := e.lenHigh.isLt
  have hshift : (e.lenHigh.setWidth 64 <<< 32).toNat = 2 ^ 32 * e.lenHigh.toNat := by
    rw [BitVec.toNat_shiftLeft, BitVec.toNat_setWidth, Nat.shiftLeft_eq]
    omega
  rw [BitVec.toNat_or, hshift, BitVec.toNat_setWidth, Nat.mod_eq_of_lt (by omega), Nat.or_comm,
    ← Nat.two_pow_add_eq_or_of_lt hlow, length]

theorem length_lt (e : MultibootMmapEntry) : e.length < 2 ^ 64 := by
  rw [← e.toNat_length]
  exact BitVec.isLt _

end MultibootMmapEntry

open MultibootMmapEntry

/-- The region is empty, or part of one available entry. -/
def WithinAvailable (mbi : MultibootInfo) (r : FreeRegion) : Prop :=
  r.mmapFreeMemoryLength.toNat = 0 ∨
    ∃ i, i < mbi.entries ∧ (mbi.mmap i).Available ∧
      (mbi.mmap i).base ≤ r.mmapFreeMemory.toNat ∧
      r.mmapFreeMemory.toNat + r.mmapFreeMemoryLength.toNat ≤
        (mbi.mmap i).base + (mbi.mmap i).length

instance (mbi : MultibootInfo) (r : FreeRegion) : Decidable (WithinAvailable mbi r) :=
  inferInstanceAs (Decidable (_ ∨ _))

/-- Entry `i` is the first of the first `n` available entries with the greatest length,
and not empty. -/
structure Selected (mmap : ℕ → MultibootMmapEntry) (n i : ℕ) : Prop where
  lt : i < n
  available : (mmap i).Available
  pos : 0 < (mmap i).length
  greatest : ∀ j, j < n → (mmap j).Available → (mmap j).length ≤ (mmap i).length
  first : ∀ j, j < i → (mmap j).Available → (mmap j).length < (mmap i).length

/-- There is only one such entry. -/
theorem Selected.unique {mmap : ℕ → MultibootMmapEntry} {n i i' : ℕ} (h : Selected mmap n i)
    (h' : Selected mmap n i') : i' = i := by
  rcases Nat.lt_trichotomy i' i with hlt | heq | hgt
  · have h1 := h.first i' hlt h'.available
    have h2 := h'.greatest i h.lt h.available
    omega
  · exact heq
  · have h1 := h'.first i hgt h.available
    have h2 := h.greatest i' h'.lt h'.available
    omega

/-- An available entry longer than the region so far replaces it. -/
theorem considerEntry_of_lt {r : FreeRegion} {e : MultibootMmapEntry} (hav : e.Available)
    (hlt : r.mmapFreeMemoryLength.toNat < e.length) :
    (considerEntry r e).mmapFreeMemory = e.addrLow ∧
      (considerEntry r e).mmapFreeMemoryLength.toNat = e.length := by
  have hav' : e.type = multibootMemoryAvailable := hav
  have hlt' : r.mmapFreeMemoryLength <
      e.lenLow.setWidth 64 ||| e.lenHigh.setWidth 64 <<< 32 := by
    rw [BitVec.lt_def, toNat_length]
    exact hlt
  simp only [considerEntry, if_pos hav', if_pos hlt', toNat_length, and_self]

/-- Any other entry leaves the region. -/
theorem considerEntry_of_le {r : FreeRegion} {e : MultibootMmapEntry}
    (h : e.Available → e.length ≤ r.mmapFreeMemoryLength.toNat) : considerEntry r e = r := by
  unfold considerEntry
  split
  · next hav =>
    have hle := h hav
    have hlt : ¬ r.mmapFreeMemoryLength <
        e.lenLow.setWidth 64 ||| e.lenHigh.setWidth 64 <<< 32 := by
      rw [BitVec.lt_def, toNat_length]
      omega
    exact if_neg hlt
  · rfl

/-- **The loop picks the selected entry**, and keeps the low half of its base; without a
non-empty available entry, it keeps the empty region at 0. -/
theorem findLargest_spec (mmap : ℕ → MultibootMmapEntry) (n : ℕ) :
    (∃ i, Selected mmap n i ∧ (findLargest mmap n).mmapFreeMemory = (mmap i).addrLow ∧
      (findLargest mmap n).mmapFreeMemoryLength.toNat = (mmap i).length) ∨
    ((∀ j, j < n → (mmap j).Available → (mmap j).length = 0) ∧
      (findLargest mmap n).mmapFreeMemory = null ∧
      (findLargest mmap n).mmapFreeMemoryLength.toNat = 0) := by
  induction n with
  | zero => exact Or.inr ⟨fun j hj => absurd hj (by omega), rfl, rfl⟩
  | succ n ih =>
    rw [findLargest]
    -- a bound on the entries so far is a bound on all but the new one
    have hall : ∀ l, (∀ j, j < n → (mmap j).Available → (mmap j).length ≤ l) →
        ((mmap n).Available → (mmap n).length ≤ l) →
        ∀ j, j < n + 1 → (mmap j).Available → (mmap j).length ≤ l := by
      intro l hold hnew j hj hav
      rcases Nat.lt_succ_iff_lt_or_eq.mp hj with hj | rfl
      · exact hold j hj hav
      · exact hnew hav
    rcases ih with ⟨i, hsel, hbase, hlen⟩ | ⟨hnone, hbase, hlen⟩
    · have hin := hsel.lt
      -- the new entry wins only if it is longer: the selected one is the first of its length
      by_cases hnew : (mmap n).Available ∧ (mmap i).length < (mmap n).length
      · refine Or.inl ⟨n, ⟨by omega, hnew.1, by omega, ?_, ?_⟩,
          considerEntry_of_lt hnew.1 (by omega)⟩
        · exact hall _ (fun j hj hav => (hsel.greatest j hj hav).trans hnew.2.le) fun _ => le_rfl
        · intro j hj hav
          exact (hsel.greatest j hj hav).trans_lt hnew.2
      · have hle : (mmap n).Available → (mmap n).length ≤ (mmap i).length := fun hav =>
          Nat.le_of_not_lt fun hlt => hnew ⟨hav, hlt⟩
        rw [considerEntry_of_le fun hav => hlen ▸ hle hav]
        exact Or.inl ⟨i, ⟨by omega, hsel.available, hsel.pos, hall _ hsel.greatest hle,
          hsel.first⟩, hbase, hlen⟩
    · by_cases hnew : (mmap n).Available ∧ 0 < (mmap n).length
      · refine Or.inl ⟨n, ⟨by omega, hnew.1, hnew.2, ?_, ?_⟩,
          considerEntry_of_lt hnew.1 (by omega)⟩
        · exact hall _ (fun j hj hav => by rw [hnone j hj hav]; omega) fun _ => le_rfl
        · intro j hj hav
          rw [hnone j hj hav]
          exact hnew.2
      · have hle : (mmap n).Available → (mmap n).length ≤ 0 := fun hav =>
          Nat.le_of_not_lt fun hlt => hnew ⟨hav, hlt⟩
        rw [considerEntry_of_le fun hav => hlen ▸ hle hav]
        refine Or.inr ⟨fun j hj hav => Nat.le_zero.mp ?_, hbase, hlen⟩
        exact hall 0 (fun j hj hav => (hnone j hj hav).le) hle j hj hav

/-! ### The trimming in numbers -/

/-- The physical end of the kernel image. -/
def KernelImage.physEnd (image : KernelImage) : ℕ := image.kernelEnd.toNat - 0xC0000000

/-- How much of the front of a region at `b` lies under the kernel. -/
def kernelCut (image : KernelImage) (b : ℕ) : ℕ := image.physEnd - b

/-- How far `b` is from the next page boundary. -/
def pageGap (b : ℕ) : ℕ := (4096 - b % 4096) % 4096

/-- How much of the front of a region at `b` goes: the kernel, and the rest of its page. -/
def trim (image : KernelImage) (b : ℕ) : ℕ :=
  kernelCut image b + pageGap (b + kernelCut image b)

theorem KernelImage.toNat_end (image : KernelImage) :
    (kernelToPhys image.kernelEnd).toNat = image.physEnd ∧ 0 < image.physEnd ∧
      image.physEnd < 2 ^ 30 := by
  have hlt := image.kernelEnd.isLt
  have hpos := image.start_lt_end
  rw [BitVec.lt_def, show kernelAddress.toNat = 3221225472 from rfl] at hpos
  have hsub : (kernelToPhys image.kernelEnd).toNat = image.kernelEnd.toNat - 3221225472 := by
    rw [kernelToPhys, BitVec.toNat_sub, show kernelAddress.toNat = 3221225472 from rfl]
    omega
  unfold KernelImage.physEnd
  exact ⟨hsub, by omega, by omega⟩

theorem pageGap_lt (b : ℕ) : pageGap b < 4096 := Nat.mod_lt _ (by decide)

theorem kernelCut_lt (image : KernelImage) (b : ℕ) : kernelCut image b < 2 ^ 30 := by
  have hend := image.toNat_end.2.2
  unfold kernelCut
  omega

theorem trim_lt (image : KernelImage) (b : ℕ) : trim image b < 2 ^ 31 := by
  have hcut := kernelCut_lt image b
  have hgap := pageGap_lt (b + kernelCut image b)
  unfold trim
  omega

theorem cutKernel_spec (image : KernelImage) (r : FreeRegion) :
    (cutKernel image r).mmapFreeMemory.toNat =
      r.mmapFreeMemory.toNat + kernelCut image r.mmapFreeMemory.toNat ∧
    (cutKernel image r).mmapFreeMemoryLength.toNat =
      (r.mmapFreeMemoryLength.toNat + 2 ^ 64 - kernelCut image r.mmapFreeMemory.toNat) %
        2 ^ 64 := by
  obtain ⟨hend, hpos, hlt⟩ := image.toNat_end
  have hb := r.mmapFreeMemory.isLt
  have hl := r.mmapFreeMemoryLength.isLt
  have hge : (r.mmapFreeMemory.setWidth 64 + r.mmapFreeMemoryLength).setWidth 32 ≥
      kernelToPhys kernelAddress := by
    rw [show kernelToPhys kernelAddress = 0 by decide, ge_iff_le, BitVec.le_def]
    exact Nat.zero_le _
  unfold cutKernel kernelCut
  by_cases hcut : r.mmapFreeMemory < kernelToPhys image.kernelEnd
  · -- the base moves to the end of the image
    rw [if_pos ⟨hcut, hge⟩]
    rw [BitVec.lt_def, hend] at hcut
    refine ⟨by rw [hend]; omega, ?_⟩
    simp only [BitVec.toNat_sub, BitVec.toNat_setWidth, hend]
    omega
  · rw [if_neg fun hc => hcut hc.1]
    rw [BitVec.lt_def, hend] at hcut
    omega

theorem alignBase_spec (r : FreeRegion) :
    (alignBase r).mmapFreeMemory.toNat =
      (r.mmapFreeMemory.toNat + pageGap r.mmapFreeMemory.toNat) % 2 ^ 32 ∧
    (alignBase r).mmapFreeMemoryLength.toNat =
      (r.mmapFreeMemoryLength.toNat + 2 ^ 64 - pageGap r.mmapFreeMemory.toNat) % 2 ^ 64 := by
  have hb := r.mmapFreeMemory.isLt
  have hl := r.mmapFreeMemoryLength.isLt
  have halign : (r.mmapFreeMemory % pageSize).toNat = r.mmapFreeMemory.toNat % 4096 :=
    BitVec.toNat_umod
  have hzero : r.mmapFreeMemory % pageSize = 0 ↔ r.mmapFreeMemory.toNat % 4096 = 0 := by
    rw [← BitVec.toNat_inj, halign]
    rfl
  unfold alignBase pageGap
  dsimp only
  by_cases ha : r.mmapFreeMemory % pageSize = 0
  · rw [if_neg (not_not.mpr ha)]
    rw [hzero] at ha
    omega
  · rw [if_pos ha]
    rw [hzero] at ha
    have hsum : (r.mmapFreeMemory + (pageSize - r.mmapFreeMemory % pageSize)).toNat =
        (r.mmapFreeMemory.toNat + (4096 - r.mmapFreeMemory.toNat % 4096)) % 2 ^ 32 := by
      rw [BitVec.toNat_add, BitVec.toNat_sub, halign, show pageSize.toNat = 4096 from rfl]
      omega
    rw [BitVec.toNat_sub, BitVec.toNat_setWidth, BitVec.toNat_sub, hsum]
    omega

theorem alignLength_spec (r : FreeRegion) :
    (alignLength r).mmapFreeMemory = r.mmapFreeMemory ∧
      (alignLength r).mmapFreeMemoryLength.toNat =
        r.mmapFreeMemoryLength.toNat / 4096 * 4096 := by
  have hl := r.mmapFreeMemoryLength.isLt
  refine ⟨rfl, ?_⟩
  unfold alignLength
  dsimp only
  rw [BitVec.toNat_sub, BitVec.toNat_setWidth, BitVec.toNat_setWidth, BitVec.toNat_umod,
    show (pageSize.setWidth 64).toNat = 4096 from rfl]
  omega

/-- Two subtractions modulo the width are one. -/
theorem sub_sub_mod {l c g : ℕ} (hl : l < 2 ^ 64) (hc : c < 2 ^ 30) (hg : g < 4096) :
    ((l + 2 ^ 64 - c) % 2 ^ 64 + 2 ^ 64 - g) % 2 ^ 64 = (l + 2 ^ 64 - (c + g)) % 2 ^ 64 := by
  omega

/-- **The three passes together**: `trim` off the front, modulo the widths of the two
words, and the length down to whole pages. -/
theorem trimmed_spec (image : KernelImage) (r : FreeRegion) :
    (alignLength (alignBase (cutKernel image r))).mmapFreeMemory.toNat =
      (r.mmapFreeMemory.toNat + trim image r.mmapFreeMemory.toNat) % 2 ^ 32 ∧
    (alignLength (alignBase (cutKernel image r))).mmapFreeMemoryLength.toNat =
      (r.mmapFreeMemoryLength.toNat + 2 ^ 64 - trim image r.mmapFreeMemory.toNat) % 2 ^ 64 /
        4096 * 4096 := by
  obtain ⟨hbase₁, hlen₁⟩ := cutKernel_spec image r
  obtain ⟨hbase₂, hlen₂⟩ := alignBase_spec (cutKernel image r)
  obtain ⟨hbase₃, hlen₃⟩ := alignLength_spec (alignBase (cutKernel image r))
  have hl := r.mmapFreeMemoryLength.isLt
  have hcut := kernelCut_lt image r.mmapFreeMemory.toNat
  have hgap := pageGap_lt (r.mmapFreeMemory.toNat + kernelCut image r.mmapFreeMemory.toNat)
  rw [hbase₁] at hbase₂ hlen₂
  rw [hlen₁, sub_sub_mod hl hcut hgap, ← trim] at hlen₂
  rw [Nat.add_assoc, ← trim] at hbase₂
  exact ⟨by rw [hbase₃, hbase₂], by rw [hlen₃, hlen₂]⟩

theorem mmapInitialize_ok {image : KernelImage} {mbi : MultibootInfo} {r : FreeRegion}
    (h : mmapInitialize image mbi = .ok r) :
    r = alignLength (alignBase (cutKernel image (findLargest mbi.mmap mbi.entries))) := by
  unfold mmapInitialize at h
  split at h
  · exact absurd h (by simp)
  · split at h
    · exact (Except.ok.inj h).symm
    · exact absurd h (by simp)

/-- The trimming is never empty: the kernel lies at physical address 0. -/
theorem trim_null_pos (image : KernelImage) : 0 < trim image null.toNat := by
  obtain ⟨-, hend, -⟩ := image.toNat_end
  unfold trim kernelCut
  rw [show null.toNat = 0 from rfl]
  omega

/-- **The region that is left**: the selected entry less its front; or, when more would go
than any entry has, a length that wrapped around. -/
theorem mmapInitialize_spec {image : KernelImage} {mbi : MultibootInfo} {r : FreeRegion}
    (h : mmapInitialize image mbi = .ok r) :
    (∃ i, Selected mbi.mmap mbi.entries i ∧
      trim image (mbi.mmap i).addrLow.toNat ≤ (mbi.mmap i).length ∧
      r.mmapFreeMemory.toNat =
        ((mbi.mmap i).addrLow.toNat + trim image (mbi.mmap i).addrLow.toNat) % 2 ^ 32 ∧
      r.mmapFreeMemoryLength.toNat =
        ((mbi.mmap i).length - trim image (mbi.mmap i).addrLow.toNat) / 4096 * 4096) ∨
    ((∀ i, Selected mbi.mmap mbi.entries i →
        (mbi.mmap i).length < trim image (mbi.mmap i).addrLow.toNat) ∧
      (∀ j, j < mbi.entries → (mbi.mmap j).Available → (mbi.mmap j).length < 2 ^ 31) ∧
      2 ^ 63 ≤ r.mmapFreeMemoryLength.toNat) := by
  obtain rfl := mmapInitialize_ok h
  obtain ⟨hbase, hlen⟩ := trimmed_spec image (findLargest mbi.mmap mbi.entries)
  rcases findLargest_spec mbi.mmap mbi.entries with ⟨i, hsel, hb, hl⟩ | ⟨hnone, hb, hl⟩
  · rw [hb, hl] at hlen
    rw [hb] at hbase
    have hd := trim_lt image (mbi.mmap i).addrLow.toNat
    have hli := (mbi.mmap i).length_lt
    by_cases hfit : trim image (mbi.mmap i).addrLow.toNat ≤ (mbi.mmap i).length
    · refine Or.inl ⟨i, hsel, hfit, hbase, ?_⟩
      rw [hlen]
      omega
    · -- the trimming is longer than the entry
      refine Or.inr ⟨?_, ?_, ?_⟩
      · intro i' hsel'
        obtain rfl := hsel.unique hsel'
        omega
      · intro j hj hav
        have hle := hsel.greatest j hj hav
        omega
      · rw [hlen]
        omega
  · -- no available memory: the kernel is cut off an empty region at 0
    rw [hb, hl] at hlen
    have hd := trim_lt image null.toNat
    have hpos := trim_null_pos image
    refine Or.inr ⟨?_, ?_, ?_⟩
    · intro i hsel
      have h0 := hnone i hsel.lt hsel.available
      have hposi := hsel.pos
      omega
    · intro j hj hav
      rw [hnone j hj hav]
      omega
    · rw [hlen]
      omega

/-- The region is made of whole pages. -/
theorem mmapInitialize_aligned {image : KernelImage} {mbi : MultibootInfo} {r : FreeRegion}
    (h : mmapInitialize image mbi = .ok r) :
    r.mmapFreeMemory.toNat % 4096 = 0 ∧ r.mmapFreeMemoryLength.toNat % 4096 = 0 := by
  obtain rfl := mmapInitialize_ok h
  obtain ⟨hbase, hlen⟩ := trimmed_spec image (findLargest mbi.mmap mbi.entries)
  rw [hbase, hlen]
  unfold trim pageGap
  omega

/-! ### When the region is available memory -/

/-- The maps that the trimming fits: the first available entry of the greatest length is
longer than what is trimmed off its front; and less than a page is left, or it starts
below 4 GiB and the trimming stays there. -/
def TrimFits (image : KernelImage) (mbi : MultibootInfo) : Prop :=
  ∃ i, Selected mbi.mmap mbi.entries i ∧
    let b := (mbi.mmap i).addrLow.toNat
    let d := trim image b
    d ≤ (mbi.mmap i).length ∧
      ((mbi.mmap i).length - d < 4096 ∨ (mbi.mmap i).addrHigh = 0 ∧ b + d < 2 ^ 32)

/-- What is left of the selected entry is longer, by a page, than any other available
entry. -/
def OthersShorter (image : KernelImage) (mbi : MultibootInfo) : Prop :=
  ∀ i, Selected mbi.mmap mbi.entries i → ∀ j, j < mbi.entries → (mbi.mmap j).Available →
    j ≠ i → (mbi.mmap j).length + trim image (mbi.mmap i).addrLow.toNat + 4096 ≤
      (mbi.mmap i).length

section Within

variable {image : KernelImage} {mbi : MultibootInfo} {r : FreeRegion}

/-- What is trimmed off ends at a page boundary, past the kernel, and at 4 GiB at most. -/
theorem add_trim (image : KernelImage) {b : ℕ} (hb : b < 2 ^ 32) :
    (b + trim image b) % 4096 = 0 ∧ image.physEnd ≤ b + trim image b ∧
      b + trim image b ≤ 2 ^ 32 := by
  have hlt := image.toNat_end.2.2
  unfold trim pageGap kernelCut
  omega

theorem within_of_trimFits (h : mmapInitialize image mbi = .ok r)
    (hfits : TrimFits image mbi) : WithinAvailable mbi r := by
  obtain ⟨i, hsel, hfit, hcases⟩ := hfits
  rcases mmapInitialize_spec h with ⟨i', hsel', -, hbase, hlen⟩ | ⟨hshort, -, -⟩
  · obtain rfl := hsel.unique hsel'
    rcases hcases with hsmall | ⟨hhigh, hlow⟩
    · exact Or.inl (by omega)
    · have hib : (mbi.mmap i').base = (mbi.mmap i').addrLow.toNat := by
        rw [MultibootMmapEntry.base, hhigh, toNat_zero_word]
        omega
      exact Or.inr ⟨i', hsel.lt, hsel.available, by omega, by omega⟩
  · have hlt := hshort i hsel
    omega

/-- If the selected entry itself holds the region, the trimming stayed below 4 GiB: the
region of an entry from 4 GiB on starts lower. -/
theorem low_of_base_le {e : MultibootMmapEntry}
    (hle : e.base ≤ (e.addrLow.toNat + trim image e.addrLow.toNat) % 2 ^ 32) :
    e.addrHigh = 0 ∧ e.addrLow.toNat + trim image e.addrLow.toNat < 2 ^ 32 := by
  have hlt := e.addrLow.isLt
  have hd := trim_lt image e.addrLow.toNat
  obtain ⟨-, -, htop⟩ := add_trim image hlt
  rw [MultibootMmapEntry.base] at hle
  refine ⟨?_, by omega⟩
  rw [← BitVec.toNat_inj, toNat_zero_word]
  omega

theorem trimFits_of_within (h : mmapInitialize image mbi = .ok r)
    (hothers : OthersShorter image mbi) (hwithin : WithinAvailable mbi r) :
    TrimFits image mbi := by
  rcases mmapInitialize_spec h with ⟨i, hsel, hfit, hbase, hlen⟩ | ⟨-, hmax, hwrap⟩
  · refine ⟨i, hsel, hfit, ?_⟩
    rcases hwithin with h0 | ⟨j, hj, hav, hjbase, hjend⟩
    · exact Or.inl (by omega)
    · by_cases hji : j = i
      · subst hji
        rw [hbase] at hjbase
        exact Or.inr (low_of_base_le hjbase)
      · -- any other entry is too short to hold what is left
        have hlj := hothers i hsel j hj hav hji
        omega
  · -- a region whose length wrapped around is longer than any available entry
    rcases hwithin with h0 | ⟨j, hj, hav, hjbase, hjend⟩
    · omega
    · have hlj := hmax j hj hav
      omega

/-- **When `mmap_initialize` stays within available memory.**  Whenever it returns and the
trimming fits, the region is empty or part of one available entry; and in no other case,
unless a second available entry is long enough to hold a region that was not cut from it. -/
theorem mmap_within_available (h : mmapInitialize image mbi = .ok r) :
    (TrimFits image mbi → WithinAvailable mbi r) ∧
      (OthersShorter image mbi → (WithinAvailable mbi r ↔ TrimFits image mbi)) :=
  ⟨within_of_trimFits h, fun hothers =>
    ⟨trimFits_of_within h hothers, within_of_trimFits h⟩⟩

end Within

/-- A kernel of 4 MiB. -/
def sampleImage : KernelImage := ⟨0xC0400000, by decide⟩

/-- A machine with 8 GiB: 3 GiB below 4 GiB, and 5 GiB from there on. -/
def highMemory : MultibootInfo where
  flags := 0x40
  mmapLength := 48
  mmap i :=
    if i = 0 then ⟨0x00100000, 0, 0xBFF00000, 0, 1⟩
    else ⟨0, 1, 0x40000000, 1, 1⟩

/-- The larger entry starts at 4 GiB; the region gets the low half of its base, and all
of its length. -/
theorem mmap_invents_memory :
    ∃ r, mmapInitialize sampleImage highMemory = .ok r ∧ r.mmapFreeMemory = 0x00400000 ∧
      r.mmapFreeMemoryLength = 0x13FC00000 ∧ ¬ WithinAvailable highMemory r :=
  ⟨⟨0x00400000, 0x13FC00000⟩, rfl, rfl, rfl, by decide⟩

/-- A machine with 3 GiB: 639 KiB of low memory, the BIOS, the main memory, and the
interrupt controllers. -/
def pcMemory : MultibootInfo where
  flags := 0x40
  mmapLength := 96
  mmap i :=
    match i with
    | 0 => ⟨0, 0, 0x0009FC00, 0, 1⟩
    | 1 => ⟨0x0009FC00, 0, 0x00060400, 0, 2⟩
    | 2 => ⟨0x00100000, 0, 0xBFF00000, 0, 1⟩
    | _ => ⟨0xFEC00000, 0, 0x00400000, 0, 2⟩

theorem mmap_within_available_sample :
    ∃ r, mmapInitialize sampleImage pcMemory = .ok r ∧
      (TrimFits sampleImage pcMemory → WithinAvailable pcMemory r) ∧
      (OthersShorter sampleImage pcMemory →
        (WithinAvailable pcMemory r ↔ TrimFits sampleImage pcMemory)) :=
  have h : mmapInitialize sampleImage pcMemory = .ok ⟨0x00400000, 0xBFC00000⟩ := rfl
  ⟨_, h, mmap_within_available h⟩

end MVK
