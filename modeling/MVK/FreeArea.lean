import Mathlib.Order.CompletePartialOrder
import Mathlib.Order.Interval.Set.Disjoint
import MVK.Mmap

/-!
# What the page allocator gets

Two things one expects of the region that `mmap_initialize` leaves: that the page
allocator can compute every frame address in it with 32 bits, without running into the
kernel; and that no other entry of the map had more room.  Each holds for some maps only,
because the lengths are compared before the kernel is cut off, and the cutting does not
check that there is enough to cut.

## Main definitions

* `SafeRegion` — what the page allocator relies on.
* `TrimSafe` — the maps for which it holds.
* `usable` — how much an entry has to offer.

## Main results

* `mmap_safe_iff` — **exactly when the region is safe.**
* `mmap_largest_iff` — **exactly when the region is the largest.**
-/

namespace MVK

open Translation MultibootMmapEntry

/-! ### Safety -/

/-- Whole pages, below 4 GiB, apart from the kernel image. -/
structure SafeRegion (image : KernelImage) (r : FreeRegion) : Prop where
  base : r.mmapFreeMemory.toNat % 4096 = 0
  length : r.mmapFreeMemoryLength.toNat % 4096 = 0
  fits : r.mmapFreeMemory.toNat + r.mmapFreeMemoryLength.toNat ≤ 2 ^ 32
  apart : Disjoint
    (Set.Ico r.mmapFreeMemory.toNat (r.mmapFreeMemory.toNat + r.mmapFreeMemoryLength.toNat))
    (Set.Ico (kernelToPhys kernelAddress).toNat (kernelToPhys image.kernelEnd).toNat)

/-- The maps whose region is safe: the first available entry of the greatest length is at
least as long as what is trimmed off its front; and less than a page is left of it, or, by
the low half of its base, it ends less than a page past 4 GiB. -/
def TrimSafe (image : KernelImage) (mbi : MultibootInfo) : Prop :=
  ∃ i, Selected mbi.mmap mbi.entries i ∧
    let b := (mbi.mmap i).addrLow.toNat
    let l := (mbi.mmap i).length
    trim image b ≤ l ∧ (l < trim image b + 4096 ∨ b + l < 2 ^ 32 + 4096)

section Safe

variable {image : KernelImage} {mbi : MultibootInfo} {r : FreeRegion}

/-- Only an empty region may start inside the kernel. -/
theorem apart_iff (image : KernelImage) (b l : ℕ) :
    Disjoint (Set.Ico b (b + l))
      (Set.Ico (kernelToPhys kernelAddress).toNat (kernelToPhys image.kernelEnd).toNat) ↔
    l = 0 ∨ image.physEnd ≤ b := by
  obtain ⟨hend, hpos, -⟩ := image.toNat_end
  rw [Set.Ico_disjoint_Ico, hend, show (kernelToPhys kernelAddress).toNat = 0 by decide]
  omega

/-- **When `mmap_initialize` leaves a safe region**, whenever it returns. -/
theorem mmap_safe_iff (h : mmapInitialize image mbi = .ok r) :
    SafeRegion image r ↔ TrimSafe image mbi := by
  obtain ⟨halignBase, halignLength⟩ := mmapInitialize_aligned h
  rcases mmapInitialize_spec h with ⟨i, hsel, hfit, hbase, hlen⟩ | ⟨hshort, -, hwrap⟩
  · have hblt := (mbi.mmap i).addrLow.isLt
    obtain ⟨hpage, hpast, htop⟩ := add_trim image hblt
    obtain ⟨-, hpos, -⟩ := image.toNat_end
    constructor
    · rintro ⟨-, -, hfits, hapart⟩
      rw [apart_iff] at hapart
      refine ⟨i, hsel, hfit, ?_⟩
      -- a region that is not empty starts past the kernel, so its base did not wrap
      omega
    · rintro ⟨i', hsel', -, hcases⟩
      obtain rfl := hsel.unique hsel'
      refine ⟨halignBase, halignLength, ?_, ?_⟩
      · omega
      · rw [apart_iff]
        omega
  · constructor
    · rintro ⟨-, -, hfits, -⟩
      omega
    · rintro ⟨i, hsel, hfit, -⟩
      have hlt := hshort i hsel
      omega

end Safe

/-- The 5 GiB that start at 4 GiB are taken to start at 0, and end past 4 GiB. -/
theorem mmap_region_overruns :
    ∃ r, mmapInitialize sampleImage highMemory = .ok r ∧ r.mmapFreeMemory = 0x00400000 ∧
      r.mmapFreeMemoryLength = 0x13FC00000 ∧ ¬ SafeRegion sampleImage r :=
  ⟨⟨0x00400000, 0x13FC00000⟩, rfl, rfl, rfl, fun hsafe => absurd hsafe.fits (by decide)⟩

theorem mmap_safe_iff_sample :
    ∃ r, mmapInitialize sampleImage pcMemory = .ok r ∧
      (SafeRegion sampleImage r ↔ TrimSafe sampleImage pcMemory) :=
  have h : mmapInitialize sampleImage pcMemory = .ok ⟨0x00400000, 0xBFC00000⟩ := rfl
  ⟨_, h, mmap_safe_iff h⟩

/-! ### The largest area -/

/-- How much of an entry is left without the kernel, in whole pages. -/
def usable (image : KernelImage) (e : MultibootMmapEntry) : ℕ :=
  (e.length - trim image e.base) / 4096 * 4096

/-- Of the available entries, the first of the greatest length also has the most usable
memory. -/
def LongestIsBest (image : KernelImage) (mbi : MultibootInfo) : Prop :=
  ∃ i, Selected mbi.mmap mbi.entries i ∧ ∀ j, j < mbi.entries → (mbi.mmap j).Available →
    usable image (mbi.mmap j) ≤ usable image (mbi.mmap i)

/-- The usable lengths of the available entries. -/
def usableLengths (image : KernelImage) (mbi : MultibootInfo) : Set ℕ :=
  {u | ∃ j, j < mbi.entries ∧ (mbi.mmap j).Available ∧ u = usable image (mbi.mmap j)}

/-- An entry below 4 GiB, unless it is empty, has its base in the low half. -/
theorem base_eq_of_le {e : MultibootMmapEntry} (hbelow : e.base + e.length ≤ 2 ^ 32)
    (hpos : 0 < e.length) : e.base = e.addrLow.toNat := by
  have hlow := e.addrLow.isLt
  unfold MultibootMmapEntry.base at hbelow ⊢
  omega

/-- **When `mmap_initialize` keeps the largest usable area**, of a map below 4 GiB that has
one. -/
theorem mmap_largest_iff {image : KernelImage} {mbi : MultibootInfo} {r : FreeRegion}
    (h : mmapInitialize image mbi = .ok r)
    (hbelow : ∀ j, j < mbi.entries → (mbi.mmap j).base + (mbi.mmap j).length ≤ 2 ^ 32)
    (hsome : ∃ j, j < mbi.entries ∧ (mbi.mmap j).Available ∧ 0 < usable image (mbi.mmap j)) :
    IsGreatest (usableLengths image mbi) r.mmapFreeMemoryLength.toNat ↔
      LongestIsBest image mbi := by
  rcases mmapInitialize_spec h with ⟨i, hsel, hfit, -, hlen⟩ | ⟨hshort, hmax, hwrap⟩
  · -- the region is what is usable of the selected entry
    have husable : r.mmapFreeMemoryLength.toNat = usable image (mbi.mmap i) := by
      rw [hlen, usable, base_eq_of_le (hbelow i hsel.lt) hsel.pos]
    rw [husable]
    constructor
    · rintro ⟨-, hub⟩
      exact ⟨i, hsel, fun j hj hav => hub ⟨j, hj, hav, rfl⟩⟩
    · rintro ⟨i', hsel', hbest⟩
      obtain rfl := hsel.unique hsel'
      refine ⟨⟨i', hsel.lt, hsel.available, rfl⟩, ?_⟩
      rintro u ⟨j, hj, hav, rfl⟩
      exact hbest j hj hav
  · constructor
    · -- no entry is as long as a length that wrapped around
      rintro ⟨⟨j, hj, hav, heq⟩, -⟩
      have hlj := hmax j hj hav
      rw [usable] at heq
      omega
    · rintro ⟨i, hsel, hbest⟩
      obtain ⟨j, hj, hav, hpos⟩ := hsome
      have hlt := hshort i hsel
      have hle := hbest j hj hav
      have hnone : usable image (mbi.mmap i) = 0 := by
        rw [usable, base_eq_of_le (hbelow i hsel.lt) hsel.pos]
        omega
      omega

/-- Two areas: the longer one starts with the kernel. -/
def splitMemory : MultibootInfo where
  flags := 0x40
  mmapLength := 48
  mmap i :=
    if i = 0 then ⟨0, 0, 0x00500000, 0, 1⟩
    else ⟨0x01000000, 0, 0x00400000, 0, 1⟩

/-- Of 5 MiB with a kernel of 4 MiB in front, 1 MiB is left; the other area has 4 MiB. -/
theorem mmap_keeps_smaller :
    ∃ r, mmapInitialize sampleImage splitMemory = .ok r ∧
      r.mmapFreeMemoryLength = 0x00100000 ∧
      (∀ j, j < splitMemory.entries →
        (splitMemory.mmap j).base + (splitMemory.mmap j).length ≤ 2 ^ 32) ∧
      0x00400000 ∈ usableLengths sampleImage splitMemory ∧
      ¬ IsGreatest (usableLengths sampleImage splitMemory) r.mmapFreeMemoryLength.toNat := by
  have hbest : 0x00400000 ∈ usableLengths sampleImage splitMemory :=
    ⟨1, by decide, by decide, by decide⟩
  refine ⟨⟨0x00400000, 0x00100000⟩, rfl, rfl, by decide, hbest, ?_⟩
  rintro ⟨-, hub⟩
  exact absurd (hub hbest) (by decide)

theorem mmap_largest_iff_sample :
    ∃ r, mmapInitialize sampleImage pcMemory = .ok r ∧
      (IsGreatest (usableLengths sampleImage pcMemory) r.mmapFreeMemoryLength.toNat ↔
        LongestIsBest sampleImage pcMemory) :=
  have h : mmapInitialize sampleImage pcMemory = .ok ⟨0x00400000, 0xBFC00000⟩ := rfl
  ⟨_, h, mmap_largest_iff h (by decide) ⟨2, by decide, by decide, by decide⟩⟩

end MVK
