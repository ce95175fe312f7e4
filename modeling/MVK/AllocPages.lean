import MVK.Rows

/-!
# Blocks of pages

The C library's allocator asks `alloc_pages` for a block of consecutive pages.  The
code hands out the first free slots one by one and returns the first address, so what
comes back is a block only when the first free slots are consecutive; each word of the
bitmap has a bit that the scan passes over, so a block never crosses a word.

## Main definitions

* `BlockAllocated` — what the caller relies on.
* `NextSlotsBlock` — the next free slots are consecutive, and not mapped.

## Main results

* `alloc_pages_block_iff` — **exactly when `alloc_pages` keeps its contract.**
* `alloc_pages_gap` — a call on a fresh system that does not.
-/

namespace MVK

open FirstFit Translation Translation.Prog Transition

/-- The contract of `alloc_pages(n)`, from heap `h` to heap `h'`: all `n` pages from `ptr`
on, newly mapped and newly set, and no other bit; or `NULL`, and nothing changed. -/
structure BlockAllocated (h : Heap) (n : ℕ) (ptr : Word) (h' : Heap) : Prop where
  fresh : ptr ≠ null → ∀ i, i < n →
    h.machine.translate (pageOf (ptr + BitVec.ofNat 32 i * pageSize)) = none
  present : ptr ≠ null → ∀ i, i < n →
    (h'.machine.translate (pageOf (ptr + BitVec.ofNat 32 i * pageSize))).isSome = true
  bits : ptr ≠ null → ∀ k, (used h.pageBitmap k = false ∧ used h'.pageBitmap k = true) ↔
    ∃ i, i < n ∧ k = slotOf ptr + i
  none : ptr = null →
    h'.pageBitmap = h.pageBitmap ∧ ∀ q, h'.machine.translate q = h.machine.translate q

/-- The next `n` free slots are consecutive, from `p` on, and their pages are not mapped. -/
def NextSlotsBlock (h : Heap) (n p : ℕ) : Prop :=
  (freeSlots h.pageBitmap).take n = List.range' p n ∧
    ∀ i, i < n → h.machine.translate (pageOf (slotAddr (p + i))) = none

theorem slotAddr_add (p i : ℕ) : slotAddr p + BitVec.ofNat 32 i * pageSize = slotAddr (p + i) := by
  apply BitVec.eq_of_toNat_eq
  simp only [slotAddr, pageSize, BitVec.toNat_add, BitVec.toNat_mul, BitVec.toNat_ofNat,
    BitVec.ofNat_eq_ofNat]
  omega

/-- An increasing list is a range when it has the members of one. -/
theorem eq_range'_of_mem_iff {ps : List ℕ} (hps : ps.Pairwise (· < ·)) {p n : ℕ}
    (h : ∀ k, k ∈ ps ↔ ∃ i, i < n ∧ k = p + i) : ps = List.range' p n := by
  have hnodup : ps.Nodup := hps.imp fun hlt => Nat.ne_of_lt hlt
  have hperm : ps.Perm (List.range' p n) := by
    rw [List.perm_ext_iff_of_nodup hnodup List.nodup_range']
    intro k
    rw [h k, List.mem_range'_1]
    constructor
    · rintro ⟨i, hi, rfl⟩
      omega
    · rintro ⟨hle, hlt⟩
      exact ⟨k - p, by omega, by omega⟩
  exact hperm.eq_of_pairwise (fun a b _ _ hab hba => absurd hab (by omega)) hps
    List.pairwise_lt_range'

section Calls

variable {L : Layout} {r : FreeRegion} {h : Heap}

/-- The bits that a row of allocations sets are those of its pages. -/
theorem newly_used_iff (flags : BitVec 16) (n k : ℕ) :
    (used h.pageBitmap k = false ∧ used (h.allocatedAll L r flags
      ((freeSlots h.pageBitmap).take n)).pageBitmap k = true) ↔
    k ∈ (freeSlots h.pageBitmap).take n := by
  rw [used_allocatedAll, markAll_apply]
  constructor
  · rintro ⟨hclear, hset | hmem⟩
    · rw [hclear] at hset
      exact absurd hset (by decide)
    · exact hmem
  · intro hmem
    exact ⟨(mem_freeSlots.mp (List.mem_of_mem_take hmem)).2.2, Or.inr hmem⟩

/-- A row whose slots are a block keeps the contract. -/
theorem blockAllocated_of_block (hI : PagingInv L h.machine) {n p : ℕ}
    (hblock : NextSlotsBlock h n p) (flags : BitVec 16) (hn : 0 < n) :
    BlockAllocated h n (slotAddr p)
      (h.allocatedAll L r flags ((freeSlots h.pageBitmap).take n)) := by
  obtain ⟨htake, hfresh⟩ := hblock
  have hlt : ∀ k ∈ (freeSlots h.pageBitmap).take n, k < 785407 := fun k => freeSlots_take_lt
  have hmem : ∀ i, i < n → p + i ∈ (freeSlots h.pageBitmap).take n := by
    intro i hi
    rw [htake, List.mem_range'_1]
    omega
  have hp : p < 785407 := hlt p (hmem 0 hn)
  refine ⟨?_, ?_, ?_, ?_⟩
  · intro _ i hi
    rw [slotAddr_add]
    exact hfresh i hi
  · intro _ i hi
    rw [slotAddr_add, isSome_translate_allocatedAll hI hlt
      (pageOf_slotAddr_ne (hlt _ (hmem i hi)))]
    exact Or.inl ⟨p + i, hmem i hi, rfl⟩
  · intro _ k
    rw [newly_used_iff, htake, slotOf_slotAddr hp, List.mem_range'_1]
    constructor
    · rintro ⟨hle, hlt⟩
      exact ⟨k - p, by omega, by omega⟩
    · rintro ⟨i, hi, rfl⟩
      omega
  · intro h0
    exact absurd h0 (slotAddr_ne_null hp)

/-- A row that keeps the contract is a block. -/
theorem block_of_blockAllocated {n p : ℕ} (hp : p < 785407) {flags : BitVec 16}
    (hba : BlockAllocated h n (slotAddr p)
      (h.allocatedAll L r flags ((freeSlots h.pageBitmap).take n))) : NextSlotsBlock h n p := by
  have hne := slotAddr_ne_null hp
  refine ⟨eq_range'_of_mem_iff ?_ ?_, ?_⟩
  · exact frees_sorted.sublist (List.take_sublist n _)
  · intro k
    rw [← newly_used_iff (L := L) (r := r) flags, hba.bits hne k, slotOf_slotAddr hp]
  · intro i hi
    rw [← slotAddr_add]
    exact hba.fresh hne i hi

end Calls

/-- **When `alloc_pages` keeps its contract.**  In every state that calls for pages and
for rows can reach, whatever pages below the recursive window they free, for every size
and all flags: the call keeps it, or does not return, exactly when no slot is free, one
of the next slots lies past the region, or the next slots are an unmapped block. -/
theorem alloc_pages_block_iff {L : Layout} {r : FreeRegion} {mem : Frame → Index → Word}
    {h₀ h : Heap} (hinit : pagingInitialize L (start L mem) = .ok h₀) {cs : List HeapCall}
    (hrun : Run (CallStep L r) h₀ cs h) {pages : Word} (hpages : 1 ≤ pages.toNat)
    (flags : BitVec 16) :
    (∀ ptr h', allocPages L r pages flags h = .ok (ptr, h') →
      BlockAllocated h pages.toNat ptr h') ↔
    freeSlots h.pageBitmap = [] ∨
      (∃ p ∈ (freeSlots h.pageBitmap).take pages.toNat,
        r.mmapFreeMemoryLength.toNat ≤ 4096 * p) ∨
      ∃ p, NextSlotsBlock h pages.toNat p := by
  have hI := pagingInv_of_calls hinit hrun
  by_cases hout : ∃ p ∈ (freeSlots h.pageBitmap).take pages.toNat,
      r.mmapFreeMemoryLength.toNat ≤ 4096 * p
  · -- the call aborts
    refine ⟨fun _ => Or.inr (Or.inl hout), ?_⟩
    intro _ ptr h'' hcall
    rw [allocPages_abort hI hout] at hcall
    exact absurd hcall (by simp)
  · have hcall := @allocPages_ok L r flags h hI pages fun p hp =>
      Nat.lt_of_not_le fun hle => hout ⟨p, hp, hle⟩
    constructor
    · intro hall
      have hba := hall _ _ hcall
      cases hfs : freeSlots h.pageBitmap with
      | nil => exact Or.inl rfl
      | cons p ps =>
        have hp : p < 785407 := (of_freeSlots_cons hfs).1
        have hhead : ((freeSlots h.pageBitmap).take pages.toNat).head? = some p := by
          rw [List.head?_take, if_neg (by omega), hfs, List.head?_cons]
        rw [hhead, Option.map_some, Option.getD_some] at hba
        exact Or.inr (Or.inr ⟨p, block_of_blockAllocated hp hba⟩)
    · intro hcond ptr h'' hcall'
      obtain ⟨rfl, rfl⟩ := Prod.mk.inj (Except.ok.inj (hcall.symm.trans hcall'))
      rcases hcond with hnil | hout' | ⟨p, hblock⟩
      · -- the bitmap is full: the call returns `NULL` and changes nothing
        rw [hnil, List.take_nil]
        exact ⟨fun hne => absurd rfl hne, fun hne => absurd rfl hne, fun hne => absurd rfl hne,
          fun _ => ⟨rfl, fun _ => rfl⟩⟩
      · exact absurd hout' hout
      · have hhead : ((freeSlots h.pageBitmap).take pages.toNat).head? = some p := by
          rw [hblock.1, List.head?_range', if_neg (by omega)]
        rw [hhead, Option.map_some, Option.getD_some]
        exact blockAllocated_of_block hI hblock flags hpages

/-- On a fresh system `alloc_pages(32)` returns `0x1000` and leaves `0x20000`, the last
page of the block, unmapped. -/
theorem alloc_pages_gap :
    ∃ h h', pagingInitialize sampleLayout (start sampleLayout fun _ _ => 0) = .ok h ∧
      allocPages sampleLayout sampleRegion 32 2 h = .ok (0x1000, h') ∧
      h'.machine.translate (pageOf 0x20000) = none ∧ ¬ BlockAllocated h 32 0x1000 h' := by
  obtain ⟨h, hinit, hI, hbitmap⟩ := pagingInitialize_spec sampleLayout fun _ _ => 0
  obtain ⟨qs, hqs⟩ := freeSlots_zero hbitmap
  have htake : (freeSlots h.pageBitmap).take (32 : Word).toNat = firstSlots := by
    rw [hqs]
    rfl
  have hcall := @allocPages_ok sampleLayout sampleRegion 2 h hI.pagingInv 32
    (by rw [htake]; decide)
  rw [htake] at hcall
  -- no page of the row is the page at `0x20000`, and it was not mapped before
  have hgap : (h.allocatedAll sampleLayout sampleRegion 2 firstSlots).machine.translate
      (pageOf 0x20000) = none := by
    rw [← Option.not_isSome_iff_eq_none, isSome_translate_allocatedAll hI.pagingInv (by decide)
      (by decide)]
    rintro (hmem | hold)
    · exact absurd hmem (by decide)
    · rw [hI.translate (by decide)] at hold
      exact absurd hold (by decide)
  refine ⟨h, _, hinit, hcall, hgap, ?_⟩
  intro hba
  have hpresent := hba.present (by decide) 31 (by decide)
  rw [show (0x1000 : Word) + BitVec.ofNat 32 31 * pageSize = 0x20000 by decide, hgap] at hpresent
  exact absurd hpresent (by decide)

/-- Behind the first page there is a block of four. -/
theorem alloc_pages_block_iff_sample :
    ∃ h₀ h, pagingInitialize sampleLayout (start sampleLayout fun _ _ => 0) = .ok h₀ ∧
      Run (CallStep sampleLayout sampleRegion) h₀ [.allocPage 2] h ∧
      ∀ ptr h', allocPages sampleLayout sampleRegion 4 2 h = .ok (ptr, h') →
        BlockAllocated h 4 ptr h' := by
  obtain ⟨h₀, hinit, hI, hbitmap⟩ := pagingInitialize_spec sampleLayout fun _ _ => 0
  obtain ⟨qs, hqs⟩ := freeSlots_zero hbitmap
  have hfs : freeSlots h₀.pageBitmap = 0 :: (firstSlots.tail ++ qs) := hqs
  have hrun : Run (CallStep sampleLayout sampleRegion) h₀ [.allocPage 2] _ :=
    .single (.alloc_slot hI.pagingInv hfs (by decide) 2)
  refine ⟨h₀, _, hinit, hrun, (@alloc_pages_block_iff _ _ _ _ _ hinit _ hrun 4 (by decide) 2).mpr
    (Or.inr (Or.inr ⟨1, ?_, ?_⟩))⟩
  · rw [freeSlots_allocated hfs]
    rfl
  · intro i hi
    have hlt : 1 + i < 785407 := by
      rw [show (4 : Word).toNat = 4 from rfl] at hi
      omega
    rw [← Option.not_isSome_iff_eq_none, isSome_translate_allocated hI.pagingInv (by decide)
      (pageOf_slotAddr_ne hlt)]
    rintro (heq | hold)
    · have hone := (pageOf_slotAddr_inj hlt (by decide)).mp heq
      omega
    · have hfst := pageOf_slotAddr_fst hlt
      rw [hI.translate (pageOf_slotAddr_ne hlt), if_neg (by omega)] at hold
      exact absurd hold (by decide)

end MVK
