import MVK.AllocatorCalls
import MVK.AllocPages

/-!
# The allocator on the kernel's pages

The kernel build of the C library takes its regions from `alloc_pages` and gives them back
to `free_pages`.  Neither keeps the contract of a page source: a row of pages may have
gaps, and a page that is freed may clear the bit of another.  Up to the first call that
does, the allocator is in order, and its objects lie in pages that are mapped, each to its
own page of the free region.

On a fresh system that is soon: no two regions are blocks of pages unless the first has
just 31.

## Main definitions

* `kernelSource` — `liballoc_alloc` and `liballoc_free` of the kernel build.
* `carefulSource` — the same up to the first row that breaks the contract.
* `LentBy` — the lent pages are mapped, and marked.

## Main results

* `carefulSource_honest` — the contract.
* `kernel_heap_in_order` — **the allocator on the kernel's pages.**
* `regions_are_blocks_iff` — **when all regions of a fresh system are blocks.**
-/

namespace MVK

open FirstFit Translation Transition ObjectStore

/-! ### The hooks -/

/-- The page allocator, and the rows of pages that it has lent. -/
structure KernelPages where
  heap : Heap
  lent : Multiset PageRange

/-- What memory shows after the tables were changed: below the kernel, a page that still has
its frame shows what it did. -/
def ShowsFrames (shown : Heap → Heap → Memory → Memory) : Prop :=
  ∀ h h' mem a t t', a.toNat < 0xC0000000 → h.machine.translate (pageOf a) = some t →
    h'.machine.translate (pageOf a) = some t' → t.frame = t'.frame → shown h h' mem a = mem a

section Hooks

variable (L : Layout) (r : FreeRegion) (shown : Heap → Heap → Memory → Memory)

/-- `liballoc_alloc` and `liballoc_free` of the kernel build. -/
def kernelSource : PageSource KernelPages where
  liballocAlloc pages p mem :=
    match allocPages L r pages (pageFlagWritable.setWidth 16) p.heap with
    | .error _ => none
    | .ok (ptr, heap) =>
      some (ptr, ⟨heap, if ptr = 0 then p.lent else ⟨ptr, pages⟩ ::ₘ p.lent⟩,
        shown p.heap heap mem)
  liballocFree ptr pages p mem :=
    match freePages ptr pages p.heap with
    | .error _ => none
    | .ok heap => some (⟨heap, p.lent.erase ⟨ptr, pages⟩⟩, shown p.heap heap mem)

/-- The row that `alloc_pages` hands out is a block, or there is none. -/
def LendsBlock (pages : Word) (h : Heap) : Prop :=
  freeSlots h.pageBitmap = [] ∨ ∃ k ∈ (freeSlots h.pageBitmap).head?,
    NextSlotsBlock h pages.toNat k

/-- No bit that `free_pages` clears is that of a page that stays lent. -/
def HarmlessRow (ptr pages : Word) (p : KernelPages) : Prop :=
  ∀ i < pages.toNat, ∀ k ∈ clearedSlot (ptr.toNat / 4096 + i), ∀ q ∈ p.lent.erase ⟨ptr, pages⟩,
    ¬ (q.start ≤ 4096 * (k + 1) ∧ 4096 * (k + 1) < q.stop)

instance (h : Heap) (n k : ℕ) : Decidable (NextSlotsBlock h n k) :=
  inferInstanceAs (Decidable (_ ∧ _))

instance (pages : Word) (h : Heap) : Decidable (LendsBlock pages h) :=
  inferInstanceAs (Decidable (_ ∨ _))

instance (ptr pages : Word) (p : KernelPages) : Decidable (HarmlessRow ptr pages p) :=
  inferInstanceAs (Decidable (∀ i < _, _))

/-- The hooks of the kernel, up to the first call that breaks the contract. -/
def carefulSource : PageSource KernelPages where
  liballocAlloc pages p mem :=
    if LendsBlock pages p.heap then (kernelSource L r shown).liballocAlloc pages p mem else none
  liballocFree ptr pages p mem :=
    if HarmlessRow ptr pages p then (kernelSource L r shown).liballocFree ptr pages p mem else none

end Hooks

/-! ### The pages that are lent -/

/-- Slot `k` is marked, and its page shows its page of the region. -/
structure Held (r : FreeRegion) (h : Heap) (k : ℕ) : Prop where
  lt : k < 785407
  used : used h.pageBitmap k = true
  shows : ∃ t, h.machine.translate (pageOf (slotAddr k)) = some t ∧ t.frame = frameOf (r.pageAddr k)

/-- Each range is apart from the others. -/
def EachApart (ranges : Multiset PageRange) : Prop :=
  ∀ q rest, ranges = q ::ₘ rest → ∀ q' ∈ rest, q.Apart q'

theorem EachApart.cons {q : PageRange} {ranges : Multiset PageRange} (h : EachApart ranges)
    (hq : ∀ q' ∈ ranges, q.Apart q') : EachApart (q ::ₘ ranges) := by
  intro p rest heq p' hp'
  rcases Multiset.cons_eq_cons.mp heq with ⟨rfl, rfl⟩ | ⟨-, rest', rfl, rfl⟩
  · exact hq p' hp'
  · rcases Multiset.mem_cons.mp hp' with rfl | hp'
    · exact Or.symm (hq p (Multiset.mem_cons_self p rest'))
    · exact h p rest' rfl p' hp'

theorem EachApart.of_cons {q : PageRange} {ranges : Multiset PageRange}
    (h : EachApart (q ::ₘ ranges)) : EachApart ranges := by
  rintro p rest rfl p' hp'
  exact h p (q ::ₘ rest) (Multiset.cons_swap q p rest) p' (Multiset.mem_cons_of_mem hp')

/-- **The lent rows**: blocks of pages that are held, without a page in common. -/
structure LentBy (L : Layout) (r : FreeRegion) (p : KernelPages) (ranges : Multiset PageRange) :
    Prop where
  lent : p.lent = ranges
  paging : PagingInv L p.heap.machine
  row : ∀ q ∈ ranges, 0 < q.pages.toNat ∧
    ∃ k, q.base = slotAddr k ∧ ∀ i < q.pages.toNat, Held r p.heap (k + i)
  apart : EachApart ranges

section Held

variable {L : Layout} {r : FreeRegion} {h : Heap} {k : ℕ}

/-- Handing out a page leaves the others held, and holds its own. -/
theorem Held.allocated (hI : PagingInv L h.machine) {p : ℕ} (hp : p < 785407) (flags : BitVec 16)
    (hk : k = p ∨ Held r h k) : Held r (h.allocated L r flags p) k := by
  have hm : Mappable L h.machine (slotAddr p) := Or.inr (pageOf_slotAddr_fst hp)
  have hlt : k < 785407 := hk.elim (fun heq => heq ▸ hp) Held.lt
  refine ⟨hlt, ?_, ?_⟩
  · rw [used_allocated, mark_apply]
    split
    · rfl
    · next hne => exact (hk.resolve_left hne).used
  · rw [Heap.allocated, translate_mapped hI (pageOf_slotAddr_ne hp) hm]
    split
    · next hpage =>
      obtain rfl := (pageOf_slotAddr_inj hlt hp).mp hpage
      exact ⟨_, rfl, rfl⟩
    · next hpage =>
      rw [translate_installed_of_ne hI hm (pageOf_slotAddr_ne hlt)]
      exact (hk.resolve_left fun heq => hpage (by rw [heq])).shows

/-- **A row of allocations** leaves the others held, and holds its own. -/
theorem Held.allocatedAll (hI : PagingInv L h.machine) {ps : List ℕ} (hps : ∀ p ∈ ps, p < 785407)
    (flags : BitVec 16) (hk : k ∈ ps ∨ Held r h k) : Held r (h.allocatedAll L r flags ps) k := by
  induction ps generalizing h with
  | nil => exact hk.resolve_left List.not_mem_nil
  | cons p ps ih =>
    rw [List.forall_mem_cons] at hps
    rw [List.mem_cons, or_assoc, or_left_comm] at hk
    exact ih (hI.allocated hps.1) hps.2 (hk.imp_right (Held.allocated hI hps.1 flags))

/-- Freeing a page leaves the others held, but for the one whose bit it clears. -/
theorem Held.freed (hI : PagingInv L h.machine) {p : ℕ} (hp : p < 785407) (hk : Held r h k)
    (hne : k ≠ p) (hharm : ∀ j ∈ clearedSlot ((slotAddr p).toNat / 4096), k ≠ j) :
    Held r (h.freed L (slotAddr p)) k := by
  refine ⟨hk.lt, ?_, ?_⟩
  · rw [Heap.freed, used_clearPageBit]
    cases hcl : clearedSlot ((slotAddr p).toNat / 4096) with
    | none => exact hk.used
    | some j => rw [Option.elim_some, release_apply, if_neg (hharm j hcl), hk.used]
  · rw [Heap.freed, translate_unmapped hI (pageOf_slotAddr_ne hp), if_neg]
    · exact hk.shows
    · exact fun hpage => hne ((pageOf_slotAddr_inj hk.lt hp).mp hpage)

/-- **A row of frees** leaves the others held, if it is harmless. -/
theorem Held.freedAll (hI : PagingInv L h.machine) {ps : List ℕ} (hps : ∀ p ∈ ps, p < 785407)
    (hk : Held r h k) (hne : k ∉ ps)
    (hharm : ∀ p ∈ ps, ∀ j ∈ clearedSlot ((slotAddr p).toNat / 4096), k ≠ j) :
    Held r (h.freedAll L (ps.map slotAddr)) k := by
  induction ps generalizing h with
  | nil => exact hk
  | cons p ps ih =>
    rw [List.forall_mem_cons] at hps hharm
    rw [List.mem_cons, not_or] at hne
    have hp : (pageOf (slotAddr p)).1 ≠ 1023#10 := pageOf_slotAddr_ne hps.1
    exact ih (hI.unmapped hp) hps.2 (hk.freed hI hps.1 hne.1 hharm.1) hne.2 hharm.2

end Held

/-! ### Rows of pages and their bytes -/

section Row

variable {L : Layout} {r : FreeRegion} {h h' : Heap} {q q' : PageRange} {k k' : ℕ}

/-- Where a row of held pages lies. -/
theorem row_bounds (hbase : q.base = slotAddr k) (hpos : 0 < q.pages.toNat)
    (hlt : ∀ i < q.pages.toNat, k + i < 785407) :
    q.start = 4096 * (k + 1) ∧ q.stop = 4096 * (k + 1 + q.pages.toNat) ∧
      k + q.pages.toNat ≤ 785407 := by
  have hk := hlt 0 hpos
  have hlast := hlt (q.pages.toNat - 1) (by omega)
  have hstart : q.start = 4096 * (k + 1) := by
    rw [PageRange.start, hbase]
    exact toNat_slotAddr (by omega)
  have hstop : q.stop = q.start + 4096 * q.pages.toNat := rfl
  omega

/-- Two rows without a slot in common have no page in common. -/
theorem row_apart (hbase : q.base = slotAddr k) (hpos : 0 < q.pages.toNat)
    (hlt : ∀ i < q.pages.toNat, k + i < 785407) (hbase' : q'.base = slotAddr k')
    (hpos' : 0 < q'.pages.toNat) (hlt' : ∀ i < q'.pages.toNat, k' + i < 785407)
    (hne : ∀ i < q.pages.toNat, ∀ j < q'.pages.toNat, k + i ≠ k' + j) : q.Apart q' := by
  obtain ⟨hstart, hstop, -⟩ := row_bounds hbase hpos hlt
  obtain ⟨hstart', hstop', -⟩ := row_bounds hbase' hpos' hlt'
  rw [PageRange.Apart, hstart, hstop, hstart', hstop']
  by_contra hoverlap
  rcases Nat.le_total k k' with hle | hle
  · exact hne (k' - k) (by omega) 0 hpos' (by omega)
  · exact hne 0 hpos (k - k') (by omega) (by omega)

/-- A byte of a row lies in one of its pages. -/
theorem row_page (hbase : q.base = slotAddr k) (hlt : ∀ i < q.pages.toNat, k + i < 785407)
    {a : Word} (ha : q.start ≤ a.toNat) (ha' : a.toNat < q.stop) :
    ∃ i < q.pages.toNat, pageOf a = pageOf (slotAddr (k + i)) ∧ a.toNat < 0xC0000000 := by
  have hpos : 0 < q.pages.toNat := by
    have hstop : q.stop = q.start + 4096 * q.pages.toNat := rfl
    omega
  obtain ⟨hstart, hstop, hfits⟩ := row_bounds hbase hpos hlt
  refine ⟨a.toNat / 4096 - (k + 1), by omega, ?_, by omega⟩
  rw [pageOf_eq_iff, toNat_slotAddr (hlt _ (by omega))]
  omega

/-- Bytes of pages that are held before and after stay. -/
theorem keeps_of_held {shown : Heap → Heap → Memory → Memory} (hshown : ShowsFrames shown)
    (hbase : q.base = slotAddr k) (hheld : ∀ i < q.pages.toNat, Held r h (k + i))
    (hheld' : ∀ i < q.pages.toNat, Held r h' (k + i)) (mem : Memory) :
    q.Keeps mem (shown h h' mem) := by
  intro a ha ha'
  obtain ⟨i, hi, hpage, hlow⟩ := row_page hbase (fun i hi => (hheld i hi).lt) ha ha'
  obtain ⟨t, ht, hframe⟩ := (hheld i hi).shows
  obtain ⟨t', ht', hframe'⟩ := (hheld' i hi).shows
  rw [← hpage] at ht ht'
  exact hshown h h' mem a t t' hlow ht ht' (hframe.trans hframe'.symm)

end Row

/-! ### The contract -/


section Contract

variable {L : Layout} {r : FreeRegion} {shown : Heap → Heap → Memory → Memory}
  {p p' : KernelPages} {ranges : Multiset PageRange} {mem mem' : Memory} {base n : Word}

/-- `liballoc_alloc`, when the row is a block. -/
theorem LentBy.alloc (hshown : ShowsFrames shown) (h : LentBy L r p ranges)
    (hlends : LendsBlock n p.heap)
    (hcall : (kernelSource L r shown).liballocAlloc n p mem = some (base, p', mem')) :
    (∀ q ∈ ranges, q.Keeps mem mem') ∧
      (base = 0 ∧ LentBy L r p' ranges ∨
        base ≠ 0 ∧ (PageRange.mk base n).stop ≤ 2 ^ 32 ∧
          (∀ q ∈ ranges, (PageRange.mk base n).Apart q) ∧
            LentBy L r p' (⟨base, n⟩ ::ₘ ranges)) := by
  obtain ⟨rfl, hI, hrow, hapart⟩ := h
  have hps : ∀ k ∈ (freeSlots p.heap.pageBitmap).take n.toNat, k < 785407 :=
    fun k => freeSlots_take_lt
  by_cases hout : ∃ k ∈ (freeSlots p.heap.pageBitmap).take n.toNat,
      r.mmapFreeMemoryLength.toNat ≤ 4096 * k
  · -- the call aborts
    rw [kernelSource] at hcall
    simp only [allocPages_abort hI hout] at hcall
    cases hcall
  · have hok := @allocPages_ok L r (pageFlagWritable.setWidth 16) p.heap hI n fun k hk =>
      Nat.lt_of_not_le fun hle => hout ⟨k, hk, hle⟩
    rw [kernelSource] at hcall
    simp only [hok, Option.some.injEq, Prod.mk.injEq] at hcall
    obtain ⟨rfl, rfl, rfl⟩ := hcall
    -- the rows that were lent stay held
    have hheld : ∀ k, Held r p.heap k →
        Held r (p.heap.allocatedAll L r (pageFlagWritable.setWidth 16)
        ((freeSlots p.heap.pageBitmap).take n.toNat)) k :=
      fun k hk => .allocatedAll hI hps _ (Or.inr hk)
    have hrow' : ∀ q ∈ p.lent, 0 < q.pages.toNat ∧ ∃ k, q.base = slotAddr k ∧
        ∀ i < q.pages.toNat, Held r (p.heap.allocatedAll L r (pageFlagWritable.setWidth 16)
          ((freeSlots p.heap.pageBitmap).take n.toNat)) (k + i) := by
      intro q hq
      obtain ⟨hpos, k, hbase, hk⟩ := hrow q hq
      exact ⟨hpos, k, hbase, fun i hi => hheld _ (hk i hi)⟩
    refine ⟨?_, ?_⟩
    · intro q hq
      obtain ⟨-, k, hbase, hk⟩ := hrow q hq
      exact keeps_of_held hshown hbase hk (fun i hi => hheld _ (hk i hi)) mem
    · have hks : (freeSlots p.heap.pageBitmap).take n.toNat = [] ∨
          ∃ k, (freeSlots p.heap.pageBitmap).take n.toNat = List.range' k n.toNat ∧
            0 < n.toNat := by
        rcases Nat.eq_zero_or_pos n.toNat with hn | hn
        · exact Or.inl (by rw [hn, List.take_zero])
        · rcases hlends with hnil | ⟨k, -, hblock, -⟩
          · exact Or.inl (by rw [hnil, List.take_nil])
          · exact Or.inr ⟨k, hblock, hn⟩
      have hclear : ∀ k ∈ (freeSlots p.heap.pageBitmap).take n.toNat,
          used p.heap.pageBitmap k = false :=
        fun k hk => (mem_freeSlots.mp (List.mem_of_mem_take hk)).2.2
      clear hok hout hlends hheld
      generalize (freeSlots p.heap.pageBitmap).take n.toNat = ks at *
      rcases hks with rfl | ⟨k, rfl, hn⟩
      · exact Or.inl ⟨rfl, rfl, hI, hrow', hapart⟩
      · -- the new row is a block, and its slots were not marked
        have hmem : ∀ i < n.toNat, k + i ∈ List.range' k n.toNat := by
          intro i hi
          rw [List.mem_range'_1]
          omega
        have hhead :
            (Option.map slotAddr (List.range' k n.toNat).head?).getD null = slotAddr k := by
          rw [List.head?_range', if_neg (by omega)]
          rfl
        have hne : slotAddr k ≠ 0 := slotAddr_ne_null (hps k (hmem 0 hn))
        rw [hhead, if_neg hne]
        have hnew : ∀ q ∈ p.lent, (PageRange.mk (slotAddr k) n).Apart q := by
          intro q hq
          obtain ⟨hpos, k', hbase, hheld⟩ := hrow q hq
          refine row_apart rfl hn (fun i hi => hps _ (hmem i hi)) hbase hpos
            (fun i hi => (hheld i hi).lt) fun i hi j hj heq => ?_
          have hused := (hheld j hj).used
          rw [← heq, hclear _ (hmem i hi)] at hused
          cases hused
        have hfits := (row_bounds (q := ⟨slotAddr k, n⟩) rfl hn fun i hi => hps _ (hmem i hi)).2
        refine Or.inr ⟨hne, by omega, hnew, ⟨rfl, hI.allocatedAll hps, ?_, ?_⟩⟩
        · intro q hq
          rcases Multiset.mem_cons.mp hq with rfl | hq
          · exact ⟨hn, k, rfl, fun i hi => .allocatedAll hI hps _ (Or.inl (hmem i hi))⟩
          · exact hrow' q hq
        · exact hapart.cons hnew

/-- The addresses that `free_pages` frees for a row. -/
theorem pageAddrs_slotAddr (k n : ℕ) :
    pageAddrs (slotAddr k) n 0 = (List.range' k n).map slotAddr := by
  rw [pageAddrs, List.range'_eq_map_range, List.range'_eq_map_range, List.map_map, List.map_map]
  refine List.map_congr_left fun i _ => ?_
  simp only [Function.comp_apply, Nat.zero_add]
  exact slotAddr_add k i

theorem belowWindow_slotAddr {k : ℕ} (hk : k < 785407) : BelowWindow (slotAddr k) := by
  rw [BelowWindow, toNat_slotAddr hk]
  omega

/-- `liballoc_free`, when the row is harmless. -/
theorem LentBy.free {q : PageRange} (hshown : ShowsFrames shown) (h : LentBy L r p (q ::ₘ ranges))
    (hharm : HarmlessRow q.base q.pages p)
    (hcall : (kernelSource L r shown).liballocFree q.base q.pages p mem = some (p', mem')) :
    (∀ q' ∈ ranges, q'.Keeps mem mem') ∧ LentBy L r p' ranges := by
  obtain ⟨hlent, hI, hrow, hapart⟩ := h
  obtain ⟨hpos, k, hbase, hheld⟩ := hrow q (Multiset.mem_cons_self q ranges)
  have hrest : p.lent.erase ⟨q.base, q.pages⟩ = ranges := by
    rw [hlent]
    exact Multiset.erase_cons_head q ranges
  have hps : ∀ j ∈ List.range' k q.pages.toNat, j < 785407 := by
    intro j hj
    rw [List.mem_range'_1] at hj
    have hlt := (hheld (j - k) (by omega)).lt
    omega
  have hok : freePages q.base q.pages p.heap =
      .ok (p.heap.freedAll L ((List.range' k q.pages.toNat).map slotAddr)) := by
    have haddrs := pageAddrs_slotAddr k q.pages.toNat
    rw [← hbase] at haddrs
    rw [← haddrs]
    refine freePages_ok hI fun a ha => ?_
    rw [haddrs] at ha
    obtain ⟨j, hj, rfl⟩ := List.mem_map.mp ha
    exact belowWindow_slotAddr (hps j hj)
  rw [kernelSource] at hcall
  simp only [hok, Option.some.injEq, Prod.mk.injEq] at hcall
  obtain ⟨rfl, rfl⟩ := hcall
  -- the other rows stay held
  have hother : ∀ q' ∈ ranges, 0 < q'.pages.toNat ∧ ∃ k', q'.base = slotAddr k' ∧
      ∀ i < q'.pages.toNat, Held r p.heap (k' + i) ∧
        Held r (p.heap.freedAll L ((List.range' k q.pages.toNat).map slotAddr)) (k' + i) := by
    intro q' hq'
    obtain ⟨hpos', k', hbase', hheld'⟩ := hrow q' (Multiset.mem_cons_of_mem hq')
    obtain ⟨hstart, hstop, -⟩ := row_bounds hbase hpos fun i hi => (hheld i hi).lt
    obtain ⟨hstart', hstop', -⟩ := row_bounds hbase' hpos' fun i hi => (hheld' i hi).lt
    refine ⟨hpos', k', hbase', fun i hi => ⟨hheld' i hi, (hheld' i hi).freedAll hI hps ?_ ?_⟩⟩
    · intro hin
      rw [List.mem_range'_1] at hin
      have hdisjoint := hapart q ranges rfl q' hq'
      rw [PageRange.Apart] at hdisjoint
      omega
    · intro j hj m hm heq
      rw [List.mem_range'_1] at hj
      rw [toNat_slotAddr (hps j (List.mem_range'_1.mpr hj)),
        Nat.mul_div_cancel_left _ (by decide)] at hm
      have hbaseNat : q.base.toNat = q.start := rfl
      have hindex : q.base.toNat / 4096 + (j - k) = j + 1 := by omega
      refine hharm (j - k) (by omega) m (hindex ▸ hm) q' (hrest ▸ hq') ?_
      omega
  refine ⟨fun q' hq' => ?_, hrest, ?_, fun q' hq' => ?_, hapart.of_cons⟩
  · obtain ⟨-, k', hbase', hheld'⟩ := hother q' hq'
    exact keeps_of_held hshown hbase' (fun i hi => (hheld' i hi).1)
      (fun i hi => (hheld' i hi).2) mem
  · refine hI.freedAll fun a ha => ?_
    obtain ⟨j, hj, rfl⟩ := List.mem_map.mp ha
    exact belowWindow_slotAddr (hps j hj)
  · obtain ⟨hpos', k', hbase', hheld'⟩ := hother q' hq'
    exact ⟨hpos', k', hbase', fun i hi => (hheld' i hi).2⟩

/-- **The contract** holds up to the first row that breaks it. -/
theorem carefulSource_honest (hshown : ShowsFrames shown) :
    (carefulSource L r shown).Honest (LentBy L r) where
  alloc := by
    intro n p mem base p' mem' ranges h hcall
    dsimp only [carefulSource] at hcall
    split at hcall
    · next hlends => exact h.alloc hshown hlends hcall
    · cases hcall
  free := by
    intro q p mem p' mem' ranges h hcall
    dsimp only [carefulSource] at hcall
    split at hcall
    · next hharm => exact h.free hshown hharm hcall
    · cases hcall

end Contract

/-! ### Two sources -/

/-- Where `src` returns, `src'` does the same. -/
structure PageSource.UpTo {σ : Type*} (src src' : PageSource σ) : Prop where
  lends : ∀ {n p mem result}, src.liballocAlloc n p mem = some result →
    src'.liballocAlloc n p mem = some result
  takes : ∀ {base n p mem result}, src.liballocFree base n p mem = some result →
    src'.liballocFree base n p mem = some result

theorem carefulSource_upTo (L : Layout) (r : FreeRegion) (shown : Heap → Heap → Memory → Memory) :
    (carefulSource L r shown).UpTo (kernelSource L r shown) where
  lends := by
    intro n p mem result hcall
    dsimp only [carefulSource] at hcall
    split at hcall
    · exact hcall
    · cases hcall
  takes := by
    intro base n p mem result hcall
    dsimp only [carefulSource] at hcall
    split at hcall
    · exact hcall
    · cases hcall

namespace PageSource.UpTo

open Allocator

variable {σ : Type*} {src src' : PageSource σ} {s s' : Allocator σ} {fuel : ℕ} {size ptr : Word}
  {result : Word × Allocator σ} {lent : σ → Multiset PageRange → Prop}

theorem allocateNewTag (h : src.UpTo src') (hcall : s.allocateNewTag src size = some result) :
    s.allocateNewTag src' size = some result := by
  unfold Allocator.allocateNewTag at hcall ⊢
  cases halloc : src.liballocAlloc (pagesFor size) s.pages s.mem with
  | none => simp [halloc] at hcall
  | some found =>
    rw [h.lends halloc]
    rwa [halloc] at hcall

theorem malloc (h : src.UpTo src') (hm : s.malloc src fuel size = some result) :
    s.malloc src' fuel size = some result := by
  unfold Allocator.malloc at hm ⊢
  dsimp only at hm ⊢
  cases hfind : s.lock.initLists.findTag size fuel
      (s.lock.initLists.freePages (clampExp (getexp size + mode))) with
  | none => simp [hfind] at hm
  | some tag =>
    simp only [hfind] at hm ⊢
    split at hm
    · next h0 =>
      rw [if_pos h0]
      cases hnew : s.lock.initLists.allocateNewTag src size with
      | none => simp [hnew] at hm
      | some found =>
        rw [h.allocateNewTag hnew]
        rwa [hnew] at hm
    · next h0 =>
      rw [if_neg h0]
      exact hm

theorem returnTag {tag : Word} (h : src.UpTo src') (hret : s.returnTag src tag = some s') :
    s.returnTag src' tag = some s' := by
  unfold Allocator.returnTag at hret ⊢
  dsimp only at hret ⊢
  split
  · next hwhole =>
    rw [if_pos hwhole] at hret
    split
    · next hmax =>
      rw [if_pos hmax] at hret
      cases hfree : src.liballocFree tag (pagesOf (s.get tag .realSize)) s.pages s.mem with
      | none => simp [hfree] at hret
      | some found =>
        rw [h.takes hfree]
        rwa [hfree] at hret
    · next hmax => rwa [if_neg hmax] at hret
  · next hwhole => rwa [if_neg hwhole] at hret

theorem free (h : src.UpTo src') (hf : s.free src fuel ptr = some s') :
    s.free src' fuel ptr = some s' := by
  unfold Allocator.free at hf ⊢
  dsimp only at hf ⊢
  split
  · next h0 => rwa [if_pos h0] at hf
  · next h0 =>
    rw [if_neg h0] at hf
    split
    · next hmagic => rwa [if_pos hmagic] at hf
    · next hmagic =>
      rw [if_neg hmagic] at hf
      cases hmelt : meltLeftAll fuel (ptr - tagSize) s.lock with
      | none => simp [hmelt] at hf
      | some melted =>
        cases habsorb : absorbRightAll fuel melted.1 melted.2 with
        | none => simp [hmelt, habsorb] at hf
        | some absorbed =>
          simp only [hmelt, habsorb] at hf ⊢
          exact h.returnTag hf

/-- **The calls** return the same. -/
theorem step (h : src.UpTo src') {call : AllocatorCall}
    (hstep : AllocatorStep src lent fuel s call s') : AllocatorStep src' lent fuel s call s' := by
  cases hstep with
  | malloc hm => exact .malloc (h.malloc hm)
  | calloc hc =>
    obtain ⟨s₁, hm, hzero, heq⟩ := calloc_eq_some.mp hc
    exact .calloc (calloc_eq_some.mpr ⟨s₁, h.malloc hm, hzero, heq⟩)
  | free hf => exact .free (h.free hf)
  | @realloc _ p size ptr hr =>
    refine .realloc ?_
    by_cases hsize : size = 0
    · rw [Allocator.realloc, if_pos hsize] at hr ⊢
      cases hf : s.free src fuel p with
      | none => simp [hf] at hr
      | some freed =>
        rw [h.free hf]
        rwa [hf] at hr
    · by_cases hp : p = 0
      · rw [Allocator.realloc, if_neg hsize, if_pos hp] at hr ⊢
        exact h.malloc hr
      · obtain ⟨s₁, hm, hzero, hf⟩ := (realloc_eq_some hsize hp).mp hr
        exact (realloc_eq_some hsize hp).mpr ⟨s₁, h.malloc hm, hzero, h.free hf⟩
  | store => exact .store
  | load => exact .load
  | elsewhere hkeep => exact .elsewhere hkeep

end PageSource.UpTo

/-! ### Regions of a fresh system -/

/-- The slot of the page that is handed out after `j` others. -/
def freshSlot (j : ℕ) : ℕ := j + j / 31

/-- **The free slots of a fresh system**: 31 in each word of the bitmap. -/
theorem freeSlots_fresh : freeSlots (fun _ => 0) = (List.range 760864).map freshSlot := by
  have hsorted : ((List.range 760864).map freshSlot).Pairwise (· < ·) := by
    rw [List.pairwise_map]
    refine List.pairwise_lt_range.imp fun hlt => ?_
    rw [freshSlot, freshSlot]
    omega
  have hfree : (freeSlots fun _ => 0).Pairwise (· < ·) := frees_sorted
  have hmem : ∀ k, k ∈ freeSlots (fun _ => 0) ↔ k ∈ (List.range 760864).map freshSlot := by
    intro k
    have hzero : used (fun _ => 0) k = false := by simp [used]
    simp only [mem_freeSlots, hzero, and_true, List.mem_map, List.mem_range, freshSlot]
    constructor
    · rintro ⟨hlt, hne⟩
      exact ⟨k - k / 32, by omega, by omega⟩
    · rintro ⟨j, hj, rfl⟩
      omega
  have hperm : (freeSlots fun _ => 0).Perm ((List.range 760864).map freshSlot) :=
    (List.perm_ext_iff_of_nodup (hfree.imp Nat.ne_of_lt) (hsorted.imp Nat.ne_of_lt)).mpr hmem
  exact hperm.eq_of_pairwise (fun a b _ _ hab hba => absurd hab (by omega)) hfree hsorted

/-- A row of a fresh system is a range when it stays in one word. -/
theorem freshRow_eq_range'_iff {m n k : ℕ} (hn : 0 < n) :
    (List.range' m n).map freshSlot = List.range' k n ↔ k = freshSlot m ∧ m % 31 + n ≤ 31 := by
  constructor
  · intro h
    have hat : ∀ i < n, freshSlot (m + i) = k + i := by
      intro i hi
      have hget := congrArg (fun l => l[i]?) h
      simpa [hi] using hget
    have hfirst := hat 0 hn
    have hlast := hat (n - 1) (by omega)
    rw [freshSlot] at hfirst hlast
    rw [freshSlot]
    omega
  · rintro ⟨rfl, hword⟩
    refine List.ext_getElem (by simp) fun i hi hi' => ?_
    have hlt : i < n := by simpa using hi
    simp only [List.getElem_map, List.getElem_range', freshSlot]
    omega

/-- A system that has handed out `m` pages and freed none. -/
structure FreshAfter (L : Layout) (m : ℕ) (h : Heap) : Prop where
  paging : PagingInv L h.machine
  free : freeSlots h.pageBitmap = (List.range' m (760864 - m)).map freshSlot
  unmapped : ∀ j, m ≤ j → j < 760864 →
    h.machine.translate (pageOf (slotAddr (freshSlot j))) = none

/-- One region for the allocator. -/
def RegionStep (L : Layout) (r : FreeRegion) (h : Heap) (pages : Word) (h' : Heap) : Prop :=
  ∃ ptr, allocPages L r pages (pageFlagWritable.setWidth 16) h = .ok (ptr, h')

section Fresh

variable {L : Layout} {r : FreeRegion} {h h' : Heap} {m : ℕ} {n : Word}

theorem freshSlot_lt {j : ℕ} (hj : j < 760864) : freshSlot j < 785407 := by
  rw [freshSlot]
  omega

theorem FreshAfter.start {mem : Frame → Index → Word}
    (hinit : pagingInitialize L (MVK.start L mem) = .ok h) : FreshAfter L 0 h := by
  obtain ⟨hI, hbitmap⟩ := initialized_of_ok hinit
  refine ⟨hI.pagingInv, ?_, ?_⟩
  · rw [hbitmap, freeSlots_fresh, List.range_eq_range']
  · intro j _ hj
    have hfst := pageOf_slotAddr_fst (freshSlot_lt hj)
    rw [hI.translate (ne_of_lt_767 hfst), if_neg (by omega)]

theorem FreshAfter.take (hF : FreshAfter L m h) (hfits : m + n.toNat ≤ 760864) :
    (freeSlots h.pageBitmap).take n.toNat = (List.range' m n.toNat).map freshSlot := by
  rw [hF.free, ← List.map_take, List.take_range'_of_length_ge (by omega)]

/-- **One region more.** -/
theorem FreshAfter.step (hF : FreshAfter L m h) (hfits : m + n.toNat ≤ 760864)
    (hstep : RegionStep L r h n h') : FreshAfter L (m + n.toNat) h' := by
  obtain ⟨ptr, hcall⟩ := hstep
  have hps : ∀ k ∈ (freeSlots h.pageBitmap).take n.toNat, k < 785407 :=
    fun k => freeSlots_take_lt
  by_cases hout : ∃ k ∈ (freeSlots h.pageBitmap).take n.toNat,
      r.mmapFreeMemoryLength.toNat ≤ 4096 * k
  · rw [allocPages_abort hF.paging hout] at hcall
    cases hcall
  · rw [allocPages_ok hF.paging fun k hk => Nat.lt_of_not_le fun hle => hout ⟨k, hk, hle⟩] at hcall
    obtain rfl := (Prod.mk.inj (Except.ok.inj hcall)).2
    refine ⟨hF.paging.allocatedAll hps, ?_, ?_⟩
    · refine freeSlots_allocatedAll ?_
      rw [hF.take hfits, hF.free, ← List.map_append]
      congr 1
      rw [List.range'_append_1]
      congr 1
      omega
    · intro j hj hlt
      have hslot := freshSlot_lt hlt
      rw [← Option.not_isSome_iff_eq_none,
        isSome_translate_allocatedAll hF.paging hps (pageOf_slotAddr_ne hslot)]
      rintro (⟨k, hk, hpage⟩ | hold)
      · have hkj := (pageOf_slotAddr_inj hslot (hps k hk)).mp hpage
        rw [hF.take hfits] at hk
        obtain ⟨i, hi, rfl⟩ := List.mem_map.mp hk
        rw [List.mem_range'_1] at hi
        rw [freshSlot, freshSlot] at hkj
        omega
      · rw [hF.unmapped j (by omega) hlt] at hold
        cases hold

/-- **When the next region is a block**: when it ends in the word of the bitmap in which it
starts. -/
theorem FreshAfter.lendsBlock_iff (hF : FreshAfter L m h) (hm : m < 760864) (hn : 0 < n.toNat) :
    LendsBlock n h ↔ m % 31 + n.toNat ≤ 31 := by
  have hcons : freeSlots h.pageBitmap ≠ [] := by
    rw [hF.free]
    intro hnil
    have hlength := congrArg List.length hnil
    rw [List.length_map, List.length_range', List.length_nil] at hlength
    omega
  have hhead : (freeSlots h.pageBitmap).head? = some (freshSlot m) := by
    rw [hF.free, List.head?_map, List.head?_range', if_neg (by omega)]
    rfl
  constructor
  · rintro (hnil | ⟨k, -, hblock, -⟩)
    · exact absurd hnil hcons
    · have hfits : m + n.toNat ≤ 760864 := by
        have hlength := congrArg List.length hblock
        rw [List.length_take, hF.free, List.length_map, List.length_range',
          List.length_range'] at hlength
        omega
      rw [hF.take hfits, freshRow_eq_range'_iff hn] at hblock
      exact hblock.2
  · intro hword
    have hfits : m + n.toNat ≤ 760864 := by omega
    have hrow := (freshRow_eq_range'_iff hn).mpr ⟨rfl, hword⟩
    refine Or.inr ⟨freshSlot m, hhead, (hF.take hfits).trans hrow, fun i hi => ?_⟩
    have hslot : freshSlot m + i = freshSlot (m + i) := by
      rw [freshSlot, freshSlot]
      omega
    rw [hslot]
    exact hF.unmapped _ (by omega) (by omega)

/-- The next region, when memory has the pages. -/
theorem FreshAfter.exists_step (hF : FreshAfter L m h) (hfits : m + n.toNat ≤ 760864)
    (hroom : 4096 * freshSlot (m + n.toNat) ≤ r.mmapFreeMemoryLength.toNat) :
    ∃ h', RegionStep L r h n h' := by
  refine ⟨_, _, allocPages_ok hF.paging fun k hk => ?_⟩
  rw [hF.take hfits] at hk
  obtain ⟨j, hj, rfl⟩ := List.mem_map.mp hk
  rw [List.mem_range'_1] at hj
  rw [freshSlot] at hroom ⊢
  omega

/-- The first step of a run of blocks. -/
theorem RegionStep.blocks_of_cons {h₁ : Heap} {ns : List Word} (hstep : RegionStep L r h n h₁)
    (hblocks : Run (fun h n h' => LendsBlock n h ∧ RegionStep L r h n h') h (n :: ns) h') :
    LendsBlock n h ∧ Run (fun h n h' => LendsBlock n h ∧ RegionStep L r h n h') h₁ ns h' := by
  cases hblocks with
  | cons hfirst hrest =>
    obtain ⟨hblock, ptr, hcall⟩ := hfirst
    obtain ⟨ptr', hcall'⟩ := hstep
    obtain ⟨-, rfl⟩ := Prod.mk.inj (Except.ok.inj (hcall'.symm.trans hcall))
    exact ⟨hblock, hrest⟩

/-- **When all regions of a fresh system are blocks**: when each but the last has 31 pages, and
the last not more.  No region has less than sixteen. -/
theorem regions_are_blocks_iff {mem : Frame → Index → Word}
    (hinit : pagingInitialize L (MVK.start L mem) = .ok h) {ns : List Word}
    (hrun : Run (RegionStep L r) h ns h') (hleast : ∀ n ∈ ns, 16 ≤ n.toNat)
    (hsum : (ns.map BitVec.toNat).sum ≤ 760864) :
    Run (fun h n h' => LendsBlock n h ∧ RegionStep L r h n h') h ns h' ↔
      (∀ n ∈ ns.dropLast, n.toNat = 31) ∧ ∀ n ∈ ns.getLast?, n.toNat ≤ 31 := by
  -- by induction on the run, from any multiple of 31 pages on
  have hgeneral : ∀ m h, FreshAfter L m h → m % 31 = 0 →
      Run (RegionStep L r) h ns h' → m + (ns.map BitVec.toNat).sum ≤ 760864 →
      (Run (fun h n h' => LendsBlock n h ∧ RegionStep L r h n h') h ns h' ↔
        (∀ n ∈ ns.dropLast, n.toNat = 31) ∧ ∀ n ∈ ns.getLast?, n.toNat ≤ 31) := by
    clear hinit hrun hsum
    intro m h hF hm hrun hsum
    induction hrun generalizing m with
    | nil => simpa using Run.nil _
    | @cons h h₁ h' n ns hstep hrest ih =>
      rw [List.map_cons, List.sum_cons] at hsum
      have hn := hleast n List.mem_cons_self
      have hleast' : ∀ n ∈ ns, 16 ≤ n.toNat := fun k hk => hleast k (List.mem_cons_of_mem n hk)
      have hiff := @FreshAfter.lendsBlock_iff L h m n hF (by omega) (by omega)
      have hF₁ := hF.step (by omega) hstep
      cases ns with
      | nil =>
        cases hrest
        simp only [List.dropLast_singleton, List.not_mem_nil, false_implies, implies_true, true_and,
          List.getLast?_singleton, Option.mem_some_iff, forall_eq']
        constructor
        · intro hblocks
          have hword := hiff.mp (hstep.blocks_of_cons hblocks).1
          omega
        · intro hle
          exact .single ⟨hiff.mpr (by omega), hstep⟩
      | cons n' ns =>
        rw [List.dropLast_cons_cons, List.forall_mem_cons, List.getLast?_cons_cons]
        constructor
        · intro hblocks
          obtain ⟨hblock, hrest'⟩ := hstep.blocks_of_cons hblocks
          -- the second region is a block too, and starts where the first ends
          have hsecond : LendsBlock n' h₁ := by
            cases hrest' with
            | cons hblock' _ => exact hblock'.1
          have hn' := hleast' n' List.mem_cons_self
          rw [List.map_cons, List.sum_cons] at hsum
          have hword := hiff.mp hblock
          have hword' := (hF₁.lendsBlock_iff (by omega) (by omega)).mp hsecond
          have h31 : n.toNat = 31 := by omega
          have hiff' := ih hleast' (m + n.toNat) hF₁ (by omega) (by
            rw [List.map_cons, List.sum_cons]
            omega)
          obtain ⟨hall, hlast⟩ := hiff'.mp hrest'
          exact ⟨⟨h31, hall⟩, hlast⟩
        · rintro ⟨⟨h31, hall⟩, hlast⟩
          have hrest' := (ih hleast' (m + n.toNat) hF₁ (by omega) (by omega)).mpr ⟨hall, hlast⟩
          exact .cons ⟨hiff.mpr (by omega), hstep⟩ hrest'
  exact hgeneral 0 h (.start hinit) rfl hrun (by omega)

theorem regions_are_blocks_iff_sample :
    ∃ h h', pagingInitialize sampleLayout (start sampleLayout fun _ _ => 0) = .ok h ∧
      Run (RegionStep sampleLayout sampleRegion) h [16, 16] h' ∧
      ¬ Run (fun h n h' => LendsBlock n h ∧ RegionStep sampleLayout sampleRegion h n h')
        h [16, 16] h' := by
  obtain ⟨h, hinit, -, -⟩ := pagingInitialize_spec sampleLayout fun _ _ => 0
  have hF : FreshAfter sampleLayout 0 h := .start hinit
  obtain ⟨h₁, hstep⟩ := hF.exists_step (r := sampleRegion) (n := 16) (by decide)
    (by decide +kernel)
  obtain ⟨h₂, hstep'⟩ := (hF.step (by decide) hstep).exists_step (r := sampleRegion) (n := 16)
    (by decide) (by decide +kernel)
  have hrun : Run (RegionStep sampleLayout sampleRegion) h [16, 16] h₂ :=
    .cons hstep (.single hstep')
  refine ⟨h, h₂, hinit, hrun, fun hblocks => ?_⟩
  have h31 := ((regions_are_blocks_iff hinit hrun (by simp) (by decide +kernel)).mp hblocks).1 16
    (by simp)
  exact absurd h31 (by decide)

end Fresh

/-! ### The allocator of the kernel -/

theorem LentBy.start {L : Layout} {r : FreeRegion} {mem : Frame → Index → Word} {h : Heap}
    (hinit : pagingInitialize L (start L mem) = .ok h) : LentBy L r ⟨h, 0⟩ 0 where
  lent := rfl
  paging := (initialized_of_ok hinit).1.pagingInv
  row := fun q hq => absurd hq (Multiset.notMem_zero q)
  apart := fun _ _ heq => absurd heq.symm Multiset.cons_ne_zero

/-- **The allocator on the kernel's pages.**  From `paging_initialize` on, in every run in
which the rows that are handed out are blocks and the rows that are given back clear the bit
of no lent page: the allocator is a store of objects, and each byte of an object lies in a
page that is marked and shows its own page of the free region. -/
theorem kernel_heap_in_order {L : Layout} {r : FreeRegion} {mem : Frame → Index → Word} {h : Heap}
    {shown : Heap → Heap → Memory → Memory} {s s' : Allocator KernelPages} {fuel : ℕ}
    {calls : List AllocatorCall} (hshown : ShowsFrames shown)
    (hinit : pagingInitialize L (start L mem) = .ok h) (hpages : s.pages = ⟨h, 0⟩)
    (huntouched : s.initialized = 0) (hfuel : 2 ^ 32 < fuel)
    (hrun : Run (AllocatorStep (carefulSource L r shown) (LentBy L r) fuel) s calls s')
    (hask : Along AllocatorCall.after AllocatorCall.Asked (fun _ => none) calls) :
    Run (AllocatorStep (kernelSource L r shown) (LentBy L r) fuel) s calls s' ∧
      Along AllocatorCall.after AllocatorCall.Granted (fun _ => none) calls ∧
      Represents (LentBy L r) s' (calls.foldl AllocatorCall.after fun _ => none) ∧
      ∀ p bytes, calls.foldl AllocatorCall.after (fun _ => none) p = some bytes →
        ∀ i < bytes.length, ∃ k, pageOf (p + BitVec.ofNat 32 i) = pageOf (slotAddr k) ∧
          Held r s'.pages.heap k := by
  have hstart : Represents (LentBy L r) s fun _ => none :=
    .start huntouched (hpages ▸ .start hinit)
  obtain ⟨hgrant, hrep⟩ := hstart.run (carefulSource_honest hshown) hfuel hrun hask
  refine ⟨?_, hgrant, hrep, ?_⟩
  · exact hrun.refine (P := fun _ => True) (fun _ _ _ _ h => h)
      (fun _ _ _ _ hstep => (carefulSource_upTo L r shown).step hstep) trivial
  · obtain ⟨ranges, hlent, hplace⟩ := hrep.in_place
    intro p bytes hp i hi
    obtain ⟨-, q, hq, hstart, hstop⟩ := hplace p bytes hp
    obtain ⟨hpos, k, hbase, hheld⟩ := hlent.row q hq
    obtain ⟨-, hstop', hfits⟩ := row_bounds hbase hpos fun i hi => (hheld i hi).lt
    have hat : (p + BitVec.ofNat 32 i).toNat = p.toNat + i := by
      rw [BitVec.toNat_add, BitVec.toNat_ofNat]
      omega
    obtain ⟨j, hj, hpage, -⟩ := @row_page q k hbase (fun i hi => (hheld i hi).lt)
      (p + BitVec.ofNat 32 i) (by omega) (by omega)
    exact ⟨k + j, hpage, hheld j hj⟩

/-- The allocator as the kernel starts. -/
def kernelStart (h : Heap) : Allocator KernelPages where
  mem _ := 0
  pages := ⟨h, 0⟩
  flags := ⟨true, []⟩
  freePages _ := 0
  completePages _ := 0
  initialized := 0

theorem kernel_heap_in_order_sample :
    ∃ h s', pagingInitialize sampleLayout (MVK.start sampleLayout fun _ _ => 0) = .ok h ∧
      Run (AllocatorStep (kernelSource sampleLayout sampleRegion fun _ _ mem => mem)
        (LentBy sampleLayout sampleRegion) (2 ^ 32 + 1)) (kernelStart h) [.malloc 100 0x1020] s' ∧
      ∃ k, pageOf 0x1020 = pageOf (slotAddr k) ∧ Held sampleRegion s'.pages.heap k := by
  obtain ⟨h, hinit, -, -⟩ := pagingInitialize_spec sampleLayout fun _ _ => 0
  have hF : FreshAfter sampleLayout 0 h := .start hinit
  -- the first region is a block, and starts at `0x1000`
  have hlends : LendsBlock (Allocator.pagesFor 100) h :=
    (hF.lendsBlock_iff (by decide) (by decide)).mpr (by decide)
  have htake := @FreshAfter.take _ _ _ (Allocator.pagesFor 100) hF (by decide)
  have hcall := @allocPages_ok sampleLayout sampleRegion (pageFlagWritable.setWidth 16) h hF.paging
    (Allocator.pagesFor 100) (by rw [htake]; decide)
  rw [htake] at hcall
  have hnothing :
      HeapOk (LentBy sampleLayout sampleRegion) (kernelStart h).initLists [] fun _ => [] :=
    .nothing rfl (.start hinit)
  obtain ⟨s', hm⟩ : ∃ s', (kernelStart h).malloc
      (carefulSource sampleLayout sampleRegion fun _ _ mem => mem) (2 ^ 32 + 1) 100 =
        some (0x1020, s') := by
    obtain ⟨pages, halloc⟩ : ∃ pages,
        (carefulSource sampleLayout sampleRegion fun _ _ mem => mem).liballocAlloc
          (Allocator.pagesFor 100) (kernelStart h).initLists.pages (kernelStart h).initLists.mem =
            some (0x1000, pages, (kernelStart h).initLists.mem) := by
      dsimp only [carefulSource]
      rw [show (kernelStart h).initLists.pages = ⟨h, 0⟩ from rfl, if_pos hlends]
      dsimp only [kernelSource]
      rw [hcall]
      exact ⟨_, rfl⟩
    rw [malloc_eq hnothing (by decide), List.find?_nil, halloc]
    exact ⟨_, rfl⟩
  obtain ⟨hrun, -, -, hheld⟩ := kernel_heap_in_order (fun _ _ _ _ _ _ _ _ _ _ => rfl) hinit rfl rfl
    (by decide) (.single (.malloc hm))
    ⟨⟨(by decide : (100 : Word).toNat + 32 < 2 ^ 32), trivial⟩, trivial⟩
  obtain ⟨k, hk⟩ := hheld 0x1020 (List.replicate 100 none) rfl 0 (by decide)
  exact ⟨h, s', hinit, hrun, k, hk⟩

end MVK
