import MVK.Rows

/-!
# The search of `alloc_page`

Which pages can `alloc_page` find, and where do they lie?  The scan passes over bit 0 of
every word, so pages `31, 63, …` are never handed out, and the search is complete only
where none of them comes first.  The same gap keeps the last bit of the bitmap, whose
page would have no table, out of reach: every page that is found has one.

## Main definitions

* `Usable` — the pages that the region and the tables have room for.
* `FirstFitSearch` — what a complete first-fit search does.
* `InHeapWindow` — the arithmetic of `alloc_page` stays in range.
* `HandsOut` — what a call of `alloc_page` does that maps a page.

## Main results

* `allocPage_first_fit_iff` — exactly when one call is a first-fit search.
* `alloc_page_first_fit_iff` — **the same, in every state and for every bitmap.**
* `alloc_page_in_window` — **`alloc_page` has a table for every page that it maps.**
-/

namespace MVK

open FirstFit Translation Translation.Prog Transition

/-! ### Completeness -/

/-- Page `p` lies in the region, and its address below the last of the tables. -/
def Usable (r : FreeRegion) (p : ℕ) : Prop :=
  p * 4096 < r.mmapFreeMemoryLength.toNat ∧ p * 4096 + 4096 < freePageTablesSize * 4194304

/-- The outcome of a complete first-fit search: it takes the least usable page whose bit
is clear and sets that bit only; it fails only when there is none. -/
def FirstFitSearch (r : FreeRegion) (page_bitmap : ℕ → Word) :
    Except Stop (Word × Heap) → Prop
  | .ok (ret, h') =>
    (∃ p, IsLeast {p | Usable r p ∧ used page_bitmap p = false} p ∧
      ret.toNat = p * 4096 + 4096 ∧ used h'.pageBitmap = mark (used page_bitmap) p) ∨
    (ret = null ∧ ∀ p, Usable r p → used page_bitmap p = true)
  | .error (.abort msg) => msg = "OUT OF MEMORY" ∧ ∀ p, Usable r p → used page_bitmap p = true
  | .error .fault => False

/-- No usable page behind bit 0 of its word is the first that is clear. -/
def NoHiddenPage (r : FreeRegion) (page_bitmap : ℕ → Word) : Prop :=
  ∀ p, Usable r p → p % 32 = 31 → used page_bitmap p = false →
    ∃ q, q < p ∧ q % 32 ≠ 31 ∧ used page_bitmap q = false

section Search

variable {L : Layout} {r : FreeRegion} {h : Heap}

theorem Usable.lt {p : ℕ} (hp : Usable r p) : p < 785407 := by
  have hlt := hp.2
  rw [freePageTablesSize_eq] at hlt
  omega

/-- A page that the scan can hand out is usable if it lies in the region. -/
theorem usable_of_lt {p : ℕ} (hp : p < 785407)
    (hlen : ¬ r.mmapFreeMemoryLength.toNat ≤ 4096 * p) : Usable r p := by
  refine ⟨by omega, ?_⟩
  rw [freePageTablesSize_eq]
  omega

/-- Of the clear usable pages, the scan misses those behind bit 0. -/
theorem mem_freeSlots_of_usable {bm : ℕ → Word} {p : ℕ} (hp : Usable r p)
    (hclear : used bm p = false) (hm : p % 32 ≠ 31) : p ∈ freeSlots bm :=
  mem_freeSlots.mpr ⟨hp.lt, hm, hclear⟩

/-- With no free slot, the search is complete when no page is hidden. -/
theorem all_used_iff_of_nil {bm : ℕ → Word} (hfs : freeSlots bm = []) :
    (∀ p, Usable r p → used bm p = true) ↔ NoHiddenPage r bm := by
  constructor
  · intro hall p hp _ hclear
    rw [hall p hp] at hclear
    exact absurd hclear (by decide)
  · intro hno p hp
    by_contra hclear
    rw [Bool.not_eq_true] at hclear
    have hscanned : ∃ q, q < 785407 ∧ q % 32 ≠ 31 ∧ used bm q = false := by
      by_cases hm : p % 32 = 31
      · obtain ⟨q, hq, hmq, hcq⟩ := hno p hp hm hclear
        exact ⟨q, hq.trans hp.lt, hmq, hcq⟩
      · exact ⟨p, hp.lt, hm, hclear⟩
    obtain ⟨q, hq⟩ := hscanned
    have hmem := mem_freeSlots.mpr hq
    rw [hfs] at hmem
    exact absurd hmem List.not_mem_nil

section Cons

variable {bm : ℕ → Word} {p : ℕ} {ps : List ℕ}

/-- The free slots come in order. -/
theorem le_of_freeSlots_cons (hfs : freeSlots bm = p :: ps) {q : ℕ} (hq : q ∈ freeSlots bm) :
    p ≤ q := by
  have hsorted : (p :: ps).Pairwise (· < ·) := hfs ▸ frees_sorted
  rw [hfs] at hq
  rcases List.mem_cons.mp hq with rfl | hq
  · exact le_rfl
  · exact (List.rel_of_pairwise_cons hsorted hq).le

/-- The first free slot is the least clear page when no page is hidden before it. -/
theorem isLeast_iff_of_cons (hfs : freeSlots bm = p :: ps) (hp : Usable r p) :
    IsLeast {p | Usable r p ∧ used bm p = false} p ↔ NoHiddenPage r bm := by
  obtain ⟨hlt, hm, hclear⟩ := of_freeSlots_cons hfs
  constructor
  · rintro ⟨-, hleast⟩ q hq hmq hcq
    have hle : p ≤ q := hleast ⟨hq, hcq⟩
    exact ⟨p, by omega, hm, hclear⟩
  · intro hno
    refine ⟨⟨hp, hclear⟩, ?_⟩
    rintro q ⟨hq, hcq⟩
    by_cases hmq : q % 32 = 31
    · obtain ⟨q', hlt', hm', hc'⟩ := hno q hq hmq hcq
      have hle := le_of_freeSlots_cons hfs
        (mem_freeSlots.mpr ⟨hlt'.trans hq.lt, hm', hc'⟩)
      omega
    · exact le_of_freeSlots_cons hfs (mem_freeSlots_of_usable hq hcq hmq)

/-- When the first free slot lies past the region, all is used unless a page is hidden. -/
theorem all_used_iff_of_cons (hfs : freeSlots bm = p :: ps)
    (hlen : r.mmapFreeMemoryLength.toNat ≤ 4096 * p) :
    (∀ q, Usable r q → used bm q = true) ↔ NoHiddenPage r bm := by
  constructor
  · intro hall q hq _ hclear
    rw [hall q hq] at hclear
    exact absurd hclear (by decide)
  · intro hno q hq
    by_contra hclear
    rw [Bool.not_eq_true] at hclear
    have hin := hq.1
    by_cases hm : q % 32 = 31
    · obtain ⟨q', hlt', hm', hc'⟩ := hno q hq hm hclear
      have hle := le_of_freeSlots_cons hfs
        (mem_freeSlots.mpr ⟨hlt'.trans hq.lt, hm', hc'⟩)
      omega
    · have hle := le_of_freeSlots_cons hfs (mem_freeSlots_of_usable hq hclear hm)
      omega

end Cons

/-- **Exactly when one call is a first-fit search.** -/
theorem allocPage_first_fit_iff (hI : PagingInv L h.machine) (flags : BitVec 16) :
    FirstFitSearch r h.pageBitmap (allocPage L r flags h) ↔ NoHiddenPage r h.pageBitmap := by
  rw [allocPage_spec hI]
  cases hfs : freeSlots h.pageBitmap with
  | nil =>
    rw [← all_used_iff_of_nil hfs]
    constructor
    · rintro (⟨p, -, hret, -⟩ | ⟨-, hall⟩)
      · rw [show null.toNat = 0 from rfl] at hret
        omega
      · exact hall
    · exact fun hall => Or.inr ⟨rfl, hall⟩
  | cons p ps =>
    have hlt : p < 785407 := (of_freeSlots_cons hfs).1
    dsimp only
    split
    · next hlen => exact (and_iff_right rfl).trans (all_used_iff_of_cons hfs hlen)
    · next hlen =>
      have haddr := toNat_slotAddr hlt
      rw [← isLeast_iff_of_cons hfs (usable_of_lt hlt hlen)]
      constructor
      · rintro (⟨q, hleast, hret, -⟩ | ⟨hnull, -⟩)
        · rw [haddr] at hret
          rwa [show p = q by omega]
        · exact absurd hnull (slotAddr_ne_null hlt)
      · exact fun hleast => Or.inl ⟨p, hleast, by omega, used_allocated p⟩

end Search

/-- **When `alloc_page` is a complete first-fit search.**  With the tables of any state
that calls can reach, for every content of the bitmap and every length of the region. -/
theorem alloc_page_first_fit_iff {L : Layout} {r₀ : FreeRegion} {mem : Frame → Index → Word}
    {h₀ h : Heap} (hinit : pagingInitialize L (start L mem) = .ok h₀) {cs : List HeapCall}
    (hrun : Run (CallStep L r₀) h₀ cs h) (r : FreeRegion) (page_bitmap : ℕ → Word)
    (flags : BitVec 16) :
    FirstFitSearch r page_bitmap (allocPage L r flags ⟨h.machine, page_bitmap⟩) ↔
      NoHiddenPage r page_bitmap := by
  have hI := pagingInv_of_calls hinit hrun
  exact @allocPage_first_fit_iff L r ⟨h.machine, page_bitmap⟩ hI flags

/-- After the first 31 pages `alloc_page` returns `0x21000`, although the page at `0x20000`
is usable and its bit is clear. -/
theorem alloc_page_skips_page :
    ∃ h₀ h h', pagingInitialize sampleLayout (start sampleLayout fun _ _ => 0) = .ok h₀ ∧
      Run (CallStep sampleLayout sampleRegion) h₀ [.allocPages 31 2] h ∧
      allocPage sampleLayout sampleRegion 2 h = .ok (0x21000, h') ∧
      Usable sampleRegion 31 ∧ used h.pageBitmap 31 = false ∧
      ¬ FirstFitSearch sampleRegion h.pageBitmap (allocPage sampleLayout sampleRegion 2 h) := by
  obtain ⟨h₀, hinit, hI₀, hbitmap⟩ := pagingInitialize_spec sampleLayout fun _ _ => 0
  obtain ⟨qs, hqs⟩ := freeSlots_zero hbitmap
  have hI := hI₀.pagingInv
  have htake : (freeSlots h₀.pageBitmap).take (31 : Word).toNat = List.range 31 := by
    rw [hqs]
    rfl
  have hrow := @allocPages_ok sampleLayout sampleRegion 2 h₀ hI 31 (by rw [htake]; decide)
  rw [htake] at hrow
  have hI' : PagingInv sampleLayout
      (h₀.allocatedAll sampleLayout sampleRegion 2 (List.range 31)).machine :=
    hI.allocatedAll (by decide)
  have hrest : freeSlots
      (h₀.allocatedAll sampleLayout sampleRegion 2 (List.range 31)).pageBitmap = 32 :: qs := by
    refine freeSlots_allocatedAll ?_
    rw [hqs, firstSlots, List.append_assoc, List.singleton_append]
  have hclear : used
      (h₀.allocatedAll sampleLayout sampleRegion 2 (List.range 31)).pageBitmap 31 = false := by
    rw [used_allocatedAll, ← Bool.not_eq_true, markAll_apply, hbitmap]
    decide
  have hlen : 4096 * 32 < sampleRegion.mmapFreeMemoryLength.toNat := by decide
  have hcall := allocPage_slot hI' hrest hlen 2
  refine ⟨h₀, _, _, hinit, .single ⟨?_, ?_⟩, hcall, ⟨by decide, by decide⟩, hclear, ?_⟩
  · exact fun a ha => absurd ha List.not_mem_nil
  · rw [HeapCall.exec, hrow]
    rfl
  · rw [allocPage_first_fit_iff hI']
    intro hno
    obtain ⟨q, hq, -, hfree⟩ := hno 31 ⟨by decide, by decide⟩ rfl hclear
    rw [used_allocatedAll, ← Bool.not_eq_true, markAll_apply, List.mem_range] at hfree
    exact hfree (Or.inr hq)

/-- The second page is found. -/
theorem alloc_page_first_fit_iff_sample :
    ∃ h₀ h, pagingInitialize sampleLayout (start sampleLayout fun _ _ => 0) = .ok h₀ ∧
      Run (CallStep sampleLayout sampleRegion) h₀ [.allocPage 2] h ∧
      FirstFitSearch sampleRegion h.pageBitmap (allocPage sampleLayout sampleRegion 2 h) := by
  obtain ⟨h₀, hinit, hI, hbitmap⟩ := pagingInitialize_spec sampleLayout fun _ _ => 0
  obtain ⟨qs, hqs⟩ := freeSlots_zero hbitmap
  have hfs : freeSlots h₀.pageBitmap = 0 :: (firstSlots.tail ++ qs) := hqs
  have hrun : Run (CallStep sampleLayout sampleRegion) h₀ [.allocPage 2] _ :=
    .single (.alloc_slot hI.pagingInv hfs (by decide) 2)
  refine ⟨h₀, _, hinit, hrun, (alloc_page_first_fit_iff hinit hrun sampleRegion _ 2).mpr ?_⟩
  intro p _ hm _
  refine ⟨1, by omega, by decide, ?_⟩
  rw [used_allocated, hbitmap]
  rfl

/-! ### Safety -/

/-- The offset and the address of a page do not wrap, and the address lies in the window of
the heap, which the tables cover. -/
structure InHeapWindow (page_index : Word) : Prop where
  offset : (page_index * pageSize).toNat = page_index.toNat * 4096
  address : (page_index * pageSize + pageSize).toNat = page_index.toNat * 4096 + 4096
  low : 0x1000 ≤ page_index * pageSize + pageSize
  high : page_index * pageSize + pageSize < 0xBFC00000
  table : ((page_index * pageSize + pageSize) >>> 22).toNat < freePageTablesSize
  ne_null : page_index * pageSize + pageSize ≠ null

/-- Every page number below the last bit of the bitmap is in range. -/
theorem inHeapWindow_ofNat {p : ℕ} (hp : p < 785407) : InHeapWindow (BitVec.ofNat 32 p) := by
  have haddr := toNat_slotAddr hp
  have hindex : (BitVec.ofNat 32 p).toNat = p := by
    rw [BitVec.toNat_ofNat]
    omega
  refine ⟨?_, ?_, ?_, ?_, ?_, ?_⟩
  · rw [ofNat_mul_pageSize, hindex, BitVec.toNat_ofNat]
    omega
  all_goals rw [ofNat_mul_pageSize, ofNat_add_pageSize]
  · rw [haddr, hindex]
    omega
  · rw [BitVec.le_def, haddr, show (0x1000 : Word).toNat = 4096 from rfl]
    omega
  · rw [BitVec.lt_def, haddr, show (0xBFC00000 : Word).toNat = 3217031168 from rfl]
    omega
  · rw [BitVec.toNat_ushiftRight, haddr, Nat.shiftRight_eq_div_pow, freePageTablesSize_eq]
    omega
  · exact slotAddr_ne_null hp

/-- What a call of `alloc_page` does that maps page `page_index` and returns `ret`: the page
is in the window and in the region, `map_page` mapped its address, and its bit, which was
clear, is set in a word of the bitmap. -/
structure HandsOut (L : Layout) (r : FreeRegion) (flags : BitVec 16) (h : Heap)
    (page_index ret : Word) (h' : Heap) : Prop where
  window : InHeapWindow page_index
  inside : (page_index * pageSize).toNat < r.mmapFreeMemoryLength.toNat
  address : ret = page_index * pageSize + pageSize
  mapped : (mapFreePage L (r.mmapFreeMemory + page_index * pageSize) ret flags).run mmu
    h.machine = .ok ((), h'.machine)
  clear : used h.pageBitmap page_index.toNat = false
  bitmap : h'.pageBitmap = setPageBit h.pageBitmap page_index.toNat
  word : page_index.toNat / 32 < pageBitmapSize

/-- The first free slot is never the last bit of the bitmap, so its page is in the window. -/
theorem handsOut_slot {L : Layout} {r : FreeRegion} {flags : BitVec 16} {h : Heap} {p : ℕ}
    {ps : List ℕ} (hfs : freeSlots h.pageBitmap = p :: ps)
    (hlen : ¬ r.mmapFreeMemoryLength.toNat ≤ 4096 * p) {m : Machine}
    (hmap : (mapFreePage L (r.pageAddr p) (slotAddr p) flags).run mmu h.machine = .ok ((), m)) :
    HandsOut L r flags h (BitVec.ofNat 32 p) (slotAddr p) ⟨m, setPageBit h.pageBitmap p⟩ := by
  obtain ⟨hp, -, hclear⟩ := of_freeSlots_cons hfs
  have hwindow := inHeapWindow_ofNat hp
  have hindex : (BitVec.ofNat 32 p).toNat = p := by
    rw [BitVec.toNat_ofNat]
    omega
  refine ⟨hwindow, ?_, ?_, ?_, ?_, ?_, ?_⟩
  · rw [hwindow.offset, hindex]
    omega
  · rw [ofNat_mul_pageSize, ofNat_add_pageSize]
  · rw [ofNat_mul_pageSize]
    exact hmap
  · rw [hindex]
    exact hclear
  · rw [hindex]
  · rw [hindex, pageBitmapSize_eq]
    omega

/-- `map_page` does not give up on an address that has a table. -/
theorem mapFreePage_neverAborts (L : Layout) (paddr : Word) {vaddr : Word}
    (hv : vaddr.toNat < 3217031168) (flags : BitVec 16) :
    (mapFreePage L paddr vaddr flags).NeverAborts := by
  have htable : ¬ (vaddr &&& ~~~0xFFF#32) >>> 22 ≥ BitVec.ofNat 32 freePageTablesSize := by
    rw [ge_iff_le, BitVec.le_def, BitVec.toNat_ushiftRight, Nat.shiftRight_eq_div_pow,
      show (0xFFF#32 : Word) = BitVec.ofNat 32 (2 ^ 12 - 1) from rfl,
      toNat_and_not_mask (by decide),
      show (BitVec.ofNat 32 freePageTablesSize).toNat = 767 from rfl]
    omega
  rw [mapFreePage, mapPage]
  simp only [read_bind, if_neg htable]
  intro pde
  dsimp only
  split
  · trivial
  · trivial

section Window

variable {L : Layout} {r : FreeRegion} {flags : BitVec 16} {h h' : Heap} {ret : Word}

/-- `alloc_page` does not give up for want of a table. -/
theorem allocPage_ne_abort :
    allocPage L r flags h ≠ .error (.abort "map_page: Can't allocate Page Table!") := by
  rw [allocPage_eq]
  cases hfs : freeSlots h.pageBitmap with
  | nil => simp
  | cons p ps =>
    have hp : p < 785407 := (of_freeSlots_cons hfs).1
    dsimp only
    split
    · simp
    · have hnever := mapFreePage_neverAborts L (r.pageAddr p)
        (by rw [toNat_slotAddr hp]; omega : (slotAddr p).toNat < 3217031168) flags
      cases hmap : (mapFreePage L (r.pageAddr p) (slotAddr p) flags).run mmu h.machine with
      | ok a => simp
      | error e =>
        have hne := hnever.run_ne mmu h.machine "map_page: Can't allocate Page Table!"
        rw [hmap] at hne
        intro hcall
        exact hne (congrArg Except.error (Except.error.inj hcall))

/-- What a call of `alloc_page` that returns has done. -/
theorem handsOut_of_allocPage (hcall : allocPage L r flags h = .ok (ret, h')) :
    ret = null ∧ h' = h ∨ ret ≠ null ∧ ∃ page_index, HandsOut L r flags h page_index ret h' := by
  rw [allocPage_eq] at hcall
  cases hfs : freeSlots h.pageBitmap with
  | nil =>
    rw [hfs] at hcall
    obtain ⟨rfl, rfl⟩ := Prod.mk.inj (Except.ok.inj hcall)
    exact Or.inl ⟨rfl, rfl⟩
  | cons p ps =>
    have hp : p < 785407 := (of_freeSlots_cons hfs).1
    rw [hfs] at hcall
    dsimp only at hcall
    split at hcall
    · exact absurd hcall (by simp)
    · next hlen =>
      cases hmap : (mapFreePage L (r.pageAddr p) (slotAddr p) flags).run mmu h.machine with
      | error e =>
        rw [hmap] at hcall
        exact absurd hcall nofun
      | ok s =>
        rw [hmap] at hcall
        obtain ⟨rfl, rfl⟩ := Prod.mk.inj (Except.ok.inj hcall)
        exact Or.inr ⟨slotAddr_ne_null hp, _, handsOut_slot hfs hlen hmap⟩

/-- The word of the bitmap that `free_page` changes. -/
theorem freePage_word (page_addr : Word) (h : Heap) :
    page_addr.toNat / 4096 / 64 < pageBitmapSize ∧
      ∃ word, freePage page_addr h =
        ((unmapPage page_addr).run mmu h.machine).map fun s =>
          ⟨s.2, Function.update h.pageBitmap (page_addr.toNat / 4096 / 64) word⟩ := by
  have hlt := page_addr.isLt
  refine ⟨by rw [pageBitmapSize_eq]; omega,
    clearPageBit h.pageBitmap (page_addr.toNat / 4096) (page_addr.toNat / 4096 / 64), ?_⟩
  rw [freePage_eq, clearPageBit, Function.update_self]
  cases (unmapPage page_addr).run mmu h.machine <;> rfl

end Window

/-- **`alloc_page` has a table for every page that it maps.**  On every machine, with every
bitmap and every region: it does not give up for want of a table; when it returns, it has
done nothing and returns `NULL`, or it has handed out a page of the window; and the word
that `free_page` changes is one of the bitmap, for every address. -/
theorem alloc_page_in_window (L : Layout) (h : Heap) (r : FreeRegion) (flags : BitVec 16) :
    allocPage L r flags h ≠ .error (.abort "map_page: Can't allocate Page Table!") ∧
    (∀ ret h', allocPage L r flags h = .ok (ret, h') →
      ret = null ∧ h' = h ∨
        ret ≠ null ∧ ∃ page_index, HandsOut L r flags h page_index ret h') ∧
    ∀ page_addr : Word, page_addr.toNat / 4096 / 64 < pageBitmapSize ∧
      ∃ word, freePage page_addr h =
        ((unmapPage page_addr).run mmu h.machine).map fun s =>
          ⟨s.2, Function.update h.pageBitmap (page_addr.toNat / 4096 / 64) word⟩ := by
  refine ⟨allocPage_ne_abort, ?_, ?_⟩
  · intro ret h' hcall
    exact handsOut_of_allocPage hcall
  · intro page_addr
    exact freePage_word page_addr h

end MVK
