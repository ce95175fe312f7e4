import MVK.Bitmap
import MVK.PageMap

/-!
# The page allocator: one call, and runs of calls

What `alloc_page` and `free_page` compute, said once in terms of the free slots of
the bitmap and of the edits of the tables; and the runs of calls that the kernel and
its C library may make.  A run keeps, beside the heap, who owns what: the pages that
were handed out and not freed since, and every address ever returned.

## Main definitions

* `slotAddr p` — the address `alloc_page` returns for page `p` of the region.
* `Heap.allocated`, `Heap.freed` — the heap after a call.
* `Session`, `HeapOp`, `HeapStep` — the calls, one at a time.
* `MayFree.live`, `MayFree.returned` — what the caller may free.
* `HeapInv` — the invariant of every run.

## Main results

* `allocPage_spec`, `freePage_spec` — **the two calls.**
* `HeapStep.inv` — one call keeps the invariant.
* `heapInv_of_run` — every run keeps it.
-/

namespace MVK

open FirstFit Translation Translation.Prog Transition

/-! ### Slots and addresses -/

/-- The address `alloc_page` returns for page `p` of the region. -/
def slotAddr (p : ℕ) : Word := BitVec.ofNat 32 (4096 * (p + 1))

/-- The page of the region that an address returned by `alloc_page` stands for. -/
def slotOf (a : Word) : ℕ := a.toNat / 4096 - 1

theorem toNat_slotAddr {p : ℕ} (hp : p < 785407) : (slotAddr p).toNat = 4096 * (p + 1) := by
  rw [slotAddr, BitVec.toNat_ofNat]
  omega

theorem slotOf_slotAddr {p : ℕ} (hp : p < 785407) : slotOf (slotAddr p) = p := by
  rw [slotOf, toNat_slotAddr hp]
  omega

theorem slotAddr_inj {p q : ℕ} (hp : p < 785407) (hq : q < 785407)
    (h : slotAddr p = slotAddr q) : p = q := by
  rw [← slotOf_slotAddr hp, ← slotOf_slotAddr hq, h]

theorem slotAddr_ne_null {p : ℕ} (hp : p < 785407) : slotAddr p ≠ null := by
  intro h
  have hnat := congrArg BitVec.toNat h
  rw [toNat_slotAddr hp, show null.toNat = 0 from rfl] at hnat
  omega

/-- Heap addresses stay below directory slot 767. -/
theorem pageOf_slotAddr_fst {p : ℕ} (hp : p < 785407) : (pageOf (slotAddr p)).1.toNat < 767 := by
  rw [toNat_pageOf_fst, toNat_slotAddr hp]
  omega

theorem pageOf_slotAddr_ne {p : ℕ} (hp : p < 785407) : (pageOf (slotAddr p)).1 ≠ 1023#10 := by
  intro h
  have hlt := pageOf_slotAddr_fst hp
  rw [h] at hlt
  exact absurd hlt (by decide)

theorem pageOf_slotAddr_inj {p q : ℕ} (hp : p < 785407) (hq : q < 785407) :
    pageOf (slotAddr p) = pageOf (slotAddr q) ↔ p = q := by
  rw [pageOf_eq_iff, toNat_slotAddr hp, toNat_slotAddr hq]
  omega

theorem pageOf_null : pageOf null = (0#10, 0#10) := rfl

/-- The slot that freeing page `p` clears, if it clears one. -/
theorem clearedSlot_slotAddr {p k : ℕ} (hp : p < 785407)
    (h : clearedSlot ((slotAddr p).toNat / 4096) = some k) :
    k = 32 * ((p + 1) / 64) + ((p + 1) % 64 - 32) ∧ 32 ≤ (p + 1) % 64 := by
  rw [toNat_slotAddr hp, Nat.mul_div_cancel_left _ (by decide), clearedSlot] at h
  split at h
  · next hge => exact ⟨(Option.some.inj h).symm, hge⟩
  · exact absurd h (by simp)

/-! ### One call -/

/-- The physical address of page `p` of the region, as the code computes it. -/
def FreeRegion.pageAddr (r : FreeRegion) (p : ℕ) : Word :=
  r.mmapFreeMemory + BitVec.ofNat 32 (4096 * p)

/-- A region to run the allocator on. -/
def sampleRegion : FreeRegion := ⟨0x00400000, 0x00100000⟩

/-- The heap after `alloc_page(flags)` handed out page `p`. -/
def Heap.allocated (L : Layout) (r : FreeRegion) (flags : BitVec 16) (h : Heap) (p : ℕ) : Heap where
  machine := mapped L h.machine (r.pageAddr p) (slotAddr p) flags
  pageBitmap := setPageBit h.pageBitmap p

/-- The heap after `free_page(a)`. -/
def Heap.freed (L : Layout) (h : Heap) (a : Word) : Heap where
  machine := unmapped L h.machine a
  pageBitmap := clearPageBit h.pageBitmap (a.toNat / 4096)

section Calls

variable {L : Layout} {h : Heap}

/-- The code's page number, from the word and the bit that the scan found. -/
theorem pageIndex_eq (p : ℕ) :
    BitVec.ofNat 32 (p / 32) * 32 + (31 - BitVec.ofNat 32 (31 - p % 32)) = BitVec.ofNat 32 p := by
  apply BitVec.eq_of_toNat_eq
  simp only [BitVec.toNat_add, BitVec.toNat_mul, BitVec.toNat_sub, BitVec.toNat_ofNat,
    BitVec.ofNat_eq_ofNat]
  omega

theorem ofNat_mul_pageSize (p : ℕ) : BitVec.ofNat 32 p * pageSize = BitVec.ofNat 32 (4096 * p) := by
  apply BitVec.eq_of_toNat_eq
  simp only [BitVec.toNat_mul, BitVec.toNat_ofNat, pageSize, BitVec.ofNat_eq_ofNat]
  omega

theorem ofNat_add_pageSize (p : ℕ) :
    BitVec.ofNat 32 (4096 * p) + pageSize = slotAddr p := by
  apply BitVec.eq_of_toNat_eq
  simp only [BitVec.toNat_add, BitVec.toNat_ofNat, pageSize, BitVec.ofNat_eq_ofNat, slotAddr]
  omega

theorem offset_ge_length_iff {p : ℕ} (hp : p < 785407) (length : BitVec 64) :
    (BitVec.ofNat 32 (4096 * p)).setWidth 64 ≥ length ↔ length.toNat ≤ 4096 * p := by
  rw [ge_iff_le, BitVec.le_def, BitVec.toNat_setWidth, BitVec.toNat_ofNat]
  omega

/-- **The call up to `map_page`**, on any machine. -/
theorem allocPage_eq (L : Layout) (h : Heap) (r : FreeRegion) (flags : BitVec 16) :
    allocPage L r flags h =
      match freeSlots h.pageBitmap with
      | [] => .ok (null, h)
      | p :: _ =>
        if r.mmapFreeMemoryLength.toNat ≤ 4096 * p then .error (.abort "OUT OF MEMORY")
        else do
          let (_, m) ← (mapFreePage L (r.pageAddr p) (slotAddr p) flags).run mmu h.machine
          return (slotAddr p, { machine := m, pageBitmap := setPageBit h.pageBitmap p }) := by
  rw [allocPage, scanBitmap_eq]
  cases hfs : freeSlots h.pageBitmap with
  | nil => rfl
  | cons p ps =>
    have hp : p < 785407 := (of_freeSlots_cons hfs).1
    rw [List.head?_cons, Option.map_some]
    simp only [pageIndex_eq, ofNat_mul_pageSize, ofNat_add_pageSize, offset_ge_length_iff hp]
    rfl

/-- **`alloc_page`** hands out the first free slot, if it lies in the region. -/
theorem allocPage_spec (hI : PagingInv L h.machine) (r : FreeRegion) (flags : BitVec 16) :
    allocPage L r flags h =
      match freeSlots h.pageBitmap with
      | [] => .ok (null, h)
      | p :: _ =>
        if r.mmapFreeMemoryLength.toNat ≤ 4096 * p then .error (.abort "OUT OF MEMORY")
        else .ok (slotAddr p, h.allocated L r flags p) := by
  rw [allocPage_eq]
  cases hfs : freeSlots h.pageBitmap with
  | nil => rfl
  | cons p ps =>
    have hp : p < 785407 := (of_freeSlots_cons hfs).1
    dsimp only
    split
    · rfl
    · -- a heap page always has a table, so `map_page` does not give up
      rcases run_mapFreePage hI (pageOf_slotAddr_ne hp) (r.pageAddr p) flags with
        ⟨-, hrun⟩ | ⟨hm, -⟩
      · rw [hrun]
        rfl
      · exact absurd (Or.inr (pageOf_slotAddr_fst hp)) hm

/-- The call that hands out the first free slot. -/
theorem allocPage_slot (hI : PagingInv L h.machine) {r : FreeRegion} {p : ℕ} {ps : List ℕ}
    (hfs : freeSlots h.pageBitmap = p :: ps) (hlen : 4096 * p < r.mmapFreeMemoryLength.toNat)
    (flags : BitVec 16) :
    allocPage L r flags h = .ok (slotAddr p, h.allocated L r flags p) := by
  rw [allocPage_spec hI, hfs]
  exact if_neg (by omega)

/-- **`free_page` after `unmap_page`**, on any machine. -/
theorem freePage_eq (a : Word) (h : Heap) :
    freePage a h = do
      let (_, m) ← (unmapPage a).run mmu h.machine
      return { machine := m, pageBitmap := clearPageBit h.pageBitmap (a.toNat / 4096) } := by
  have hlt := a.isLt
  have hindex : (a / pageSize).toNat = a.toNat / 4096 := BitVec.toNat_udiv
  have hword : ((a / pageSize &&& ~~~63) / 64).toNat = a.toNat / 4096 / 64 := by
    rw [BitVec.toNat_udiv, show (63 : Word) = BitVec.ofNat 32 (2 ^ 6 - 1) from rfl,
      toNat_and_not_mask (by decide), hindex, show (64 : Word).toNat = 64 from rfl]
    omega
  have hbit : ((63 : Word) - (a / pageSize &&& 63)).toNat = 63 - a.toNat / 4096 % 64 := by
    rw [BitVec.toNat_sub, show (63 : Word) = BitVec.ofNat 32 (2 ^ 6 - 1) from rfl,
      toNat_and_mask (by decide), hindex, BitVec.toNat_ofNat]
    omega
  rw [freePage]
  simp only [hword, hbit]
  rfl

/-- **`free_page`** unmaps the page, and clears what its arithmetic selects. -/
theorem freePage_spec (hI : PagingInv L h.machine) {a : Word} (ha : (pageOf a).1 ≠ 1023#10) :
    freePage a h = .ok (h.freed L a) := by
  rw [freePage_eq, run_unmapPage hI ha]
  rfl

end Calls

/-! ### Runs of calls -/

/-- The heap, and what its callers know of it. -/
structure Session where
  heap : Heap
  /-- The pages handed out and not freed since. -/
  live : Finset Word
  /-- Every address that `alloc_page` returned, `NULL` included. -/
  returned : Finset Word

/-- A call, with what it returned. -/
inductive HeapOp
  | alloc (flags : BitVec 16) (ret : Word)
  | free (page_addr : Word)

/-- The session before the first call. -/
def Session.start (h : Heap) : Session := ⟨h, ∅, ∅⟩

/-- One call that returns.  `mayFree` says which addresses the caller may free. -/
inductive HeapStep (L : Layout) (r : FreeRegion) (mayFree : Session → Word → Prop) :
    Session → HeapOp → Session → Prop
  | alloc {s : Session} {flags : BitVec 16} {ret : Word} {h : Heap} :
      allocPage L r flags s.heap = .ok (ret, h) →
      HeapStep L r mayFree s (.alloc flags ret)
        { heap := h
          live := if ret = null then s.live else insert ret s.live
          returned := insert ret s.returned }
  | free {s : Session} {page_addr : Word} {h : Heap} :
      mayFree s page_addr → freePage page_addr s.heap = .ok h →
      HeapStep L r mayFree s (.free page_addr)
        { heap := h, live := s.live.erase page_addr, returned := s.returned }

/-- Only a live page may be freed. -/
def MayFree.live (s : Session) (a : Word) : Prop := a ∈ s.live

/-- Any address that was returned may be freed, also twice. -/
def MayFree.returned (s : Session) (a : Word) : Prop := a ∈ s.returned

/-- A page of the region that the scan can hand out. -/
def InRegion (r : FreeRegion) (p : ℕ) : Prop :=
  p < 785407 ∧ p % 32 ≠ 31 ∧ 4096 * p < r.mmapFreeMemoryLength.toNat

/-- The invariant of every run: the tables are in order, and every address that was
returned is that of a page of the region. -/
structure HeapInv (L : Layout) (r : FreeRegion) (s : Session) : Prop where
  paging : PagingInv L s.heap.machine
  returned : ∀ a ∈ s.returned, a = null ∨ ∃ p, InRegion r p ∧ a = slotAddr p
  live : ∀ a ∈ s.live, a ∈ s.returned ∧ a ≠ null

section Inv

variable {L : Layout} {r : FreeRegion} {mayFree : Session → Word → Prop} {s s' : Session}

theorem HeapInv.live_slot (hI : HeapInv L r s) {a : Word} (ha : a ∈ s.live) :
    ∃ p, InRegion r p ∧ a = slotAddr p := by
  obtain ⟨hret, hne⟩ := hI.live a ha
  rcases hI.returned a hret with h0 | hp
  · exact absurd h0 hne
  · exact hp

/-- An address that was returned lies below the kernel. -/
theorem HeapInv.returned_fst (hI : HeapInv L r s) {a : Word} (ha : a ∈ s.returned) :
    (pageOf a).1.toNat < 767 := by
  rcases hI.returned a ha with rfl | ⟨p, hp, rfl⟩
  · rw [pageOf_null]; decide
  · exact pageOf_slotAddr_fst hp.1

theorem ne_of_lt_767 {i : Index} (h : i.toNat < 767) : i ≠ 1023#10 := by
  rintro rfl
  exact absurd h (by decide)

/-- **What one call does**: it finds the bitmap full, it hands out the first free slot,
or it frees an address. -/
theorem HeapStep.cases (hI : HeapInv L r s)
    (hmay : ∀ a, mayFree s a → a ∈ s.returned) {op : HeapOp}
    (hstep : HeapStep L r mayFree s op s') :
    (∃ flags, op = .alloc flags null ∧ freeSlots s.heap.pageBitmap = [] ∧
      s' = { s with returned := insert null s.returned }) ∨
    (∃ flags p ps, op = .alloc flags (slotAddr p) ∧ freeSlots s.heap.pageBitmap = p :: ps ∧
      InRegion r p ∧ s' = ⟨s.heap.allocated L r flags p, insert (slotAddr p) s.live,
        insert (slotAddr p) s.returned⟩) ∨
    (∃ a, op = .free a ∧ mayFree s a ∧ a ∈ s.returned ∧
      s' = ⟨s.heap.freed L a, s.live.erase a, s.returned⟩) := by
  cases hstep with
  | @alloc flags ret h hcall =>
    rw [allocPage_spec hI.paging] at hcall
    cases hfs : freeSlots s.heap.pageBitmap with
    | nil =>
      rw [hfs] at hcall
      obtain ⟨rfl, rfl⟩ := Prod.mk.inj (Except.ok.inj hcall)
      exact Or.inl ⟨flags, rfl, rfl, by rw [if_pos rfl]⟩
    | cons p ps =>
      obtain ⟨hp, hm, -⟩ := of_freeSlots_cons hfs
      simp only [hfs] at hcall
      split at hcall
      · exact absurd hcall (by simp)
      · next hlen =>
        obtain ⟨rfl, rfl⟩ := Prod.mk.inj (Except.ok.inj hcall)
        refine Or.inr (Or.inl ⟨flags, p, ps, rfl, rfl, ⟨hp, hm, by omega⟩, ?_⟩)
        rw [if_neg (slotAddr_ne_null hp)]
  | @free a h hfree hcall =>
    have ha := hmay a hfree
    rw [freePage_spec hI.paging (ne_of_lt_767 (hI.returned_fst ha))] at hcall
    obtain rfl := Except.ok.inj hcall
    exact Or.inr (Or.inr ⟨a, rfl, hfree, ha, rfl⟩)

/-- **One call keeps the invariant.** -/
theorem HeapStep.inv (hI : HeapInv L r s) (hmay : ∀ a, mayFree s a → a ∈ s.returned)
    {op : HeapOp} (hstep : HeapStep L r mayFree s op s') : HeapInv L r s' := by
  rcases hstep.cases hI hmay with ⟨_, -, -, rfl⟩ | ⟨_, p, _, -, -, hp, rfl⟩ | ⟨a, -, -, ha, rfl⟩
  · refine ⟨hI.paging, ?_, ?_⟩
    · intro a ha
      rcases Finset.mem_insert.mp ha with rfl | ha
      · exact Or.inl rfl
      · exact hI.returned a ha
    · intro a ha
      exact ⟨Finset.mem_insert_of_mem (hI.live a ha).1, (hI.live a ha).2⟩
  · refine ⟨?_, ?_, ?_⟩
    · exact hI.paging.mapped (pageOf_slotAddr_ne hp.1) (Or.inr (pageOf_slotAddr_fst hp.1)) _ _
    · intro a ha
      rcases Finset.mem_insert.mp ha with rfl | ha
      · exact Or.inr ⟨p, hp, rfl⟩
      · exact hI.returned a ha
    · intro a ha
      rcases Finset.mem_insert.mp ha with rfl | ha
      · exact ⟨Finset.mem_insert_self _ _, slotAddr_ne_null hp.1⟩
      · exact ⟨Finset.mem_insert_of_mem (hI.live a ha).1, (hI.live a ha).2⟩
  · refine ⟨hI.paging.unmapped (ne_of_lt_767 (hI.returned_fst ha)), hI.returned, ?_⟩
    intro b hb
    exact hI.live b (Finset.mem_of_mem_erase hb)

/-- Handing out the first free slot, as a step. -/
theorem HeapStep.alloc_slot (hI : PagingInv L s.heap.machine) {p : ℕ} {ps : List ℕ}
    (hfs : freeSlots s.heap.pageBitmap = p :: ps)
    (hlen : 4096 * p < r.mmapFreeMemoryLength.toNat) (flags : BitVec 16) :
    HeapStep L r mayFree s (.alloc flags (slotAddr p)) ⟨s.heap.allocated L r flags p,
      insert (slotAddr p) s.live, insert (slotAddr p) s.returned⟩ := by
  have hp := (of_freeSlots_cons hfs).1
  have hstep : HeapStep L r mayFree s _ _ := .alloc (allocPage_slot hI hfs hlen flags)
  rwa [if_neg (slotAddr_ne_null hp)] at hstep

/-- The first call hands out the first page. -/
theorem HeapStep.first_alloc {h : Heap} (hI : PagingInv L h.machine)
    (hbitmap : h.pageBitmap = fun _ => 0) (hlen : 0 < r.mmapFreeMemoryLength.toNat)
    (flags : BitVec 16) :
    HeapStep L r mayFree (.start h) (.alloc flags (slotAddr 0))
      ⟨h.allocated L r flags 0, insert (slotAddr 0) ∅, insert (slotAddr 0) ∅⟩ := by
  obtain ⟨qs, hqs⟩ := freeSlots_zero hbitmap
  have hfs : freeSlots (Session.start h).heap.pageBitmap = 0 :: (firstSlots.tail ++ qs) := hqs
  exact .alloc_slot hI hfs (by omega) flags

/-- Freeing an address that the caller may free, as a step. -/
theorem HeapStep.free_addr (hI : PagingInv L s.heap.machine) {a : Word}
    (ha : (pageOf a).1.toNat < 767) (hmay : mayFree s a) :
    HeapStep L r mayFree s (.free a) ⟨s.heap.freed L a, s.live.erase a, s.returned⟩ :=
  .free hmay (freePage_spec hI (ne_of_lt_767 ha))

/-- What the caller may free was returned, in both kinds of run. -/
theorem HeapInv.mayFree_live (hI : HeapInv L r s) (a : Word) (ha : MayFree.live s a) :
    a ∈ s.returned := (hI.live a ha).1

theorem HeapInv.start {h : Heap} (hI : PagingInv L h.machine) : HeapInv L r (.start h) :=
  ⟨hI, fun _ ha => absurd ha (Finset.notMem_empty _), fun _ ha => absurd ha (Finset.notMem_empty _)⟩

/-- A run that frees live pages only is a run that frees what was returned. -/
theorem run_returned_of_live {ops : List HeapOp} (hI : HeapInv L r s)
    (hrun : Run (HeapStep L r MayFree.live) s ops s') :
    Run (HeapStep L r MayFree.returned) s ops s' := by
  refine hrun.refine (P := HeapInv L r) (fun _ _ _ hstep hI => hstep.inv hI hI.mayFree_live)
    ?_ hI
  intro s op t hI hstep
  cases hstep with
  | alloc hcall => exact .alloc hcall
  | free hlive hcall => exact .free (hI.mayFree_live _ hlive) hcall

/-- **Every run keeps the invariant.** -/
theorem heapInv_of_run {ops : List HeapOp} (hI : HeapInv L r s)
    (hrun : Run (HeapStep L r MayFree.returned) s ops s') : HeapInv L r s' :=
  hrun.invariant (fun _ _ _ hstep hI => hstep.inv hI fun _ ha => ha) hI

end Inv

end MVK
