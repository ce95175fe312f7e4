import MVK.Heap

/-!
# Calls in a row

A call of `alloc_pages` is a row of calls of `alloc_page`, and a call of `free_pages`
one of calls of `free_page`.  A row of allocations hands out the first free slots, one
after the other.

## Main definitions

* `Heap.allocatedAll` — the heap after the pages of a list were handed out in order.
* `Heap.freedAll` — the heap after the addresses of a list were freed in order.
* `HeapCall`, `CallStep` — the calls for a page and for a row, one at a time.

## Main results

* `used_allocatedAll`, `isSome_translate_allocatedAll` — what a row leaves.
* `allocPages_ok`, `allocPages_abort` — **`alloc_pages`, from the free slots.**
* `freePages_ok` — `free_pages`.
* `run_allocs` — a row of allocations is a run of calls.
* `CallStep.pagingInv` — **every call, for a page or a row, keeps the tables in order.**
-/

namespace MVK

open FirstFit Translation Translation.Prog Transition

/-- The heap after the pages of `ps` were handed out in order. -/
def Heap.allocatedAll (L : Layout) (r : FreeRegion) (flags : BitVec 16) (h : Heap) (ps : List ℕ) :
    Heap :=
  ps.foldl (fun h p => h.allocated L r flags p) h

section Row

variable {L : Layout} {r : FreeRegion} {flags : BitVec 16} {h : Heap}

@[simp] theorem allocatedAll_nil : h.allocatedAll L r flags [] = h := rfl

@[simp] theorem allocatedAll_cons (p : ℕ) (ps : List ℕ) :
    h.allocatedAll L r flags (p :: ps) = (h.allocated L r flags p).allocatedAll L r flags ps := rfl

theorem PagingInv.allocated (hI : PagingInv L h.machine) {p : ℕ} (hp : p < 785407) :
    PagingInv L (h.allocated L r flags p).machine :=
  hI.mapped (pageOf_slotAddr_ne hp) (Or.inr (pageOf_slotAddr_fst hp)) _ _

theorem used_allocated (p : ℕ) :
    used (h.allocated L r flags p).pageBitmap = mark (used h.pageBitmap) p :=
  used_setPageBit h.pageBitmap p

theorem freeSlots_allocated {p : ℕ} {ps : List ℕ} (hfs : freeSlots h.pageBitmap = p :: ps) :
    freeSlots (h.allocated L r flags p).pageBitmap = ps := by
  rw [freeSlots, used_allocated]
  exact frees_mark hfs

/-- Handing out page `p` maps its heap page, and no other. -/
theorem isSome_translate_allocated (hI : PagingInv L h.machine) {p : ℕ} (hp : p < 785407)
    {q : Page} (hq : q.1 ≠ 1023#10) :
    ((h.allocated L r flags p).machine.translate q).isSome = true ↔
      q = pageOf (slotAddr p) ∨ (h.machine.translate q).isSome = true := by
  have hm : Mappable L h.machine (slotAddr p) := Or.inr (pageOf_slotAddr_fst hp)
  rw [Heap.allocated, translate_mapped hI (pageOf_slotAddr_ne hp) hm,
    translate_installed_of_ne hI hm hq]
  split
  · next heq => simp [heq]
  · next hne => simp [hne]

theorem freeSlots_take_lt {n p : ℕ} (hp : p ∈ (freeSlots h.pageBitmap).take n) : p < 785407 :=
  (mem_freeSlots.mp (List.mem_of_mem_take hp)).1

theorem PagingInv.allocatedAll {ps : List ℕ} (hI : PagingInv L h.machine)
    (hps : ∀ p ∈ ps, p < 785407) : PagingInv L (h.allocatedAll L r flags ps).machine := by
  induction ps generalizing h with
  | nil => exact hI
  | cons p ps ih =>
    rw [List.forall_mem_cons] at hps
    exact ih (hI.allocated hps.1) hps.2

/-- **A row sets the bits of its pages**, and no other. -/
theorem used_allocatedAll (ps : List ℕ) :
    used (h.allocatedAll L r flags ps).pageBitmap = markAll (used h.pageBitmap) ps := by
  induction ps generalizing h with
  | nil => rfl
  | cons p ps ih => rw [allocatedAll_cons, ih, used_allocated]; rfl

theorem freeSlots_allocatedAll {ps qs : List ℕ} (hfs : freeSlots h.pageBitmap = ps ++ qs) :
    freeSlots (h.allocatedAll L r flags ps).pageBitmap = qs := by
  induction ps generalizing h with
  | nil => exact hfs
  | cons p ps ih =>
    rw [List.cons_append] at hfs
    exact ih (freeSlots_allocated hfs)

/-- **A row maps its pages**, and no other. -/
theorem isSome_translate_allocatedAll {ps : List ℕ} (hI : PagingInv L h.machine)
    (hps : ∀ p ∈ ps, p < 785407) {q : Page} (hq : q.1 ≠ 1023#10) :
    ((h.allocatedAll L r flags ps).machine.translate q).isSome = true ↔
      (∃ p ∈ ps, q = pageOf (slotAddr p)) ∨ (h.machine.translate q).isSome = true := by
  induction ps generalizing h with
  | nil => simp
  | cons p ps ih =>
    rw [List.forall_mem_cons] at hps
    rw [allocatedAll_cons, ih (hI.allocated hps.1) hps.2,
      isSome_translate_allocated hI hps.1 hq, List.exists_mem_cons_iff, or_left_comm, or_assoc]

/-! ### `alloc_pages` -/

/-- The pointer that the loop keeps: the first that is not `NULL`. -/
def firstPointer (ptr : Word) (ps : List ℕ) : Word :=
  if ptr = null then (ps.head?.map slotAddr).getD null else ptr

theorem firstPointer_cons {ptr : Word} {p : ℕ} (hp : p < 785407) (ps : List ℕ) (k : ℕ) :
    firstPointer (if ptr = null then slotAddr p else ptr) (ps.take k) =
      firstPointer ptr (p :: ps) := by
  unfold firstPointer
  by_cases hptr : ptr = null
  · rw [if_pos hptr, if_neg (slotAddr_ne_null hp), if_pos hptr]
    rfl
  · rw [if_neg hptr, if_neg hptr, if_neg hptr]

/-- The loop of `alloc_pages`, when the next free slots lie in the region. -/
theorem allocPagesLoop_ok (hI : PagingInv L h.machine) {n : ℕ} {ptr : Word}
    (hin : ∀ p ∈ (freeSlots h.pageBitmap).take n, 4096 * p < r.mmapFreeMemoryLength.toNat) :
    allocPagesLoop L r flags n ptr h =
      .ok (firstPointer ptr ((freeSlots h.pageBitmap).take n),
        h.allocatedAll L r flags ((freeSlots h.pageBitmap).take n)) := by
  induction n generalizing ptr h with
  | zero =>
    rw [allocPagesLoop, List.take_zero, firstPointer]
    by_cases hptr : ptr = null
    · rw [if_pos hptr, hptr]; rfl
    · rw [if_neg hptr]; rfl
  | succ n ih =>
    rw [allocPagesLoop, allocPage_spec hI]
    cases hfs : freeSlots h.pageBitmap with
    | nil =>
      -- the bitmap is full: this and every later call returns `NULL`
      have hloop : allocPagesLoop L r flags n ptr h = _ := ih hI (by rw [hfs]; simp)
      have hptr : (if ptr = null then null else ptr) = ptr := by
        split
        · next h0 => rw [h0]
        · rfl
      rw [hfs, List.take_nil] at hloop
      rw [List.take_nil, ← hloop]
      exact congrArg (fun ptr => allocPagesLoop L r flags n ptr h) hptr
    | cons p ps =>
      have hp : p < 785407 := (of_freeSlots_cons hfs).1
      rw [hfs, List.take_succ_cons, List.forall_mem_cons] at hin
      have hloop : allocPagesLoop L r flags n (if ptr = null then slotAddr p else ptr)
          (h.allocated L r flags p) = _ :=
        ih (hI.allocated hp) (by rw [freeSlots_allocated hfs]; exact hin.2)
      rw [freeSlots_allocated hfs, firstPointer_cons hp] at hloop
      rw [List.take_succ_cons, allocatedAll_cons]
      simp only [if_neg (Nat.not_le.mpr hin.1)]
      exact hloop

/-- The loop of `alloc_pages`, when one of the next free slots lies past the region. -/
theorem allocPagesLoop_abort (hI : PagingInv L h.machine) {n : ℕ} {ptr : Word}
    (hout : ∃ p ∈ (freeSlots h.pageBitmap).take n,
      r.mmapFreeMemoryLength.toNat ≤ 4096 * p) :
    allocPagesLoop L r flags n ptr h = .error (.abort "OUT OF MEMORY") := by
  induction n generalizing ptr h with
  | zero =>
    obtain ⟨p, hp, -⟩ := hout
    exact absurd hp (by simp)
  | succ n ih =>
    rw [allocPagesLoop, allocPage_spec hI]
    cases hfs : freeSlots h.pageBitmap with
    | nil =>
      obtain ⟨p, hp, -⟩ := hout
      rw [hfs] at hp
      exact absurd hp (by simp)
    | cons p ps =>
      have hp : p < 785407 := (of_freeSlots_cons hfs).1
      rw [hfs, List.take_succ_cons, List.exists_mem_cons_iff] at hout
      by_cases hlen : r.mmapFreeMemoryLength.toNat ≤ 4096 * p
      · -- this call aborts
        simp only [if_pos hlen]
        rfl
      · simp only [if_neg hlen]
        refine ih (hI.allocated hp) ?_
        rw [freeSlots_allocated hfs]
        exact hout.resolve_left hlen

/-- **`alloc_pages`** hands out the first free slots and returns the first of them. -/
theorem allocPages_ok (hI : PagingInv L h.machine) {pages : Word}
    (hin : ∀ p ∈ (freeSlots h.pageBitmap).take pages.toNat,
      4096 * p < r.mmapFreeMemoryLength.toNat) :
    allocPages L r pages flags h =
      .ok ((((freeSlots h.pageBitmap).take pages.toNat).head?.map slotAddr).getD null,
        h.allocatedAll L r flags ((freeSlots h.pageBitmap).take pages.toNat)) :=
  allocPagesLoop_ok hI hin

theorem allocPages_abort (hI : PagingInv L h.machine) {pages : Word}
    (hout : ∃ p ∈ (freeSlots h.pageBitmap).take pages.toNat,
      r.mmapFreeMemoryLength.toNat ≤ 4096 * p) :
    allocPages L r pages flags h = .error (.abort "OUT OF MEMORY") :=
  allocPagesLoop_abort hI hout

end Row

/-! ### `free_pages` -/

/-- The heap after the addresses of `as` were freed in order. -/
def Heap.freedAll (L : Layout) (h : Heap) (as : List Word) : Heap :=
  as.foldl (fun h a => h.freed L a) h

section Free

variable {L : Layout} {h : Heap}

@[simp] theorem freedAll_nil : h.freedAll L [] = h := rfl

@[simp] theorem freedAll_cons (a : Word) (as : List Word) :
    h.freedAll L (a :: as) = (h.freed L a).freedAll L as := rfl

theorem PagingInv.freed (hI : PagingInv L h.machine) {a : Word} (ha : BelowWindow a) :
    PagingInv L (h.freed L a).machine :=
  hI.unmapped ha.page_ne

theorem PagingInv.freedAll {as : List Word} (hI : PagingInv L h.machine)
    (has : ∀ a ∈ as, BelowWindow a) : PagingInv L (h.freedAll L as).machine := by
  induction as generalizing h with
  | nil => exact hI
  | cons a as ih =>
    rw [List.forall_mem_cons] at has
    exact ih (hI.freed has.1) has.2

/-- The addresses that `free_pages(pages_addr, …)` frees, `n` of them from index `i` on. -/
def pageAddrs (pages_addr : Word) (n i : ℕ) : List Word :=
  (List.range' i n).map fun i => pages_addr + BitVec.ofNat 32 i * pageSize

/-- **`free_pages`** frees its addresses in order. -/
theorem freePages_ok (hI : PagingInv L h.machine) {pages_addr pages : Word}
    (hbelow : ∀ a ∈ pageAddrs pages_addr pages.toNat 0, BelowWindow a) :
    freePages pages_addr pages h = .ok (h.freedAll L (pageAddrs pages_addr pages.toNat 0)) := by
  have hloop : ∀ (n i : ℕ) (h : Heap), PagingInv L h.machine →
      (∀ a ∈ pageAddrs pages_addr n i, BelowWindow a) →
        freePagesLoop pages_addr n i h = .ok (h.freedAll L (pageAddrs pages_addr n i)) := by
    intro n
    induction n with
    | zero =>
      intro i h _ _
      rfl
    | succ n ih =>
      intro i h hI hbelow
      rw [pageAddrs, List.range'_succ, List.map_cons, List.forall_mem_cons] at hbelow
      rw [freePagesLoop, freePage_spec hI hbelow.1.page_ne, pageAddrs, List.range'_succ,
        List.map_cons, freedAll_cons]
      exact ih (i + 1) _ (hI.freed hbelow.1) hbelow.2
  exact hloop pages.toNat 0 h hI hbelow

end Free

/-! ### Rows as runs -/

/-- The first free slots, if they lie in the region, can be handed out one by one. -/
theorem run_allocs {L : Layout} {r : FreeRegion} {mayFree : Session → Word → Prop} {s : Session}
    (hI : PagingInv L s.heap.machine) (flags : BitVec 16)
    {ps qs : List ℕ} (hfs : freeSlots s.heap.pageBitmap = ps ++ qs)
    (hin : ∀ p ∈ ps, 4096 * p < r.mmapFreeMemoryLength.toNat) :
    ∃ s', Run (HeapStep L r mayFree) s (ps.map fun p => .alloc flags (slotAddr p)) s' ∧
      s'.heap = s.heap.allocatedAll L r flags ps ∧
      s'.live = s.live ∪ (ps.map slotAddr).toFinset := by
  induction ps generalizing s with
  | nil => exact ⟨s, .nil s, rfl, by simp⟩
  | cons p ps ih =>
    rw [List.forall_mem_cons] at hin
    rw [List.cons_append] at hfs
    have hp : p < 785407 := (of_freeSlots_cons hfs).1
    obtain ⟨s', hrun, hheap, hlive⟩ := ih
      (s := ⟨s.heap.allocated L r flags p, insert (slotAddr p) s.live,
        insert (slotAddr p) s.returned⟩)
      (hI.allocated hp) (freeSlots_allocated hfs) hin.2
    refine ⟨s', .cons (HeapStep.alloc_slot hI hfs hin.1 flags) hrun, hheap, ?_⟩
    rw [hlive, List.map_cons, List.toFinset_cons, Finset.insert_union, Finset.union_insert]

/-! ### Runs of pages and of rows -/

/-- A call of the allocator, for one page or for a row. -/
inductive HeapCall
  | allocPage (flags : BitVec 16)
  | freePage (page_addr : Word)
  | allocPages (pages : Word) (flags : BitVec 16)
  | freePages (pages_addr pages : Word)

/-- The heap that a call leaves. -/
def HeapCall.exec (L : Layout) (r : FreeRegion) (h : Heap) : HeapCall → Except Stop Heap
  | .allocPage flags => (MVK.allocPage L r flags h).map Prod.snd
  | .freePage page_addr => MVK.freePage page_addr h
  | .allocPages pages flags => (MVK.allocPages L r pages flags h).map Prod.snd
  | .freePages pages_addr pages => MVK.freePages pages_addr pages h

/-- The pages that a call frees. -/
def HeapCall.frees : HeapCall → List Word
  | .allocPage _ => []
  | .freePage page_addr => [page_addr]
  | .allocPages _ _ => []
  | .freePages pages_addr pages => pageAddrs pages_addr pages.toNat 0

/-- One call that returns.  It may free any pages below the recursive window: live pages,
which all lie there, but others too. -/
def CallStep (L : Layout) (r : FreeRegion) (h : Heap) (c : HeapCall) (h' : Heap) : Prop :=
  (∀ a ∈ c.frees, BelowWindow a) ∧ c.exec L r h = .ok h'

section Calls

variable {L : Layout} {r : FreeRegion} {h h' : Heap}

/-- A row of allocations that returns keeps the tables in order. -/
theorem PagingInv.allocPages (hI : PagingInv L h.machine) {pages : Word} {flags : BitVec 16}
    (hcall : (MVK.allocPages L r pages flags h).map Prod.snd = .ok h') :
    PagingInv L h'.machine := by
  by_cases hout : ∃ p ∈ (freeSlots h.pageBitmap).take pages.toNat,
      r.mmapFreeMemoryLength.toNat ≤ 4096 * p
  · rw [allocPages_abort hI hout] at hcall
    cases hcall
  · rw [allocPages_ok hI fun p hp => Nat.lt_of_not_le fun hle => hout ⟨p, hp, hle⟩] at hcall
    obtain rfl := Except.ok.inj hcall
    exact hI.allocatedAll fun p hp => freeSlots_take_lt hp

/-- A call for one page is a row of one. -/
theorem allocPages_one (L : Layout) (r : FreeRegion) (flags : BitVec 16) (h : Heap) :
    MVK.allocPages L r 1 flags h = MVK.allocPage L r flags h := by
  have hone : (1 : Word).toNat = 1 := rfl
  rw [MVK.allocPages, hone, allocPagesLoop]
  cases MVK.allocPage L r flags h <;> rfl

/-- A page that is handed out, as a call. -/
theorem CallStep.alloc_slot (hI : PagingInv L h.machine) {p : ℕ} {ps : List ℕ}
    (hfs : freeSlots h.pageBitmap = p :: ps) (hlen : 4096 * p < r.mmapFreeMemoryLength.toNat)
    (flags : BitVec 16) : CallStep L r h (.allocPage flags) (h.allocated L r flags p) := by
  refine ⟨fun a ha => absurd ha List.not_mem_nil, ?_⟩
  rw [HeapCall.exec, allocPage_slot hI hfs hlen flags]
  rfl

/-- **Every call keeps the tables in order.** -/
theorem CallStep.pagingInv (hI : PagingInv L h.machine) {c : HeapCall}
    (hstep : CallStep L r h c h') : PagingInv L h'.machine := by
  obtain ⟨hbelow, hexec⟩ := hstep
  cases c with
  | allocPage flags =>
    rw [HeapCall.exec, ← allocPages_one] at hexec
    exact hI.allocPages hexec
  | freePage page_addr =>
    have hpage : BelowWindow page_addr := hbelow page_addr List.mem_cons_self
    obtain rfl := Except.ok.inj ((freePage_spec hI hpage.page_ne).symm.trans hexec)
    exact hI.freed hpage
  | allocPages pages flags => exact hI.allocPages hexec
  | freePages pages_addr pages =>
    obtain rfl := Except.ok.inj ((freePages_ok hI hbelow).symm.trans hexec)
    exact hI.freedAll hbelow

/-- **Every run of calls keeps the tables in order.** -/
theorem pagingInv_of_calls {mem : Frame → Index → Word}
    (hinit : pagingInitialize L (start L mem) = .ok h) {cs : List HeapCall}
    (hrun : Run (CallStep L r) h cs h') : PagingInv L h'.machine := by
  have hI := (initialized_of_ok hinit).1
  exact hrun.invariant (P := fun h => PagingInv L h.machine)
    (fun _ _ _ hstep hI => hstep.pagingInv hI) hI.pagingInv

end Calls

end MVK
