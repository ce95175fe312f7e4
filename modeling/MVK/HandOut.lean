import MVK.Rows

/-!
# Who owns a page

Is a page ever handed out while its last owner still holds it?  `free_page` clears the
bit of another page than the one it frees, or none.  While the page whose bit it clears
is nobody's, no page has two owners; the first time it is somebody's, the allocator can
be made to hand that page out again.

## Main definitions

* `HarmlessFree` — the bit that `free_page` clears is not that of a live page.
* `Owned` — live pages have their bit set and are mapped.

## Main results

* `no_double_hand_out` — **in runs of harmless frees no live page is handed out.**
* `double_hand_out_of_harmful` — after any other free, one can be.
* `double_hand_out` — a run of the allocator that does it.
-/

namespace MVK

open FirstFit Translation Translation.Prog Transition

/-- With `q = a / 4096`: either `q % 64 < 32`, and `free_page(a)` clears no bit, or the
page whose bit it clears is not live. -/
def HarmlessFree (s : Session) (a : Word) : Prop :=
  ∀ p, clearedSlot (a.toNat / 4096) = some p → slotAddr p ∉ s.live

/-- Only a live page may be freed, and only if that is harmless. -/
def MayFree.harmless (s : Session) (a : Word) : Prop := MayFree.live s a ∧ HarmlessFree s a

/-- Every live page has its bit set, and is mapped to its page of the region. -/
structure Owned (L : Layout) (r : FreeRegion) (s : Session) : Prop where
  inv : HeapInv L r s
  used : ∀ p, p < 785407 → slotAddr p ∈ s.live → used s.heap.pageBitmap p = true
  mapped : ∀ p, p < 785407 → slotAddr p ∈ s.live →
    ∃ t, s.heap.machine.translate (pageOf (slotAddr p)) = some t ∧
      t.frame = frameOf (r.pageAddr p)

section Runs

variable {L : Layout} {r : FreeRegion} {s s' : Session}

theorem Owned.start {h : Heap} (hI : PagingInv L h.machine) : Owned L r (.start h) :=
  ⟨.start hI, fun _ _ ha => absurd ha (Finset.notMem_empty _),
    fun _ _ ha => absurd ha (Finset.notMem_empty _)⟩

/-- Handing out page `p` makes it owned. -/
theorem Owned.allocated (hO : Owned L r s) {p : ℕ} (hp : InRegion r p) (flags : BitVec 16)
    (hI : HeapInv L r ⟨s.heap.allocated L r flags p, insert (slotAddr p) s.live,
      insert (slotAddr p) s.returned⟩) :
    Owned L r ⟨s.heap.allocated L r flags p, insert (slotAddr p) s.live,
      insert (slotAddr p) s.returned⟩ := by
  have hm : Mappable L s.heap.machine (slotAddr p) := Or.inr (pageOf_slotAddr_fst hp.1)
  refine ⟨hI, ?_, ?_⟩
  · intro q hq hlive
    rw [used_allocated, mark_apply]
    split
    · rfl
    · next hne =>
      refine hO.used q hq ((Finset.mem_insert.mp hlive).resolve_left ?_)
      intro heq
      exact hne (slotAddr_inj hq hp.1 heq)
  · intro q hq hlive
    rw [Heap.allocated, translate_mapped hO.inv.paging (pageOf_slotAddr_ne hp.1) hm]
    split
    · next hpage =>
      obtain rfl := (pageOf_slotAddr_inj hq hp.1).mp hpage
      exact ⟨_, rfl, rfl⟩
    · next hpage =>
      rw [translate_installed_of_ne hO.inv.paging hm (pageOf_slotAddr_ne hq)]
      refine hO.mapped q hq ((Finset.mem_insert.mp hlive).resolve_left ?_)
      intro heq
      exact hpage (by rw [heq])

/-- A harmless free leaves the other live pages owned. -/
theorem Owned.freed (hO : Owned L r s) {a : Word} (ha : a ∈ s.live) (hharm : HarmlessFree s a)
    (hI : HeapInv L r ⟨s.heap.freed L a, s.live.erase a, s.returned⟩) :
    Owned L r ⟨s.heap.freed L a, s.live.erase a, s.returned⟩ := by
  have hfst := hO.inv.returned_fst (hO.inv.live a ha).1
  refine ⟨hI, ?_, ?_⟩
  · intro q hq hlive
    have hlive' := Finset.mem_of_mem_erase hlive
    have hused := hO.used q hq hlive'
    rw [Heap.freed, used_clearPageBit]
    cases hcl : clearedSlot (a.toNat / 4096) with
    | none => exact hused
    | some p =>
      -- the bit that is cleared is not that of a live page
      have hne : q ≠ p := fun heq => hharm p hcl (heq ▸ hlive')
      rw [Option.elim_some, release_apply, if_neg hne, hused]
  · intro q hq hlive
    obtain ⟨hne, hlive'⟩ := Finset.mem_erase.mp hlive
    obtain ⟨p, hp, rfl⟩ := hO.inv.live_slot ha
    rw [Heap.freed, translate_unmapped hO.inv.paging (ne_of_lt_767 hfst), if_neg]
    · exact hO.mapped q hq hlive'
    · intro hpage
      exact hne (by rw [(pageOf_slotAddr_inj hq hp.1).mp hpage])

/-- One call of a run of harmless frees keeps the pages owned. -/
theorem HeapStep.owned (hO : Owned L r s) {op : HeapOp}
    (hstep : HeapStep L r MayFree.harmless s op s') : Owned L r s' := by
  have hmay : ∀ a, MayFree.harmless s a → a ∈ s.returned := fun a ha =>
    hO.inv.mayFree_live a ha.1
  have hI := hstep.inv hO.inv hmay
  rcases hstep.cases hO.inv hmay with
    ⟨_, -, -, rfl⟩ | ⟨flags, p, _, -, -, hp, rfl⟩ | ⟨a, -, hfree, -, rfl⟩
  · exact ⟨hI, hO.used, hO.mapped⟩
  · exact hO.allocated hp flags hI
  · exact hO.freed hfree.1 hfree.2 hI

/-- A page that the scan finds is nobody's. -/
theorem Owned.slotAddr_notMem (hO : Owned L r s) {p : ℕ} {ps : List ℕ}
    (hfs : freeSlots s.heap.pageBitmap = p :: ps) : slotAddr p ∉ s.live := by
  obtain ⟨hp, -, hclear⟩ := of_freeSlots_cons hfs
  intro hlive
  rw [hO.used p hp hlive] at hclear
  exact absurd hclear (by decide)

/-- Two owned pages show different frames. -/
theorem Owned.frame_ne (hO : Owned L r s) {a b : Word} (ha : a ∈ s.live) (hb : b ∈ s.live)
    (hne : a ≠ b) : ∃ t u, s.heap.machine.translate (pageOf a) = some t ∧
      s.heap.machine.translate (pageOf b) = some u ∧ t.frame ≠ u.frame := by
  obtain ⟨p, hp, rfl⟩ := hO.inv.live_slot ha
  obtain ⟨q, hq, rfl⟩ := hO.inv.live_slot hb
  obtain ⟨t, ht, htf⟩ := hO.mapped p hp.1 ha
  obtain ⟨u, hu, huf⟩ := hO.mapped q hq.1 hb
  refine ⟨t, u, ht, hu, fun hf => hne ?_⟩
  rw [htf, huf] at hf
  -- the addresses of two pages of the region are less than `2 ^ 32` apart
  have hnat := congrArg BitVec.toNat hf
  have hp1 := hp.1
  have hq1 := hq.1
  rw [toNat_frameOf, toNat_frameOf, FreeRegion.pageAddr, FreeRegion.pageAddr, BitVec.toNat_add,
    BitVec.toNat_add, BitVec.toNat_ofNat, BitVec.toNat_ofNat] at hnat
  rw [show p = q by omega]

theorem owned_of_run {mem : Frame → Index → Word} {h : Heap}
    (hinit : pagingInitialize L (start L mem) = .ok h) {ops : List HeapOp}
    (hrun : Run (HeapStep L r MayFree.harmless) (.start h) ops s) : Owned L r s := by
  have hI := (initialized_of_ok hinit).1
  exact hrun.invariant (fun _ _ _ hstep hO => hstep.owned hO) (.start hI.pagingInv)

/-- **No double hand-out, while every free is harmless.**  In every run whose frees are
of live pages and clear the bit of no live page, `alloc_page` never returns a live page,
and two live pages never show the same frame. -/
theorem no_double_hand_out {mem : Frame → Index → Word} {h : Heap}
    (hinit : pagingInitialize L (start L mem) = .ok h) {ops : List HeapOp}
    (hrun : Run (HeapStep L r MayFree.harmless) (.start h) ops s) :
    (∀ (flags : BitVec 16) (a : Word) (h' : Heap),
      allocPage L r flags s.heap = .ok (a, h') → a ∉ s.live) ∧
    ∀ a ∈ s.live, ∀ b ∈ s.live, a ≠ b →
      ∃ t u, s.heap.machine.translate (pageOf a) = some t ∧
        s.heap.machine.translate (pageOf b) = some u ∧ t.frame ≠ u.frame := by
  have hO := owned_of_run hinit hrun
  refine ⟨?_, fun a ha b hb hne => hO.frame_ne ha hb hne⟩
  intro flags a h' hcall
  have hstep : HeapStep L r MayFree.harmless s (.alloc flags a) _ := .alloc hcall
  rcases hstep.cases hO.inv (fun b hb => hO.inv.mayFree_live b hb.1) with
    ⟨_, hop, -, -⟩ | ⟨_, p, _, hop, hfs, -, -⟩ | ⟨b, hop, -, -, -⟩
  · obtain ⟨-, rfl⟩ := HeapOp.alloc.inj hop
    exact fun hlive => (hO.inv.live _ hlive).2 rfl
  · obtain ⟨-, rfl⟩ := HeapOp.alloc.inj hop
    exact hO.slotAddr_notMem hfs
  · exact HeapOp.noConfusion hop

/-! ### The other frees -/

/-- A free slot that is live is handed out again, if the caller only asks. -/
theorem double_hand_out_of_free_slot (hI : HeapInv L r s) {p : ℕ} (hp : p < 785407)
    (hlive : slotAddr p ∈ s.live) (hfree : p ∈ freeSlots s.heap.pageBitmap) (flags : BitVec 16) :
    ∃ ops s' h', Run (HeapStep L r MayFree.live) s ops s' ∧ slotAddr p ∈ s'.live ∧
      allocPage L r flags s'.heap = .ok (slotAddr p, h') := by
  obtain ⟨p', hp', heq⟩ := hI.live_slot hlive
  obtain rfl := slotAddr_inj hp hp'.1 heq
  obtain ⟨ps, qs, hfs, hlt⟩ := exists_frees_eq_append hfree
  have hlen := hp'.2.2
  -- ask for the free slots before it; they all lie in the region, as it does
  obtain ⟨s', hrun, hheap, hs'⟩ := run_allocs (r := r) hI.paging flags hfs fun q hq => by
    have := hlt q hq
    omega
  have hI' : PagingInv L s'.heap.machine := by
    rw [hheap]
    refine hI.paging.allocatedAll ?_
    intro q hq
    have := hlt q hq
    omega
  have hfs' : freeSlots s'.heap.pageBitmap = p :: qs := by
    rw [hheap]
    exact freeSlots_allocatedAll hfs
  refine ⟨_, s', _, hrun, ?_, allocPage_slot hI' hfs' hlen flags⟩
  rw [hs']
  exact Finset.mem_union_left _ hlive

/-- **The condition is exact**: after a free that is not harmless, some sequence of calls
hands out a page that is live. -/
theorem double_hand_out_of_harmful (hI : HeapInv L r s) {a : Word} (ha : a ∈ s.live)
    (hharm : ¬ HarmlessFree s a) (flags : BitVec 16) :
    ∃ ops s' b h', Run (HeapStep L r MayFree.live) s ops s' ∧ b ∈ s'.live ∧
      allocPage L r flags s'.heap = .ok (b, h') := by
  have hfst := hI.returned_fst (hI.live a ha).1
  have hstep : HeapStep L r MayFree.live s (.free a) _ := .free_addr hI.paging hfst ha
  obtain ⟨p, hp⟩ := not_forall.mp hharm
  obtain ⟨hcl, hlive⟩ := Classical.not_imp.mp hp
  rw [not_not] at hlive
  obtain ⟨p₀, hp₀, rfl⟩ := hI.live_slot ha
  have hpeq := clearedSlot_slotAddr hp₀.1 hcl
  have hp₀lt := hp₀.1
  have hne : slotAddr p ≠ slotAddr p₀ := fun heq => by
    have := slotAddr_inj (by omega) hp₀lt heq
    omega
  have hlive' : slotAddr p ∈ s.live.erase (slotAddr p₀) := Finset.mem_erase.mpr ⟨hne, hlive⟩
  have hslot : p ∈ freeSlots (s.heap.freed L (slotAddr p₀)).pageBitmap := by
    rw [freeSlots, Heap.freed, used_clearPageBit, hcl, Option.elim_some]
    obtain ⟨p', hp', heq⟩ := hI.live_slot hlive
    obtain rfl := slotAddr_inj (by omega) hp'.1 heq
    exact mem_frees_release (by rw [slotCount_eq]; omega) (scanned_eq_true.mpr hp'.2.1)
  obtain ⟨ops, s', h', hrun, hmem, hcall⟩ := double_hand_out_of_free_slot
    (hstep.inv hI hI.mayFree_live) (by omega) hlive' hslot flags
  exact ⟨_, s', _, h', .cons hstep hrun, hmem, hcall⟩

end Runs

/-- After 32 allocations, freeing the last page, `0x21000`, clears the bit of the live
page `0x2000`, and the next call hands that page out again. -/
theorem double_hand_out :
    ∃ h s h', pagingInitialize sampleLayout (start sampleLayout fun _ _ => 0) = .ok h ∧
      Run (HeapStep sampleLayout sampleRegion MayFree.live) (.start h)
        (firstSlots.map (fun p => .alloc 2 (slotAddr p)) ++ [.free 0x21000]) s ∧
      0x2000 ∈ s.live ∧ allocPage sampleLayout sampleRegion 2 s.heap = .ok (0x2000, h') := by
  obtain ⟨h, hinit, hI, hbitmap⟩ := pagingInitialize_spec sampleLayout fun _ _ => 0
  obtain ⟨qs, hqs⟩ := freeSlots_zero hbitmap
  obtain ⟨s, hrun, hheap, hlive⟩ := run_allocs (L := sampleLayout) (r := sampleRegion)
    (s := Session.start h) hI.pagingInv 2 hqs (by decide)
  have hlive' : ∀ p ∈ firstSlots, slotAddr p ∈ s.live := by
    intro p hp
    rw [hlive]
    exact Finset.mem_union_right _ (List.mem_toFinset.mpr (List.mem_map_of_mem hp))
  have hpaging : PagingInv sampleLayout s.heap.machine := by
    rw [hheap]
    exact hI.pagingInv.allocatedAll (by decide)
  have hstep : HeapStep sampleLayout sampleRegion MayFree.live s (.free (slotAddr 32)) _ :=
    .free_addr hpaging (by decide) (hlive' 32 (by decide))
  -- the bits after the free: those of the 32 pages, less that of page 1
  have hused : used (s.heap.freed sampleLayout (slotAddr 32)).pageBitmap =
      release (markAll (used fun _ => 0) firstSlots) 1 := by
    rw [Heap.freed, used_clearPageBit, hheap, used_allocatedAll,
      show (Session.start h).heap.pageBitmap = fun _ => 0 from hbitmap]
    rfl
  obtain ⟨ps, hps⟩ : ∃ ps, freeSlots (s.heap.freed sampleLayout (slotAddr 32)).pageBitmap =
      1 :: ps := by
    rw [freeSlots, hused]
    refine frees_eq_cons (by rw [slotCount_eq]; omega) rfl ?_ ?_
    · rw [release_apply, if_pos rfl]
    · intro q hq _
      obtain rfl : q = 0 := by omega
      rw [release_apply, if_neg (by omega), markAll_apply]
      exact Or.inr (by decide)
  refine ⟨h, _, _, hinit, hrun.snoc hstep, ?_, allocPage_slot (hpaging.freed (by decide)) hps
    (by decide) 2⟩
  exact Finset.mem_erase.mpr ⟨by decide, hlive' 1 (by decide)⟩

theorem no_double_hand_out_sample :
    ∃ h s h', pagingInitialize sampleLayout (start sampleLayout fun _ _ => 0) = .ok h ∧
      Run (HeapStep sampleLayout sampleRegion MayFree.harmless) (.start h)
        [.alloc 2 0x1000, .free 0x1000, .alloc 2 0x2000] s ∧ 0x2000 ∈ s.live ∧
      allocPage sampleLayout sampleRegion 2 s.heap = .ok (0x3000, h') ∧ 0x3000 ∉ s.live := by
  obtain ⟨h, hinit, hI, hbitmap⟩ := pagingInitialize_spec sampleLayout fun _ _ => 0
  obtain ⟨qs, hqs⟩ := freeSlots_zero hbitmap
  have hfs : freeSlots h.pageBitmap = 0 :: (firstSlots.tail ++ qs) := hqs
  have hpaging : PagingInv sampleLayout
      (h.allocated sampleLayout sampleRegion 2 0).machine := hI.pagingInv.allocated (by decide)
  -- freeing page number 1 clears no bit
  have hnone : clearedSlot ((slotAddr 0).toNat / 4096) = none := by decide
  have hfree : HeapStep sampleLayout sampleRegion MayFree.harmless
      ⟨h.allocated sampleLayout sampleRegion 2 0, insert (slotAddr 0) ∅, insert (slotAddr 0) ∅⟩
      (.free (slotAddr 0)) _ :=
    .free_addr hpaging (by decide)
      ⟨Finset.mem_insert_self _ _, fun p hp => by simp [hnone] at hp⟩
  have hbelow : BelowWindow (slotAddr 0) := by decide
  have hpaging' := hpaging.freed hbelow
  have hfs' : freeSlots ((h.allocated sampleLayout sampleRegion 2 0).freed sampleLayout
      (slotAddr 0)).pageBitmap = 1 :: (firstSlots.tail.tail ++ qs) := by
    rw [freeSlots, Heap.freed, used_clearPageBit, hnone, Option.elim_none, ← freeSlots]
    exact freeSlots_allocated hfs
  have halloc := @HeapStep.alloc_slot sampleLayout sampleRegion MayFree.harmless
    ⟨_, (insert (slotAddr 0) ∅ : Finset Word).erase (slotAddr 0), insert (slotAddr 0) ∅⟩
    hpaging' _ _ hfs' (by decide) 2
  have hrun := ((Run.single (.first_alloc hI.pagingInv hbitmap (by decide) 2)).snoc hfree).snoc
    halloc
  have hpaging'' : PagingInv sampleLayout (((h.allocated sampleLayout sampleRegion 2 0).freed
      sampleLayout (slotAddr 0)).allocated sampleLayout sampleRegion 2 1).machine :=
    hpaging'.allocated (by decide)
  have hcall := allocPage_slot (r := sampleRegion) hpaging'' (freeSlots_allocated hfs')
    (by decide) 2
  exact ⟨h, _, _, hinit, hrun, Finset.mem_insert_self _ _, hcall,
    (no_double_hand_out hinit hrun).1 2 _ _ hcall⟩

end MVK
