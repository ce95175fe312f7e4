import MVK.Rows

/-!
# Freeing what was allocated

Does `free_page` undo `alloc_page`?  It unmaps the page, and no other; but the bit it
clears is never the one that `alloc_page` set.  So it undoes the bitmap exactly when
there is nothing to clear, and the bit of the first page, once set, is never cleared.

## Main definitions

* `FreeUndoes` — what `free_page(a)` should do.

## Main results

* `freePage_undoes_iff` — when one call does it.
* `firstSlot_used_of_run` — the bit of the first page stays.
* `free_undoes_alloc_iff` — **when a call does it, and when a run does.**
-/

namespace MVK

open FirstFit Translation Translation.Prog Transition

/-- `free_page(a)` clears the bit of `a` and no other, and removes the translation of
`a` and no other. -/
structure FreeUndoes (h : Heap) (a : Word) (h' : Heap) : Prop where
  bits : ∀ p, used h'.pageBitmap p = if p = slotOf a then false else used h.pageBitmap p
  gone : h'.machine.translate (pageOf a) = none
  others : ∀ q, q ≠ pageOf a → h'.machine.translate q = h.machine.translate q

section Calls

variable {L : Layout} {h : Heap}

/-- The bits are right when both the bit of the page and the one that is cleared instead
are clear already. -/
theorem used_freed_iff {p : ℕ} (hp : p < 785407) :
    (∀ k, used (h.freed L (slotAddr p)).pageBitmap k =
      if k = slotOf (slotAddr p) then false else used h.pageBitmap k) ↔
    used h.pageBitmap p = false ∧
      ∀ k, clearedSlot ((slotAddr p).toNat / 4096) = some k → used h.pageBitmap k = false := by
  have hrel : (∀ k, used (h.freed L (slotAddr p)).pageBitmap k =
      if k = slotOf (slotAddr p) then false else used h.pageBitmap k) ↔
      used (h.freed L (slotAddr p)).pageBitmap = release (used h.pageBitmap) p := by
    rw [funext_iff, slotOf_slotAddr hp]
    simp only [release_apply]
  rw [hrel, Heap.freed, used_clearPageBit]
  cases hcl : clearedSlot ((slotAddr p).toNat / 4096) with
  | none =>
    rw [Option.elim_none, eq_release_iff]
    simp
  | some k =>
    have hk := clearedSlot_slotAddr hp hcl
    rw [Option.elim_some, release_eq_release_iff (by omega)]
    simp

/-- **When one call undoes the allocation.** -/
theorem freePage_undoes_iff (hI : PagingInv L h.machine) {p : ℕ} (hp : p < 785407) :
    FreeUndoes h (slotAddr p) (h.freed L (slotAddr p)) ↔ used h.pageBitmap p = false ∧
      ∀ k, clearedSlot ((slotAddr p).toNat / 4096) = some k → used h.pageBitmap k = false := by
  have htr := translate_unmapped hI (pageOf_slotAddr_ne hp)
  rw [← used_freed_iff hp]
  refine ⟨fun hu => hu.bits, fun hbits => ⟨hbits, ?_, ?_⟩⟩
  · rw [Heap.freed, htr, if_pos rfl]
  · intro q hq
    rw [Heap.freed, htr, if_neg hq]

end Calls

section Runs

variable {L : Layout} {r : FreeRegion} {s s' : Session}

/-- No call clears the bit of the first page. -/
theorem HeapStep.firstSlot_used (hI : HeapInv L r s) {op : HeapOp}
    (hstep : HeapStep L r MayFree.live s op s') (hs : used s.heap.pageBitmap 0 = true) :
    used s'.heap.pageBitmap 0 = true := by
  rcases hstep.cases hI hI.mayFree_live with
    ⟨_, -, -, rfl⟩ | ⟨flags, p, _, -, -, hp, rfl⟩ | ⟨a, -, hlive, -, rfl⟩
  · exact hs
  · rw [used_allocated, mark_apply, hs, ite_self]
  · obtain ⟨p, hp, rfl⟩ := hI.live_slot hlive
    obtain ⟨hlt, hm, -⟩ := hp
    -- only page number 32, whose bit the scan passes over, would clear it
    rw [Heap.freed, used_clearPageBit]
    cases hcl : clearedSlot ((slotAddr p).toNat / 4096) with
    | none => exact hs
    | some k =>
      have hk := clearedSlot_slotAddr hlt hcl
      rw [Option.elim_some, release_apply, if_neg (by omega), hs]

/-- The first call from an empty bitmap takes the first page. -/
theorem HeapStep.takes_firstSlot (hI : HeapInv L r s) (hempty : s.live = ∅)
    (hbitmap : s.heap.pageBitmap = fun _ => 0) {op : HeapOp}
    (hstep : HeapStep L r MayFree.live s op s') : used s'.heap.pageBitmap 0 = true := by
  obtain ⟨qs, hqs⟩ := freeSlots_zero hbitmap
  rcases hstep.cases hI hI.mayFree_live with
    ⟨_, -, hfs, -⟩ | ⟨flags, p, ps, -, hfs, -, rfl⟩ | ⟨a, -, hlive, -, -⟩
  · exact absurd (hqs.symm.trans hfs) (by simp [firstSlots])
  · obtain rfl : 0 = p := (List.cons.inj (hqs.symm.trans hfs)).1
    rw [used_allocated, mark_apply, if_pos rfl]
  · rw [MayFree.live, hempty] at hlive
    exact absurd hlive (Finset.notMem_empty _)

/-- **Once a call was made, the bit of the first page is set for good.** -/
theorem firstSlot_used_of_run {h : Heap} (hI : PagingInv L h.machine)
    (hbitmap : h.pageBitmap = fun _ => 0) {ops : List HeapOp} (hne : ops ≠ [])
    (hrun : Run (HeapStep L r MayFree.live) (.start h) ops s) :
    used s.heap.pageBitmap 0 = true := by
  cases hrun with
  | nil => exact absurd rfl hne
  | cons hstep hrest =>
    have hI' : HeapInv L r (.start h) := .start hI
    have hfirst := hstep.takes_firstSlot hI' rfl hbitmap
    refine (hrest.invariant (P := fun s => HeapInv L r s ∧ used s.heap.pageBitmap 0 = true)
      (fun s op t hstep hs => ⟨hstep.inv hs.1 hs.1.mayFree_live, ?_⟩)
      ⟨hstep.inv hI' hI'.mayFree_live, hfirst⟩).2
    exact hstep.firstSlot_used hs.1 hs.2

/-- **When `free_page` undoes `alloc_page`.**  In every reachable state, freeing a live
page never fails, and it undoes the allocation exactly when the bit of the page, and
the bit that is cleared instead, are clear already.  Freeing all live pages, in any
order, gives back the empty bitmap exactly when no call was made at all. -/
theorem free_undoes_alloc_iff {mem : Frame → Index → Word} {h : Heap}
    (hinit : pagingInitialize L (start L mem) = .ok h) {ops : List HeapOp}
    (hrun : Run (HeapStep L r MayFree.live) (.start h) ops s) :
    (∀ a ∈ s.live, ∃ h', freePage a s.heap = .ok h' ∧
      (FreeUndoes s.heap a h' ↔ used s.heap.pageBitmap (slotOf a) = false ∧
        ∀ k, clearedSlot (a.toNat / 4096) = some k → used s.heap.pageBitmap k = false)) ∧
    ∀ (as : List Word) (s' : Session), as.Nodup → (∀ a, a ∈ as ↔ a ∈ s.live) →
      Run (HeapStep L r MayFree.live) s (as.map .free) s' →
        ((s'.heap.pageBitmap = (fun _ => 0) ∧
          ∀ a ∈ s.returned, a ≠ null → slotOf a ∈ freeSlots s'.heap.pageBitmap) ↔ ops = []) := by
  obtain ⟨hinitialized, hbitmap⟩ := initialized_of_ok hinit
  have hI₀ := hinitialized.pagingInv
  have hI : HeapInv L r s := heapInv_of_run (.start hI₀) (run_returned_of_live (.start hI₀) hrun)
  refine ⟨?_, fun as s' hnodup hall hfrees => ⟨?_, ?_⟩⟩
  · intro a ha
    obtain ⟨p, hp, rfl⟩ := hI.live_slot ha
    refine ⟨_, freePage_spec hI.paging (pageOf_slotAddr_ne hp.1), ?_⟩
    rw [freePage_undoes_iff hI.paging hp.1, slotOf_slotAddr hp.1]
  · intro hzero
    by_contra hne
    have hused := firstSlot_used_of_run hI₀ hbitmap
      (by simp [hne] : ops ++ as.map HeapOp.free ≠ []) (hrun.append hfrees)
    rw [hzero.1] at hused
    exact absurd hused (by decide)
  · intro hops
    -- nothing was handed out, so there is nothing to free
    subst hops
    cases hrun
    have has : as = [] := List.eq_nil_iff_forall_not_mem.mpr fun a ha =>
      absurd ((hall a).mp ha) (Finset.notMem_empty a)
    rw [has] at hfrees
    cases hfrees
    exact ⟨hbitmap, fun a ha => absurd ha (Finset.notMem_empty a)⟩

end Runs

/-- Allocating one page and freeing it leaves its bit set. -/
theorem freed_bit_stays :
    ∃ h s h', pagingInitialize sampleLayout (start sampleLayout fun _ _ => 0) = .ok h ∧
      Run (HeapStep sampleLayout sampleRegion MayFree.live) (.start h) [.alloc 2 0x1000] s ∧
      0x1000 ∈ s.live ∧ freePage 0x1000 s.heap = .ok h' ∧
      used h'.pageBitmap (slotOf 0x1000) = true ∧ ¬ FreeUndoes s.heap 0x1000 h' := by
  obtain ⟨h, hinit, hI, hbitmap⟩ := pagingInitialize_spec sampleLayout fun _ _ => 0
  have hstep : HeapStep sampleLayout sampleRegion MayFree.live (.start h)
      (.alloc 2 (slotAddr 0)) _ := .first_alloc hI.pagingInv hbitmap (by decide) 2
  have hpaging : PagingInv sampleLayout
      (h.allocated sampleLayout sampleRegion 2 0).machine := hI.pagingInv.allocated (by decide)
  have hused : used (h.allocated sampleLayout sampleRegion 2 0).pageBitmap 0 = true := by
    rw [used_allocated, mark_apply, if_pos rfl]
  -- freeing page number 1 clears no bit
  have hnone : clearedSlot ((slotAddr 0).toNat / 4096) = none := by decide
  have hused' : used ((h.allocated sampleLayout sampleRegion 2 0).freed sampleLayout
      (slotAddr 0)).pageBitmap 0 = true := by
    rw [Heap.freed, used_clearPageBit, hnone]
    exact hused
  refine ⟨h, _, _, hinit, .single hstep, Finset.mem_insert_self _ _,
    freePage_spec hpaging (by decide), hused', ?_⟩
  intro hu
  have hclear := ((freePage_undoes_iff hpaging (p := 0) (by decide)).mp hu).1
  rw [hused] at hclear
  exact absurd hclear (by decide)

theorem free_undoes_alloc_iff_sample :
    ∃ h s h', pagingInitialize sampleLayout (start sampleLayout fun _ _ => 0) = .ok h ∧
      Run (HeapStep sampleLayout sampleRegion MayFree.live) (.start h) [.alloc 2 0x1000] s ∧
      0x1000 ∈ s.live ∧ freePage 0x1000 s.heap = .ok h' ∧
      (FreeUndoes s.heap 0x1000 h' ↔ used s.heap.pageBitmap 0 = false ∧
        ∀ k, clearedSlot 1 = some k → used s.heap.pageBitmap k = false) := by
  obtain ⟨h, hinit, hI, hbitmap⟩ := pagingInitialize_spec sampleLayout fun _ _ => 0
  have hrun : Run (HeapStep sampleLayout sampleRegion MayFree.live) (.start h)
      [.alloc 2 (slotAddr 0)] _ := .single (.first_alloc hI.pagingInv hbitmap (by decide) 2)
  have hmem := Finset.mem_insert_self (slotAddr 0) ∅
  obtain ⟨h', hcall, hiff⟩ := (free_undoes_alloc_iff hinit hrun).1 _ hmem
  exact ⟨h, _, h', hinit, hrun, hmem, hcall, hiff⟩

end MVK
