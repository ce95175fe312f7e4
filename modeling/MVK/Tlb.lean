import MVK.PageMap

/-!
# The translation cache

The hardware caches translations, and may take a cached one without walking the
tables again.  `map_page` can change two levels at once and flushes one page.  That
is enough: the page of the recursive window that appears with a new table was not
present before, so it was never cached.

## Main definitions

* `pageCalls` — the calls of `map_page` and `unmap_page` below the recursive window.

## Main results

* `tlb_coherent` — **between calls every cached translation is the tables' own**,
  in any interleaving of calls and fills.
* `tlb_transparent` — between calls the tables are those of the sequential run.
-/

namespace MVK

open Translation Translation.Prog Transition

/-- The calls of `map_page` and `unmap_page` on addresses below the recursive window. -/
def pageCalls (L : Layout) : Set (Code Unit) :=
  {p | ∃ op : PageOp, BelowWindow op.vaddr ∧ p = op.code L}

/-- Each call keeps the flush discipline and the page-table invariant. -/
theorem pageCalls_safe {L : Layout} {p : Code Unit} (hp : p ∈ pageCalls L) {m : Machine}
    (h : PagingInv L m) : p.Safe mmu (fun _ => PagingInv L) (fun _ => True) m ∅ := by
  obtain ⟨op, hbelow, rfl⟩ := hp
  -- an address below the window never touches slot 1023
  have hv := hbelow.page_ne
  cases op with
  | map paddr vaddr flags =>
    refine (mapFreePage_safe h hv paddr flags).imp ?_ fun _ _ => trivial
    rintro _ _ ⟨rfl, hm⟩
    exact h.mapped hv hm paddr flags
  | unmap vaddr =>
    refine (unmapPage_safe h hv).imp ?_ fun _ _ => trivial
    rintro _ _ rfl
    exact h.unmapped hv

section Runs

variable {L : Layout} {mem : Frame → Index → Word} {h : Heap}
  {ls : List (Option (Code Unit))} {c : Config Machine Word Page PageTranslation Word}

/-- **TLB coherence.**  From the empty cache that loading `cr3` leaves, whatever fills
and calls follow and however they interleave, whenever no call is in progress every
cached translation is the one the tables give: that of every page, those of the
recursive window included. -/
theorem tlb_coherent (hinit : pagingInitialize L (start L mem) = .ok h)
    (hrun : Run (SysStep mmu (pageCalls L)) ⟨h.machine, ∅, .pure ()⟩ ls c) (hidle : c.Idle)
    (q : Page) (t : PageTranslation) (hqt : (q, t) ∈ c.tlb) : c.mem.translate q = some t := by
  have hI := (initialized_of_ok hinit).1
  exact (idle_coherent (fun p hp m hm => pageCalls_safe hp hm) hrun rfl hI.pagingInv
    (fun _ _ hc => absurd hc (Set.notMem_empty _)) hidle).1 q t hqt

/-- **The cache does not show**: between calls, the memory is the one that the same
calls leave when each access walks the tables. -/
theorem tlb_transparent (hinit : pagingInitialize L (start L mem) = .ok h)
    (hrun : Run (SysStep mmu (pageCalls L)) ⟨h.machine, ∅, .pure ()⟩ ls c) (hidle : c.Idle) :
    runCalls mmu (ls.foldl (fun ps l => ps ++ l.toList) []) h.machine = .ok c.mem := by
  have hI := (initialized_of_ok hinit).1
  exact idle_refines (fun p hp m hm => pageCalls_safe hp hm) hrun rfl hI.pagingInv
    (fun _ _ hc => absurd hc (Set.notMem_empty _)) hidle

end Runs

/-- The kernel window is cached before the call, the new page after it. -/
theorem tlb_coherent_sample :
    ∃ h ls c, pagingInitialize sampleLayout (start sampleLayout fun _ _ => 0) = .ok h ∧
      Run (SysStep mmu (pageCalls sampleLayout)) ⟨h.machine, ∅, .pure ()⟩ ls c ∧ c.Idle ∧
      some (mapFreePage sampleLayout 0x00200000 0x00001000 2) ∈ ls ∧
      ∃ t, (pageOf 0x00001000, t) ∈ c.tlb ∧ c.mem.translate (pageOf 0x00001000) = some t := by
  obtain ⟨h, hinit, hI, -⟩ := pagingInitialize_spec sampleLayout fun _ _ => 0
  have hwalk : h.machine.translate (768#10, 0#10) = some ⟨imageFrame 0, true, false⟩ :=
    hI.translate (by decide)
  have hfill : Micro mmu ⟨h.machine, ∅, .pure ()⟩ ⟨h.machine, _, .pure ()⟩ := .fill hwalk
  have hcall : mapFreePage sampleLayout 0x00200000 0x00001000 2 ∈ pageCalls sampleLayout :=
    ⟨.map 0x00200000 0x00001000 2, by decide, rfl⟩
  have hm : Mappable sampleLayout h.machine 0x00001000 := Or.inr (by decide)
  rcases run_mapFreePage hI.pagingInv (v := 0x00001000) (by decide) 0x00200000 2 with
    ⟨-, hok⟩ | ⟨hnot, -⟩
  · obtain ⟨ls, tlb, hfinish, -⟩ := @exists_run_of_run _ _ _ _ _ mmu (pageCalls sampleLayout)
      _ _ _ hok (insert ((768#10, 0#10), ⟨imageFrame 0, true, false⟩) ∅)
    -- after the call the hardware may cache the page that it mapped
    have hnew := translate_mapped hI.pagingInv (by decide) hm 0x00200000 2 (pageOf 0x00001000)
    rw [if_pos rfl] at hnew
    have hcached : Micro mmu ⟨_, tlb, .pure ()⟩ ⟨_, _, .pure ()⟩ := .fill hnew
    have hrun := (Run.cons (.micro hfill) (.cons (.call rfl hcall) hfinish)).snoc (.micro hcached)
    exact ⟨h, _, _, hinit, hrun, rfl, by simp, _, Set.mem_insert _ _,
      tlb_coherent hinit hrun rfl _ _ (Set.mem_insert _ _)⟩
  · exact absurd hm hnot

end MVK
