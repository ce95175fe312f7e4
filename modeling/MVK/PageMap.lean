import MVK.PageTable

/-!
# The page-table code as a finite map

Under the page-table invariant, `map_page`, `unmap_page` and `get_physical_address`
are what their names say of a partial map from virtual pages to frames: an update,
a removal and a look-up.  Each is first shown to keep the flush discipline and to
leave exactly the tables of `mapped` and `unmapped`; its run, and later its run
over a translation cache, are read off that.

## Main definitions

* `PageMap`, `kernelMap` — the abstract map, and the one the kernel starts from.
* `PageOp`, `PageOp.apply` — the edits, on the code's side and on the map's.
* `Refines` — the tables stand for the map.

## Main results

* `mapFreePage_safe`, `unmapPage_safe`, `getPhysicalAddress_safe` — the code.
* `Refines.exec` — one edit of the tables is one edit of the map.
* `page_tables_refine_map` — **a run of edits leaves the map that the same edits of
  the abstract map leave, and `get_physical_address` reads it.**
-/

namespace MVK

open SelfMap Translation Translation.Prog Transition

/-! ### The code, spelled out -/

/-- `map_page` on the kernel's free tables, as one program. -/
theorem mapFreePage_eq (L : Layout) (p v : Word) (flags : BitVec 16) :
    mapFreePage L p v flags =
      let v' := v &&& ~~~0xFFF#32
      let store : Code Unit := .store (ptEntryAddr (v' >>> 22) (v' >>> 12 &&& 0x03FF#32))
        (pteWord p flags) (.flush v' (.pure ()))
      Prog.load (pdEntryAddr (v' >>> 22)) fun pde =>
        if pde &&& pageFlagPresent = 0 then
          if v' >>> 22 ≥ BitVec.ofNat 32 freePageTablesSize then
            .abort "map_page: Can't allocate Page Table!"
          else .store (pdEntryAddr (v' >>> 22))
            (tableEntry (imageAddr L.freePageTables) (v' >>> 22)) store
        else store := by
  rw [mapFreePage, mapPage]
  simp only [read_bind]
  rfl

/-- The entry the code installs is the one that belongs to the slot. -/
theorem tableEntry_eq_slotEntry (L : Layout) {w : Word} {i : Index} (hw : w.toNat = i.toNat)
    (hi : i.toNat < 767) : tableEntry (imageAddr L.freePageTables) w =
      slotEntry i (L.freePageTables + i.toNat) := by
  have hlt := L.facts.1.2.2.2.2.2
  have hw' : w = BitVec.ofNat 32 i.toNat := by
    apply BitVec.eq_of_toNat_eq
    rw [BitVec.toNat_ofNat, hw]
    omega
  rw [tableEntry, hw', imageAddr_add_pageSize_mul, BitVec.or_assoc, BitVec.or_assoc, slotEntry,
    slotFlags, if_pos hi]
  exact or_eq_tableWord (toNat_kernelToPhys_imageAddr (by omega)) 0x007

section Code

variable {L : Layout} {m : Machine}

/-- The directory index of the masked address, as the code computes it. -/
theorem toNat_pd_index (v : Word) :
    ((v &&& ~~~0xFFF#32) >>> 22).toNat = (pageOf v).1.toNat := by
  rw [toNat_ushiftRight_22, pageOf_and_not_fff]

/-- The table index of the masked address, as the code computes it. -/
theorem toNat_pt_index (v : Word) :
    ((v &&& ~~~0xFFF#32) >>> 12 &&& 0x03FF#32).toNat = (pageOf v).2.toNat := by
  rw [toNat_ushiftRight_12_and, pageOf_and_not_fff]

/-- The end of `map_page`, once the slot is present: the store to the table and the flush. -/
theorem store_pt_flush_safe (h : PagingInv L m) {v : Word} (hv : (pageOf v).1 ≠ 1023#10)
    (p : Word) (flags : BitVec 16) (hm : Mappable L m v) :
    (Prog.store (ptEntryAddr ((v &&& ~~~0xFFF#32) >>> 22)
      ((v &&& ~~~0xFFF#32) >>> 12 &&& 0x03FF#32)) (pteWord p flags)
      (.flush (v &&& ~~~0xFFF#32) (.pure ()))).Safe mmu
      (fun _ m' => m' = mapped L m p v flags ∧ Mappable L m v)
      (fun msg => msg = "map_page: Can't allocate Page Table!" ∧ ¬ Mappable L m v)
      (installed L m (pageOf v).1) ∅ := by
  have hinst := h.installed_of_mappable hm
  have hpres := installed_present (L := L) (m := m) (pageOf v).1
  refine hinst.safe_store_pt_flush (toNat_pd_index v) (toNat_pt_index v) (pageOf_and_not_fff v)
    hpres ?_ ⟨rfl, hm⟩
  intro q hq
  rw [hinst.translate_setLeaf hv hpres, if_neg hq]

/-- **`map_page` leaves `mapped`** and flushes what it changes; it gives up exactly on
a slot that has no table and for which there is none to install. -/
theorem mapFreePage_safe (h : PagingInv L m) {v : Word} (hv : (pageOf v).1 ≠ 1023#10)
    (p : Word) (flags : BitVec 16) :
    (mapFreePage L p v flags).Safe mmu
      (fun _ m' => m' = mapped L m p v flags ∧ Mappable L m v)
      (fun msg => msg = "map_page: Can't allocate Page Table!" ∧ ¬ Mappable L m v) m ∅ := by
  have hi := toNat_pd_index v
  rw [mapFreePage_eq]
  refine h.safe_load_pd hi (Set.notMem_empty _) ?_
  split
  · next habs =>
    -- the slot is empty: its table is installed, if there is one
    rw [and_present_eq_zero_iff] at habs
    have hi767 : (v &&& ~~~0xFFF#32) >>> 22 ≥ BitVec.ofNat 32 freePageTablesSize ↔
        767 ≤ (pageOf v).1.toNat := by
      rw [ge_iff_le, BitVec.le_def, hi]
      rfl
    split
    · next hge =>
      refine ⟨rfl, ?_⟩
      rintro (hp | hlt)
      · rw [habs] at hp
        exact absurd hp (by decide)
      · have := hi767.mp hge
        omega
    · next hlt =>
      have hlt' : (pageOf v).1.toNat < 767 := by
        by_contra hc
        exact hlt (hi767.mpr (by omega))
      rw [tableEntry_eq_slotEntry L hi hlt']
      refine h.safe_store_pd hi (Set.notMem_empty _) ?_ ?_
      · -- the one translation that changes was not there before, so none is cached
        intro q t hq
        rw [← installed_of_absent habs, translate_installed h hlt']
        split
        · next hc =>
          rw [hc.2, h.translate_window, habs] at hq
          exact absurd hq (by simp)
        · exact hq
      · rw [← installed_of_absent habs]
        exact store_pt_flush_safe h hv p flags (Or.inr hlt')
  · next hpres =>
    rw [and_present_eq_zero_iff, Bool.not_eq_false] at hpres
    have hstore := store_pt_flush_safe h hv p flags (Or.inl hpres)
    rwa [installed_of_present hpres] at hstore

/-- **`unmap_page` leaves `unmapped`** and flushes what it changes. -/
theorem unmapPage_safe (h : PagingInv L m) {v : Word} (hv : (pageOf v).1 ≠ 1023#10) :
    (unmapPage v).Safe mmu (fun _ m' => m' = unmapped L m v) (fun _ => False) m ∅ := by
  have hi := toNat_pd_index v
  have hj := toNat_pt_index v
  rw [unmapPage]
  simp only [read_bind]
  refine h.safe_walk hi hj (fun habs => ?_) fun hpres hleaf => ?_
  · refine ⟨rfl, ?_⟩
    rw [unmapped, habs]
    rfl
  · have hmapped : (m.translate (pageOf v)).isSome := by
      rw [h.translate_present hpres, if_pos hleaf]
      rfl
    refine h.safe_load_pt hi hj hpres (Set.notMem_empty _) ?_
    refine h.safe_store_pt_flush hi hj (pageOf_and_not_fff v) hpres ?_ ?_
    · intro q hq
      rw [h.translate_setLeaf hv hpres, if_neg hq]
    · rw [unmapped, if_pos hmapped]

/-- **`get_physical_address` reads the translation**, and changes nothing. -/
theorem getPhysicalAddress_safe (h : PagingInv L m) (v : Word) :
    (getPhysicalAddress v).Safe mmu (fun a m' => m' = m ∧ a = (m.walk v).getD null)
      (fun _ => False) m ∅ := by
  have hi := toNat_ushiftRight_22 v
  have hj := toNat_ushiftRight_12_and v
  rw [getPhysicalAddress]
  simp only [read_bind]
  rw [Machine.walk]
  refine h.safe_walk hi hj (fun habs => ?_) fun hpres hleaf => ?_
  · refine ⟨rfl, rfl, ?_⟩
    rw [habs]
    rfl
  · refine h.safe_load_pt hi hj hpres (Set.notMem_empty _) ⟨rfl, rfl, ?_⟩
    rw [h.translate_present hpres, hleaf, if_pos rfl, Option.map_some, Option.getD_some,
      pathTranslation]
    exact and_not_fff_add_and_fff _ v

/-! ### The sequential runs -/

/-- The run of `map_page`. -/
theorem run_mapFreePage (h : PagingInv L m) {v : Word} (hv : (pageOf v).1 ≠ 1023#10)
    (p : Word) (flags : BitVec 16) :
    (Mappable L m v ∧ (mapFreePage L p v flags).run mmu m = .ok ((), mapped L m p v flags)) ∨
      (¬ Mappable L m v ∧ (mapFreePage L p v flags).run mmu m =
        .error (.abort "map_page: Can't allocate Page Table!")) := by
  rcases (mapFreePage_safe h hv p flags).run with ⟨msg, hrun, rfl, hm⟩ | ⟨_, m', hrun, rfl, hm⟩
  · exact Or.inr ⟨hm, hrun⟩
  · exact Or.inl ⟨hm, hrun⟩

/-- The run of `unmap_page`. -/
theorem run_unmapPage (h : PagingInv L m) {v : Word} (hv : (pageOf v).1 ≠ 1023#10) :
    (unmapPage v).run mmu m = .ok ((), unmapped L m v) := by
  rcases (unmapPage_safe h hv).run with ⟨msg, -, hf⟩ | ⟨_, m', hrun, rfl⟩
  · exact hf.elim
  · exact hrun

/-- The run of `get_physical_address`. -/
theorem run_getPhysicalAddress (h : PagingInv L m) (v : Word) :
    (getPhysicalAddress v).run mmu m = .ok ((m.walk v).getD null, m) := by
  rcases (getPhysicalAddress_safe h v).run with ⟨msg, -, hf⟩ | ⟨a, m', hrun, rfl, rfl⟩
  · exact hf.elim
  · exact hrun

end Code

/-! ### The tables after `paging_initialize` -/

/-- `paging_initialize` establishes the invariant. -/
theorem Initialized.pagingInv {L : Layout} {m : Machine} (h : Initialized L m) :
    PagingInv L m := by
  have hlt := L.facts.1
  have hdir : ∀ i : Index, m.mem (imageFrame L.pageDirectory) i =
      if i.toNat = 768 then kernelEntry L.kernelPageTables
      else if i.toNat = 769 then kernelEntry (L.kernelPageTables + 1)
      else if i.toNat = 1023 then kernelEntry L.pageDirectory else 0 := by
    intro i
    rw [mem_eq_wordAt m.mem, toNat_imageFrame (by omega), h.dir _ i.isLt]
  have hflags : ∀ (i : Index) (k : ℕ), 767 ≤ i.toNat → slotEntry i k = kernelEntry k := by
    intro i k hi
    rw [slotEntry, slotFlags, if_neg (by omega), kernelEntry]
  refine ⟨h.cr3, ?_, ?_, ?_⟩
  · intro i
    rw [hdir]
    unfold slotPage
    split
    · next h768 => exact Or.inr ⟨_, by rw [if_neg (by omega)], (hflags i _ (by omega)).symm⟩
    · next h768 =>
      split
      · next h769 =>
        exact Or.inr ⟨_, by rw [if_neg (by omega)], (hflags i _ (by omega)).symm⟩
      · next h769 =>
        split
        · next h1023 =>
          exact Or.inr ⟨_, by rw [if_neg (by omega)], (hflags i _ (by omega)).symm⟩
        · exact Or.inl rfl
  · intro i k hi hk
    rw [hdir, hflags i k (by omega)]
    unfold slotPage at hk
    split_ifs at hk ⊢ <;> simp only [Option.some.injEq] at hk <;> first | omega | rw [hk]
  · intro i hi _ j
    have hj := j.isLt
    rw [mem_eq_wordAt m.mem, toNat_imageFrame (by omega),
      show 1024 * (L.freePageTables + i.toNat) + j.toNat =
        1024 * L.freePageTables + (1024 * i.toNat + j.toNat) by omega, h.free _ (by omega)]
    rfl

/-- After `paging_initialize` the window is all that is mapped outside slot 1023. -/
theorem Initialized.translate {L : Layout} {m : Machine} (h : Initialized L m) {q : Page}
    (hq : q.1 ≠ 1023#10) : m.translate q =
      if 768 ≤ q.1.toNat ∧ q.1.toNat < 770 then
        some ⟨imageFrame (1024 * (q.1.toNat - 768) + q.2.toNat), true, false⟩
      else none := by
  have hq1 := q.1.isLt
  have hq2 := q.2.isLt
  have hne : q.1.toNat ≠ 1023 := fun hc => hq (BitVec.eq_of_toNat_eq hc)
  split
  · next hk =>
    have hwin := h.windowTables.kernelWindow (1024 * (q.1.toNat - 768) + q.2.toNat) (by omega)
    have hpage : imagePage (1024 * (q.1.toNat - 768) + q.2.toNat) = q := by
      refine Prod.ext (BitVec.eq_of_toNat_eq ?_) (BitVec.eq_of_toNat_eq ?_)
      · rw [imagePage, BitVec.toNat_ofNat]
        omega
      · rw [imagePage, BitVec.toNat_ofNat]
        omega
    rwa [hpage] at hwin
  · next hk =>
    refine h.pagingInv.translate_absent ?_
    rw [mem_eq_wordAt m.mem, toNat_imageFrame L.facts.1.2.2.2.1, h.dir _ hq1, if_neg (by omega),
      if_neg (by omega), if_neg hne]
    rfl

/-! ### The abstract map -/

/-- A partial map from virtual pages to frames. -/
abbrev PageMap := Page → Option Frame

/-- The kernel window `[0xC0000000, 0xC0800000)`, and nothing else. -/
def kernelMap : PageMap := fun q =>
  if 768 ≤ q.1.toNat ∧ q.1.toNat < 770 then
    some (imageFrame (1024 * (q.1.toNat - 768) + q.2.toNat))
  else none

/-- An edit of the tables. -/
inductive PageOp
  /-- `map_page(paddr, vaddr, free_page_tables, FREE_PAGE_TABLES_SIZE, flags)`. -/
  | map (paddr vaddr : Word) (flags : BitVec 16)
  /-- `unmap_page(vaddr)`. -/
  | unmap (vaddr : Word)

def PageOp.vaddr : PageOp → Word
  | .map _ vaddr _ => vaddr
  | .unmap vaddr => vaddr

/-- The code of an edit. -/
def PageOp.code (L : Layout) : PageOp → Code Unit
  | .map paddr vaddr flags => mapFreePage L paddr vaddr flags
  | .unmap vaddr => unmapPage vaddr

/-- An edit of the map: an update or a removal at the page of `vaddr`. -/
def PageOp.apply (M : PageMap) : PageOp → PageMap
  | .map paddr vaddr _ => Function.update M (pageOf vaddr) (some (frameOf paddr))
  | .unmap vaddr => Function.update M (pageOf vaddr) none

/-- An address below the recursive window. -/
def BelowWindow (v : Word) : Prop := v.toNat < 0xFFC00000

instance (v : Word) : Decidable (BelowWindow v) := inferInstanceAs (Decidable (_ < _))

/-- One edit below the recursive window, run to its end. -/
def PageStep (L : Layout) (m : Machine) (op : PageOp) (m' : Machine) : Prop :=
  BelowWindow op.vaddr ∧ (op.code L).run mmu m = .ok ((), m')

theorem BelowWindow.page_ne {v : Word} (h : BelowWindow v) : (pageOf v).1 ≠ 1023#10 := by
  intro hc
  have h1023 := toNat_pageOf_fst v
  unfold BelowWindow at h
  rw [hc, BitVec.toNat_ofNat] at h1023
  omega

/-- The tables stand for the map below the recursive window. -/
structure Refines (L : Layout) (m : Machine) (M : PageMap) : Prop where
  inv : PagingInv L m
  agree : ∀ q : Page, q.1 ≠ 1023#10 → (m.translate q).map PageTranslation.frame = M q

theorem Initialized.refines {L : Layout} {m : Machine} (h : Initialized L m) :
    Refines L m kernelMap := by
  refine ⟨h.pagingInv, ?_⟩
  intro q hq
  rw [h.translate hq, kernelMap]
  split <;> rfl

/-- Below the window, installing a table shows nothing. -/
theorem translate_installed_of_ne {L : Layout} {m : Machine} (h : PagingInv L m) {v : Word}
    (hm : Mappable L m v) {q : Page} (hq : q.1 ≠ 1023#10) :
    (installed L m (pageOf v).1).translate q = m.translate q := by
  rcases hm with hp | hi
  · rw [installed_of_present hp]
  · rw [translate_installed h hi, if_neg]
    rintro ⟨-, rfl⟩
    exact hq rfl

/-- **One edit of the tables is one edit of the map.** -/
theorem Refines.exec {L : Layout} {m m' : Machine} {M : PageMap} (h : Refines L m M) {op : PageOp}
    (hstep : PageStep L m op m') : Refines L m' (op.apply M) := by
  obtain ⟨hbelow, hrun⟩ := hstep
  cases op with
  | map paddr vaddr flags =>
    have hv : (pageOf vaddr).1 ≠ 1023#10 := hbelow.page_ne
    rcases run_mapFreePage h.inv hv paddr flags with ⟨hm, hok⟩ | ⟨-, herr⟩
    · have hm' : mapped L m paddr vaddr flags = m' :=
        congrArg Prod.snd (Except.ok.inj (hok.symm.trans hrun))
      subst hm'
      refine ⟨h.inv.mapped hv hm paddr flags, ?_⟩
      intro q hq
      rw [translate_mapped h.inv hv hm, PageOp.apply, Function.update_apply]
      split
      · rfl
      · rw [translate_installed_of_ne h.inv hm hq, h.agree q hq]
    · exact absurd (herr.symm.trans hrun) (by simp)
  | unmap vaddr =>
    have hv : (pageOf vaddr).1 ≠ 1023#10 := hbelow.page_ne
    have hm' : unmapped L m vaddr = m' :=
      congrArg Prod.snd (Except.ok.inj ((run_unmapPage h.inv hv).symm.trans hrun))
    subst hm'
    refine ⟨h.inv.unmapped hv, ?_⟩
    intro q hq
    rw [translate_unmapped h.inv hv, PageOp.apply, Function.update_apply]
    split
    · rfl
    · exact h.agree q hq

/-- The tables stand for the map that the same edits make. -/
theorem refines_of_run {L : Layout} {mem : Frame → Index → Word} {h : Heap}
    (hinit : pagingInitialize L (start L mem) = .ok h) {ops : List PageOp} {m : Machine}
    (hrun : Run (PageStep L) h.machine ops m) : Refines L m (ops.foldl PageOp.apply kernelMap) := by
  have hI := (initialized_of_ok hinit).1
  exact hrun.simulates (R := Refines L) (f := PageOp.apply)
    (fun _ _ _ _ hstep hR => hR.exec hstep) hI.refines

/-- An edit below the window never faults: it ends, or gives up for want of a table. -/
theorem PageOp.run_or_abort {L : Layout} {m : Machine} (h : PagingInv L m) {op : PageOp}
    (hbelow : BelowWindow op.vaddr) : (∃ m', PageStep L m op m') ∨
      (op.code L).run mmu m = .error (.abort "map_page: Can't allocate Page Table!") := by
  cases op with
  | map paddr vaddr flags =>
    rcases run_mapFreePage h hbelow.page_ne paddr flags with ⟨-, hok⟩ | ⟨-, herr⟩
    · exact Or.inl ⟨_, hbelow, hok⟩
    · exact Or.inr herr
  | unmap vaddr => exact Or.inl ⟨_, hbelow, run_unmapPage h hbelow.page_ne⟩

/-- **The page-table code refines a finite map.**  After any run of edits below the
recursive window, `get_physical_address` returns, for every address there, what the
map with the same edits gives: the frame with the address's offset, or `NULL`. -/
theorem page_tables_refine_map {L : Layout} {mem : Frame → Index → Word} {h : Heap}
    (hinit : pagingInitialize L (start L mem) = .ok h) {ops : List PageOp} {m : Machine}
    (hrun : Run (PageStep L) h.machine ops m) {v : Word} (hv : BelowWindow v) :
    (getPhysicalAddress v).run mmu m =
      .ok (match ops.foldl PageOp.apply kernelMap (pageOf v) with
        | some f => (f ++ offsetOf v : BitVec (20 + 12))
        | none => null, m) := by
  have hR := refines_of_run hinit hrun
  rw [run_getPhysicalAddress hR.inv, ← hR.agree _ hv.page_ne, Machine.walk]
  cases m.translate (pageOf v) <;> rfl

/-- A placement to run the code on. -/
def sampleLayout : Layout where
  bootPageDirectory := 16
  bootPageTable1 := 17
  bootPageTable2 := 18
  pageDirectory := 19
  kernelPageTables := 20
  freePageTables := 22
  apart := by decide
  inWindow := by decide

theorem page_tables_refine_map_sample :
    ∃ h m, pagingInitialize sampleLayout (start sampleLayout fun _ _ => 0) = .ok h ∧
      Run (PageStep sampleLayout) h.machine [.map 0x00200000 0x00001000 2] m ∧
      BelowWindow 0x00001234 ∧
      (getPhysicalAddress 0x00001234).run mmu m = .ok (0x00200234, m) := by
  obtain ⟨h, hinit, hI, -⟩ := pagingInitialize_spec sampleLayout fun _ _ => 0
  rcases run_mapFreePage hI.pagingInv (v := 0x00001000) (by decide) 0x00200000 2 with
    ⟨-, hok⟩ | ⟨hm, -⟩
  · have hrun : Run (PageStep sampleLayout) h.machine [.map 0x00200000 0x00001000 2] _ :=
      .single ⟨by decide, hok⟩
    exact ⟨h, _, hinit, hrun, by decide, page_tables_refine_map hinit hrun (by decide)⟩
  · exact absurd (Or.inr (by decide)) hm

end MVK
