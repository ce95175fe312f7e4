import MVK.Heap

/-!
# What the heap maps, and what it leaves alone

Two invariants of every run of calls, whatever is freed, once or twice: below the
kernel only heap pages are mapped, each to its own page of the region; and the
kernel's own tables never change.

## Main definitions

* `HeapMap` — the pages mapped below the kernel.
* `KernelTables` — the two tables of the kernel window.

## Main results

* `heap_mapping_invariant` — **no aliasing, no page 0, nothing outside the region.**
* `kernel_window_intact` — **the window, slot 1023 and the supervisor bits stay.**
* `get_physical_address_null_iff` — **`NULL` for what is unmapped, and for the one mapped
  address of physical address 0.**
-/

namespace MVK

open FirstFit SelfMap Translation Translation.Prog Transition

/-- Below the kernel, a mapped page is a heap page and shows its page of the region. -/
def HeapMap (r : FreeRegion) (m : Machine) : Prop :=
  ∀ q t, q.1.toNat < 768 → m.translate q = some t →
    ∃ p, InRegion r p ∧ q = pageOf (slotAddr p) ∧ t.frame = frameOf (r.pageAddr p)

/-- The kernel's page tables hold the window's entries. -/
def KernelTables (L : Layout) (m : Machine) : Prop :=
  ∀ k, k < 2 → ∀ j : Index,
    m.mem (imageFrame (L.kernelPageTables + k)) j = kernelEntry (1024 * k + j.toNat)

section Edits

variable {L : Layout} {r : FreeRegion} {m : Machine}

theorem ne_of_lt_768 {i : Index} (h : i.toNat < 768) : i ≠ 1023#10 := by
  rintro rfl
  exact absurd h (by decide)

/-- Handing out page `p` adds its heap page. -/
theorem HeapMap.mapped (h : HeapMap r m) (hI : PagingInv L m) {p : ℕ} (hp : InRegion r p)
    (flags : BitVec 16) : HeapMap r (mapped L m (r.pageAddr p) (slotAddr p) flags) := by
  have hm : Mappable L m (slotAddr p) := Or.inr (pageOf_slotAddr_fst hp.1)
  intro q t hq ht
  rw [translate_mapped hI (pageOf_slotAddr_ne hp.1) hm] at ht
  split at ht
  · next hqp =>
    -- the new page shows page `p` of the region
    obtain rfl := Option.some.inj ht
    exact ⟨p, hp, hqp, rfl⟩
  · rw [translate_installed_of_ne hI hm (ne_of_lt_768 hq)] at ht
    exact h q t hq ht

/-- Freeing an address removes at most its own page. -/
theorem HeapMap.unmapped (h : HeapMap r m) (hI : PagingInv L m) {a : Word}
    (ha : (pageOf a).1 ≠ 1023#10) : HeapMap r (unmapped L m a) := by
  intro q t hq ht
  rw [translate_unmapped hI ha] at ht
  split at ht
  · exact absurd ht (by simp)
  · exact h q t hq ht

/-- The table of a present heap slot. -/
theorem PagingInv.frameOf_slot (hI : PagingInv L m) {i : Index} (hi : i.toNat < 767)
    (hp : (m.mem (imageFrame L.pageDirectory) i).getLsbD 0 = true) :
    frameOf (m.mem (imageFrame L.pageDirectory) i) = imageFrame (L.freePageTables + i.toNat) := by
  obtain ⟨k, hk, hent⟩ := hI.present hp
  rw [slotPage_of_lt L hi, Option.some_inj] at hk
  rw [hent, frameOf_slotEntry, ← hk]

/-- The frames of the kernel's tables are neither the directory's nor a heap table's. -/
theorem kernelTable_frame_ne (L : Layout) {k : ℕ} (hk : k < 2) :
    imageFrame (L.kernelPageTables + k) ≠ imageFrame L.pageDirectory ∧
      ∀ i : Index, i.toNat < 767 →
        imageFrame (L.kernelPageTables + k) ≠ imageFrame (L.freePageTables + i.toNat) := by
  obtain ⟨hlt, -, -, hapart, hkf⟩ := L.facts
  have hpd := (hapart L.pageDirectory (by simp)).1
  constructor
  · intro h
    have heq := imageFrame_inj (by omega) (by omega) h
    omega
  · intro i hi h
    have heq := imageFrame_inj (by omega) (by omega) h
    omega

theorem KernelTables.mapped (h : KernelTables L m) (hI : PagingInv L m) {p v : Word}
    (hv : (pageOf v).1.toNat < 767) (flags : BitVec 16) :
    KernelTables L (mapped L m p v flags) := by
  intro k hk j
  obtain ⟨hdir, hfree⟩ := kernelTable_frame_ne L hk
  rw [MVK.mapped, Machine.setWord_mem,
    (hI.installed hv).frameOf_slot hv (installed_present _),
    setEntry_of_frame_ne _ (hfree _ hv), installed_mem_of_frame_ne hdir, h k hk j]

theorem KernelTables.unmapped (h : KernelTables L m) (hI : PagingInv L m) {v : Word}
    (hv : (pageOf v).1.toNat < 767) : KernelTables L (unmapped L m v) := by
  intro k hk j
  rw [MVK.unmapped]
  split
  · next hs =>
    rw [Machine.setWord_mem, hI.frameOf_slot hv (hI.present_of_translate hs),
      setEntry_of_frame_ne _ ((kernelTable_frame_ne L hk).2 _ hv), h k hk j]
  · exact h k hk j

/-- With the directory in order, the kernel's tables map the window. -/
theorem KernelTables.kernelWindow (h : KernelTables L m) (hI : PagingInv L m) :
    KernelWindow m := by
  intro k hk
  have hslot : ∀ (i : Index) (t : ℕ), 768 ≤ i.toNat → slotPage L i = some t →
      m.mem (imageFrame L.pageDirectory) i = kernelEntry t := by
    intro i t hi ht
    rw [hI.kernel i t hi ht, slotEntry, slotFlags, if_neg (by omega), kernelEntry]
  -- slot 768 maps the first 1024 pages, slot 769 the rest
  rcases Nat.lt_or_ge k 1024 with hlt | hge
  · have hword := h 0 (by omega) (BitVec.ofNat 10 k)
    have hnum : 1024 * 0 + k % 2 ^ 10 = k := by omega
    rw [BitVec.toNat_ofNat, hnum] at hword
    rw [imagePage_of_lt hlt]
    exact translate_of_kernelEntries hI.cr3 (hslot 768#10 _ (by decide) rfl) hword
  · have hword := h 1 (by omega) (BitVec.ofNat 10 (k - 1024))
    have hnum : 1024 * 1 + (k - 1024) % 2 ^ 10 = k := by omega
    rw [BitVec.toNat_ofNat, hnum] at hword
    rw [imagePage_of_ge hge hk]
    exact translate_of_kernelEntries hI.cr3 (hslot 769#10 _ (by decide) rfl) hword

end Edits

/-! ### Every run -/

/-- The three invariants together. -/
structure HeapMapInv (L : Layout) (r : FreeRegion) (s : Session) : Prop where
  inv : HeapInv L r s
  map : HeapMap r s.heap.machine
  kernel : KernelTables L s.heap.machine

theorem Initialized.heapMapInv {L : Layout} {r : FreeRegion} {h : Heap}
    (hI : Initialized L h.machine) : HeapMapInv L r (.start h) := by
  refine ⟨.start hI.pagingInv, ?_, ?_⟩
  · intro q t hq ht
    change h.machine.translate q = some t at ht
    rw [hI.translate (ne_of_lt_768 hq), if_neg (by omega)] at ht
    exact absurd ht (by simp)
  · intro k hk j
    have hj := j.isLt
    have hlt := L.facts.1
    have hword := hI.kernel (1024 * k + j.toNat) (by omega)
    change h.machine.mem _ j = _
    rw [mem_eq_wordAt h.machine.mem, toNat_imageFrame (by omega), ← hword]
    congr 1
    omega

/-- One call keeps the three invariants. -/
theorem HeapStep.heapMapInv {L : Layout} {r : FreeRegion} {s s' : Session} {op : HeapOp}
    (hI : HeapMapInv L r s) (hstep : HeapStep L r MayFree.returned s op s') :
    HeapMapInv L r s' := by
  have hinv := hstep.inv hI.inv fun _ ha => ha
  have hpaging := hI.inv.paging
  rcases hstep.cases hI.inv (fun _ ha => ha) with
    ⟨_, -, -, rfl⟩ | ⟨flags, p, _, -, -, hp, rfl⟩ | ⟨a, -, -, ha, rfl⟩
  · exact ⟨hinv, hI.map, hI.kernel⟩
  · exact ⟨hinv, hI.map.mapped hpaging hp flags,
      hI.kernel.mapped hpaging (pageOf_slotAddr_fst hp.1) flags⟩
  · have hfst := hI.inv.returned_fst ha
    exact ⟨hinv, hI.map.unmapped hpaging (ne_of_lt_767 hfst), hI.kernel.unmapped hpaging hfst⟩

theorem heapMapInv_of_run {L : Layout} {r : FreeRegion} {mem : Frame → Index → Word} {h : Heap}
    (hinit : pagingInitialize L (start L mem) = .ok h) {ops : List HeapOp} {s : Session}
    (hrun : Run (HeapStep L r MayFree.returned) (.start h) ops s) : HeapMapInv L r s := by
  have hI := (initialized_of_ok hinit).1
  exact hrun.invariant (fun _ _ _ hstep hI => hstep.heapMapInv hI) hI.heapMapInv

/-- An address below the kernel that is mapped, in numbers. -/
theorem HeapMap.address {r : FreeRegion} {m : Machine} (h : HeapMap r m)
    (hbase : r.mmapFreeMemory.toNat % 4096 = 0)
    (hfit : r.mmapFreeMemory.toNat + r.mmapFreeMemoryLength.toNat ≤ 2 ^ 32) {v : Word}
    {t : PageTranslation} (hv : v.toNat < 0xC0000000) (ht : m.translate (pageOf v) = some t) :
    ∃ p, 4096 * p < r.mmapFreeMemoryLength.toNat ∧ v.toNat / 4096 = p + 1 ∧
      4096 * t.frame.toNat = r.mmapFreeMemory.toNat + 4096 * p := by
  have hfst : (pageOf v).1.toNat < 768 := by
    rw [toNat_pageOf_fst]
    omega
  obtain ⟨p, hp, hpage, hframe⟩ := h _ t hfst ht
  obtain ⟨hlt, -, hlen⟩ := hp
  rw [pageOf_eq_iff, toNat_slotAddr hlt] at hpage
  refine ⟨p, hlen, by omega, ?_⟩
  rw [hframe, toNat_frameOf, FreeRegion.pageAddr, BitVec.toNat_add, BitVec.toNat_ofNat]
  omega

/-- **The heap mapping invariant.**  In every state of every run of calls, whatever the
caller frees, a mapped address below the kernel lies above page 0 and shows the page of
the region one page below it; so mapped pages do not share frames. -/
theorem heap_mapping_invariant {L : Layout} {r : FreeRegion} {mem : Frame → Index → Word}
    {h : Heap} {ops : List HeapOp} {s : Session} (hbase : r.mmapFreeMemory.toNat % 4096 = 0)
    (hlen : r.mmapFreeMemoryLength.toNat % 4096 = 0)
    (hfit : r.mmapFreeMemory.toNat + r.mmapFreeMemoryLength.toNat ≤ 2 ^ 32)
    (hinit : pagingInitialize L (start L mem) = .ok h)
    (hrun : Run (HeapStep L r MayFree.returned) (.start h) ops s) :
    (∀ (v : Word) (t : PageTranslation), v.toNat < 0xC0000000 →
      s.heap.machine.translate (pageOf v) = some t →
        0x1000 ≤ v.toNat ∧
        4096 * t.frame.toNat =
          r.mmapFreeMemory.toNat + (v &&& ~~~0xFFF#32).toNat - 0x1000 ∧
        r.mmapFreeMemory.toNat ≤ 4096 * t.frame.toNat ∧
        4096 * t.frame.toNat + 4096 ≤
          r.mmapFreeMemory.toNat + r.mmapFreeMemoryLength.toNat) ∧
    (∀ (v v' : Word) (t t' : PageTranslation), v.toNat < 0xC0000000 → v'.toNat < 0xC0000000 →
      s.heap.machine.translate (pageOf v) = some t →
      s.heap.machine.translate (pageOf v') = some t' → pageOf v ≠ pageOf v' →
        t.frame ≠ t'.frame) ∧
    ∀ v : Word, v.toNat < 0x1000 → s.heap.machine.translate (pageOf v) = none := by
  have hmap := (heapMapInv_of_run hinit hrun).map
  refine ⟨?_, ?_, ?_⟩
  · intro v t hv ht
    obtain ⟨p, hp, hvp, hframe⟩ := hmap.address hbase hfit hv ht
    rw [toNat_and_not_fff]
    exact ⟨by omega, by omega, by omega, by omega⟩
  · intro v v' t t' hv hv' ht ht' hne hframe
    obtain ⟨p, -, hvp, hp⟩ := hmap.address hbase hfit hv ht
    obtain ⟨p', -, hvp', hp'⟩ := hmap.address hbase hfit hv' ht'
    -- one frame, one page of the region, so one heap page
    rw [hframe] at hp
    exact hne ((pageOf_eq_iff v v').mpr (by omega))
  · intro v hv
    cases ht : s.heap.machine.translate (pageOf v) with
    | none => rfl
    | some t =>
      obtain ⟨p, -, hvp, -⟩ := hmap.address hbase hfit (by omega) ht
      omega

theorem heap_mapping_invariant_sample :
    ∃ h s t, pagingInitialize sampleLayout (start sampleLayout fun _ _ => 0) = .ok h ∧
      Run (HeapStep sampleLayout sampleRegion MayFree.returned) (.start h)
        [.alloc 2 (slotAddr 0)] s ∧
      s.heap.machine.translate (pageOf 0x1234) = some t ∧ 4096 * t.frame.toNat = 0x00400000 := by
  obtain ⟨h, hinit, hI, hbitmap⟩ := pagingInitialize_spec sampleLayout fun _ _ => 0
  have hrun : Run (HeapStep sampleLayout sampleRegion MayFree.returned) (.start h)
      [.alloc 2 (slotAddr 0)] _ := .single (.first_alloc hI.pagingInv hbitmap (by decide) 2)
  have ht := translate_mapped hI.pagingInv (v := slotAddr 0) (by decide) (Or.inr (by decide))
    (sampleRegion.pageAddr 0) 2 (pageOf 0x1234)
  rw [if_pos (by decide)] at ht
  refine ⟨h, _, _, hinit, hrun, ht, ?_⟩
  exact ((heap_mapping_invariant (by decide) (by decide) (by decide) hinit hrun).1 0x1234 _
    (by decide) ht).2.1

/-- **The kernel window stays intact.**  The boot directory and the kernel's own take
every address of the window to `KERNEL_TO_PHYS` of it, and so does every state of every
run of calls; slot 1023 keeps pointing to the directory, and no directory slot or table
entry of the kernel is ever open to the user. -/
theorem kernel_window_intact {L : Layout} {mem : Frame → Index → Word} {h : Heap}
    (hinit : pagingInitialize L (start L mem) = .ok h) :
    (∀ v : Word, 0xC0000000 ≤ v.toNat → v.toNat < 0xC0800000 →
      (start L mem).walk v = some (kernelToPhys v) ∧
        h.machine.walk v = some (kernelToPhys v)) ∧
    ∀ (r : FreeRegion) (ops : List HeapOp) (s : Session),
      Run (HeapStep L r MayFree.returned) (.start h) ops s →
        (∀ v : Word, 0xC0000000 ≤ v.toNat → v.toNat < 0xC0800000 →
          s.heap.machine.walk v = some (kernelToPhys v)) ∧
        frameOf s.heap.machine.cr3 = imageFrame L.pageDirectory ∧
        s.heap.machine.mem (imageFrame L.pageDirectory) 1023#10 = kernelEntry L.pageDirectory ∧
        (∀ i ∈ [768#10, 769#10, 1023#10],
          (s.heap.machine.mem (imageFrame L.pageDirectory) i).getLsbD 2 = false) ∧
        ∀ k, k < kernelPageTablesSize → ∀ j : Index,
          (s.heap.machine.mem (imageFrame (L.kernelPageTables + k)) j).getLsbD 2 = false := by
  refine ⟨fun v hlo hhi => boot_and_kernel_window_agree hinit hlo hhi, ?_⟩
  intro r ops s hrun
  have hI := heapMapInv_of_run hinit hrun
  have hpaging := hI.inv.paging
  have huser : ∀ (i : Index) (t : ℕ), 768 ≤ i.toNat → slotPage L i = some t →
      (s.heap.machine.mem (imageFrame L.pageDirectory) i).getLsbD 2 = false := by
    intro i t hi ht
    rw [hpaging.kernel i t hi ht, slotEntry_user, decide_eq_false (by omega)]
  refine ⟨fun v hlo hhi => (hI.kernel.kernelWindow hpaging).walk hlo hhi, hpaging.cr3,
    hpaging.self, ?_, ?_⟩
  · intro i hi
    simp only [List.mem_cons, List.not_mem_nil, or_false] at hi
    rcases hi with rfl | rfl | rfl
    · exact huser _ _ (by decide) rfl
    · exact huser _ _ (by decide) rfl
    · exact huser _ _ (by decide) rfl
  · intro k hk j
    rw [hI.kernel k hk j, getLsbD_kernelEntry _ (by omega)]
    rfl

theorem kernel_window_intact_sample :
    ∃ h s, pagingInitialize sampleLayout (start sampleLayout fun _ _ => 0) = .ok h ∧
      Run (HeapStep sampleLayout sampleRegion MayFree.returned) (.start h)
        [.alloc 2 (slotAddr 0)] s ∧
      (start sampleLayout fun _ _ => 0).walk 0xC0100ABC = some 0x00100ABC ∧
      h.machine.walk 0xC0100ABC = some 0x00100ABC ∧
      s.heap.machine.walk 0xC0100ABC = some 0x00100ABC := by
  obtain ⟨h, hinit, hI, hbitmap⟩ := pagingInitialize_spec sampleLayout fun _ _ => 0
  have hrun : Run (HeapStep sampleLayout sampleRegion MayFree.returned) (.start h)
      [.alloc 2 (slotAddr 0)] _ := .single (.first_alloc hI.pagingInv hbitmap (by decide) 2)
  have hboot := (kernel_window_intact hinit).1 0xC0100ABC (by decide) (by decide)
  have hcalls := ((kernel_window_intact hinit).2 _ _ _ hrun).1 0xC0100ABC (by decide) (by decide)
  exact ⟨h, _, hinit, hrun, hboot.1, hboot.2, hcalls⟩

/-! ### What `get_physical_address` returns -/

/-- The physical address of a translation is 0 in frame 0 only. -/
theorem frame_eq_zero_of_walk {m : Machine} {v : Word} (h : m.walk v = some null) :
    ∃ t, m.translate (pageOf v) = some t ∧ t.frame = 0 := by
  rw [Machine.walk, Option.map_eq_some_iff] at h
  obtain ⟨t, ht, hnull⟩ := h
  refine ⟨t, ht, ?_⟩
  have hf := frameOf_append_offset t.frame (offsetOf v)
  rw [hnull] at hf
  exact hf.symm

theorem imageFrame_ne_zero {k : ℕ} (hlo : 0 < k) (hhi : k < 2048) : imageFrame k ≠ 0 := by
  intro h
  have heq : k = 0 := imageFrame_inj hhi (by omega) h
  omega

/-- A table of a directory slot is not in page 0 when no object of the image is. -/
theorem slotPage_pos {L : Layout} (hL : ∀ o ∈ L.toPlacement.objects, 0 < o.1) {i : Index}
    {k : ℕ} (h : slotPage L i = some k) : 0 < k := by
  simp only [Placement.objects, List.forall_mem_cons] at hL
  unfold slotPage at h
  split_ifs at h <;> simp only [Option.some.injEq] at h <;> omega

/-- Above the kernel window only the recursive window is mapped. -/
theorem PagingInv.fst_eq_of_translate (h : PagingInv L m) {q : Page} {t : PageTranslation}
    (hq : 770 ≤ q.1.toNat) (ht : m.translate q = some t) : q.1 = 1023#10 := by
  have hslot : (m.mem (imageFrame L.pageDirectory) q.1).getLsbD 0 = true := by
    cases hp : (m.mem (imageFrame L.pageDirectory) q.1).getLsbD 0 with
    | true => rfl
    | false => exact absurd ht (by rw [h.translate_absent hp]; simp)
  obtain ⟨k, hk, -⟩ := h.present hslot
  apply BitVec.eq_of_toNat_eq
  unfold slotPage at hk
  split_ifs at hk with h1 h2 h3 h4
  · omega
  · omega
  · omega
  · exact h4

/-- The recursive window shows the tables, which are objects of the image. -/
theorem PagingInv.frame_ne_zero_of_window (h : PagingInv L m)
    (hL : ∀ o ∈ L.toPlacement.objects, 0 < o.1) {i : Index} {t : PageTranslation}
    (ht : m.translate (1023#10, i) = some t) : t.frame ≠ 0 := by
  rw [h.translate_window] at ht
  split at ht
  · next hp =>
    obtain ⟨k, hk, hent⟩ := h.present hp
    rw [hent, frameOf_slotEntry] at ht
    obtain rfl := Option.some.inj ht
    exact imageFrame_ne_zero (slotPage_pos hL hk) (slotPage_lt hk)
  · exact absurd ht (by simp)

/-- When neither the free region nor the image has page 0, one address shows it. -/
theorem HeapMapInv.walk_eq_null {L : Layout} {r : FreeRegion} {s : Session}
    (hI : HeapMapInv L r s) (hL : ∀ o ∈ L.toPlacement.objects, 0 < o.1)
    (hpos : 0 < r.mmapFreeMemory.toNat) (hbase : r.mmapFreeMemory.toNat % 4096 = 0)
    (hfit : r.mmapFreeMemory.toNat + r.mmapFreeMemoryLength.toNat ≤ 2 ^ 32) {v : Word}
    (hv : s.heap.machine.walk v = some null) : v = 0xC0000000 := by
  have hpaging := hI.inv.paging
  obtain ⟨t, ht, hzero⟩ := frame_eq_zero_of_walk hv
  have hfst := toNat_pageOf_fst v
  rcases Nat.lt_or_ge v.toNat 0xC0000000 with hlow | hlow
  · -- a heap page shows its page of the region
    obtain ⟨p, -, -, hframe⟩ := hI.map.address hbase hfit hlow ht
    rw [hzero] at hframe
    exact absurd hframe (by simp; omega)
  rcases Nat.lt_or_ge v.toNat 0xC0800000 with hwin | hwin
  · have hwalk := (hI.kernel.kernelWindow hpaging).walk hlow hwin
    rw [hv, Option.some_inj, kernelToPhys] at hwalk
    exact (BitVec.sub_eq_iff_eq_add.mp hwalk.symm).trans (by decide)
  -- what is left is the recursive window
  have h1023 := hpaging.fst_eq_of_translate (by omega) ht
  rw [← Prod.mk.eta (p := pageOf v), h1023] at ht
  exact absurd hzero (hpaging.frame_ne_zero_of_window hL ht)

/-- **`get_physical_address` against the walk.**  In every state of every run of calls it
returns what the walk yields, and `NULL` where the walk faults; so `NULL` also stands for
physical address 0.  The address `0xC0000000` is always mapped to it, and no other is when
the directory and the tables lie above page 0, and the free region is made of pages between
page 0 and 4 GiB. -/
theorem get_physical_address_null_iff {L : Layout} {r : FreeRegion}
    {mem : Frame → Index → Word} {h : Heap} {ops : List HeapOp} {s : Session}
    (hinit : pagingInitialize L (start L mem) = .ok h)
    (hrun : Run (HeapStep L r MayFree.returned) (.start h) ops s) :
    (∀ v : Word, ∃ a, (getPhysicalAddress v).run mmu s.heap.machine = .ok (a, s.heap.machine) ∧
      (a = null ↔ s.heap.machine.walk v = none ∨ s.heap.machine.walk v = some null) ∧
      ∀ b, s.heap.machine.walk v = some b → a = b) ∧
    s.heap.machine.walk 0xC0000000 = some null ∧
    ((∀ o ∈ L.toPlacement.objects, 0 < o.1) → 0 < r.mmapFreeMemory.toNat →
      r.mmapFreeMemory.toNat % 4096 = 0 →
      r.mmapFreeMemory.toNat + r.mmapFreeMemoryLength.toNat ≤ 2 ^ 32 →
        ∀ v, s.heap.machine.walk v = some null → v = 0xC0000000) := by
  have hI := heapMapInv_of_run hinit hrun
  refine ⟨fun v => ⟨_, run_getPhysicalAddress hI.inv.paging v, ?_, ?_⟩, ?_, ?_⟩
  · cases hw : s.heap.machine.walk v with
    | none => simp
    | some b => simp
  · intro b hb
    rw [hb, Option.getD_some]
  · exact (hI.kernel.kernelWindow hI.inv.paging).walk (by decide) (by decide)
  · exact fun hL hpos hbase hfit v hv => hI.walk_eq_null hL hpos hbase hfit hv

theorem get_physical_address_null_iff_sample :
    ∃ h s, pagingInitialize sampleLayout (start sampleLayout fun _ _ => 0) = .ok h ∧
      Run (HeapStep sampleLayout sampleRegion MayFree.returned) (.start h)
        [.alloc 2 (slotAddr 0)] s ∧
      (getPhysicalAddress 0x1234).run mmu s.heap.machine = .ok (0x00400234, s.heap.machine) ∧
      ∀ v, s.heap.machine.walk v = some null → v = 0xC0000000 := by
  obtain ⟨h, hinit, hI, hbitmap⟩ := pagingInitialize_spec sampleLayout fun _ _ => 0
  have hrun : Run (HeapStep sampleLayout sampleRegion MayFree.returned) (.start h)
      [.alloc 2 (slotAddr 0)] _ := .single (.first_alloc hI.pagingInv hbitmap (by decide) 2)
  have ht := translate_mapped hI.pagingInv (v := slotAddr 0) (by decide) (Or.inr (by decide))
    (sampleRegion.pageAddr 0) 2 (pageOf 0x1234)
  rw [if_pos (by decide)] at ht
  obtain ⟨hreads, -, honly⟩ := get_physical_address_null_iff hinit hrun
  obtain ⟨a, hcall, -, hwalk⟩ := hreads 0x1234
  have ha : a = 0x00400234 := hwalk _
    ((congrArg (Option.map fun t : PageTranslation => t.frame ++ offsetOf 0x1234) ht).trans rfl)
  exact ⟨h, _, hinit, hrun, ha ▸ hcall,
    honly (by decide) (by decide) (by decide) (by decide)⟩

/-- At the first address of the kernel window the walk does not fault, and yet
`get_physical_address` returns `NULL`. -/
theorem get_physical_address_of_page_zero :
    ∃ h s, pagingInitialize sampleLayout (start sampleLayout fun _ _ => 0) = .ok h ∧
      Run (HeapStep sampleLayout sampleRegion MayFree.returned) (.start h) [] s ∧
      s.heap.machine.walk 0xC0000000 = some null ∧
      (getPhysicalAddress 0xC0000000).run mmu s.heap.machine = .ok (null, s.heap.machine) ∧
      ¬ ((getPhysicalAddress 0xC0000000).run mmu s.heap.machine = .ok (null, s.heap.machine) ↔
        s.heap.machine.walk 0xC0000000 = none) := by
  obtain ⟨h, hinit, hI, -⟩ := pagingInitialize_spec sampleLayout fun _ _ => 0
  have hwalk : h.machine.walk 0xC0000000 = some null :=
    boot_and_kernel_window_agree hinit (by decide) (by decide) |>.2
  have hrun := run_getPhysicalAddress hI.pagingInv 0xC0000000
  rw [hwalk, Option.getD_some] at hrun
  refine ⟨h, _, hinit, .nil _, hwalk, hrun, fun hiff => ?_⟩
  exact absurd (hwalk.symm.trans (hiff.mp hrun)) (by simp)

end MVK
