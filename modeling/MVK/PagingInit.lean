import MVK.Boot

/-!
# Building the kernel's tables

`paging_initialize` runs under the boot mapping: every store it makes goes through
the boot tables to the kernel image.  Its loops are followed word by word, and what
they leave is the mapping of the window in tables of the kernel's own, beside an
empty heap.

## Main definitions

* `Initialized L m` — the tables `paging_initialize` leaves.

## Main results

* `pagingInitialize_spec`, `initialized_of_ok` — `paging_initialize` succeeds and leaves
  such tables.
* `boot_and_kernel_window_agree` — **the two mappings of the window agree.**
-/

namespace MVK

open SelfMap Translation Translation.Prog

/-- The words from `lo` up to `hi` hold none of the three tables of a window. -/
def ClearOf (dir t1 t2 lo hi : ℕ) : Prop :=
  ∀ b, b = dir ∨ b = t1 ∨ b = t2 → b < 2048 ∧ (1024 * b + 1024 ≤ lo ∨ hi ≤ 1024 * b)

/-- A store clear of the window's tables keeps them. -/
theorem WindowTables.setNum_of_clearOf {m : Machine} {dir t1 t2 lo hi : ℕ}
    (h : WindowTables m dir t1 t2) (hclear : ClearOf dir t1 t2 lo hi) {n : ℕ} (hn : n < 2 ^ 30)
    (hlo : lo ≤ n) (hhi : n < hi) (w : Word) : WindowTables (m.setNum n w) dir t1 t2 := by
  have hd := hclear dir (Or.inl rfl)
  have h1 := hclear t1 (Or.inr (Or.inl rfl))
  have h2 := hclear t2 (Or.inr (Or.inr rfl))
  exact h.setNum hd.1 h1.1 h2.1 hn (by omega) (by omega) (by omega) w

theorem ClearOf.mono {dir t1 t2 lo hi lo' hi' : ℕ} (h : ClearOf dir t1 t2 lo hi)
    (hlo : lo ≤ lo') (hhi : hi' ≤ hi) : ClearOf dir t1 t2 lo' hi' := by
  intro b hb
  obtain ⟨hb', hor⟩ := h b hb
  exact ⟨hb', by omega⟩

/-- `m'` is `m` with the words from `lo` up to `hi` replaced by those of `f`. -/
def Patched (m m' : Machine) (lo hi : ℕ) (f : ℕ → Word) : Prop :=
  ∀ x, x < 2 ^ 30 → wordAt m'.mem x = if lo ≤ x ∧ x < hi then f x else wordAt m.mem x

theorem Patched.refl (m : Machine) (lo : ℕ) (f : ℕ → Word) : Patched m m lo lo f := by
  intro x _
  rw [if_neg (by omega)]

/-- One more store at the end of the replaced words. -/
theorem Patched.snoc {m m' : Machine} {lo hi : ℕ} {f : ℕ → Word} (h : Patched m m' lo hi f)
    (hlo : lo ≤ hi) (hhi : hi < 2 ^ 30) : Patched m (m'.setNum hi (f hi)) lo (hi + 1) f := by
  intro x hx
  rw [m'.wordAt_setNum hhi hx, h x hx]
  by_cases hxhi : x = hi
  · rw [if_pos hxhi, if_pos (by omega), hxhi]
  · rw [if_neg hxhi]
    by_cases hin : lo ≤ x ∧ x < hi
    · rw [if_pos hin, if_pos (by omega)]
    · rw [if_neg hin, if_neg (by omega)]

section Loops

variable {m : Machine} {dir t1 t2 : ℕ}

/-- **A filling loop**: pass `i` stores to word `i` of the image from page `k` on.  `R`
says what the accumulator is on entry to a pass. -/
theorem run_fillLoop {σ : Type} (val : σ → Word) (next : σ → σ) (f : ℕ → Word)
    (R : ℕ → σ → Prop) {k n : ℕ}
    (hR : ∀ i s, i < n → R i s → val s = f (1024 * k + i) ∧ R (i + 1) (next s))
    (hwin : WindowTables m dir t1 t2) (hkn : 1024 * k + n ≤ 2097152)
    (hclear : ClearOf dir t1 t2 (1024 * k) (1024 * k + n)) {s : σ} (hs : R 0 s) :
    ∃ s' m', (loop (fun i s => do
        write (imageAddr k + 4 * BitVec.ofNat 32 i) (val s)
        return next s) n s).run mmu m = .ok (s', m') ∧ R n s' ∧ WindowTables m' dir t1 t2 ∧
      Patched m m' (1024 * k) (1024 * k + n) f := by
  -- the window stays mapped throughout, so each store goes where it is meant to
  refine run_loop (fun i s m' => R i s ∧ WindowTables m' dir t1 t2 ∧
    Patched m m' (1024 * k) (1024 * k + i) f) ?_ ⟨hs, hwin, Patched.refl m _ f⟩
  rintro i s₁ m₁ hi ⟨hs₁, hwin₁, hpatch⟩
  obtain ⟨hval, hnext⟩ := hR i s₁ hi hs₁
  refine ⟨next s₁, m₁.setNum (1024 * k + i) (f (1024 * k + i)), ?_, hnext, ?_, ?_⟩
  · rw [hval]
    exact run_store_image hwin₁.kernelWindow (by omega) _ (.pure (next s₁))
  · exact hwin₁.setNum_of_clearOf hclear (by omega) (by omega) (by omega) _
  · exact hpatch.snoc (by omega) (by omega)

/-- `memset` zeroes its words and nothing else. -/
theorem run_memsetZero (hwin : WindowTables m dir t1 t2) {k n : ℕ} (hkn : 1024 * k + n ≤ 2097152)
    (hclear : ClearOf dir t1 t2 (1024 * k) (1024 * k + n)) :
    ∃ m', (memsetZero (imageAddr k) n).run mmu m = .ok ((), m') ∧ WindowTables m' dir t1 t2 ∧
      Patched m m' (1024 * k) (1024 * k + n) fun _ => 0 := by
  obtain ⟨_, m', hrun, -, hinv⟩ := run_fillLoop (fun (_ : Unit) => 0) id (fun _ => 0)
    (fun _ _ => True) (fun _ _ _ _ => ⟨rfl, trivial⟩) hwin hkn hclear trivial
  exact ⟨m', hrun, hinv⟩

/-- One kernel page table: entry `j` maps page `c + j`. -/
theorem run_fillKernelTable (hwin : WindowTables m dir t1 t2) {t c : ℕ} (ht : t < 2048)
    (hc : c + 1024 ≤ 2048) (hclear : ClearOf dir t1 t2 (1024 * t) (1024 * t + 1024))
    {ca : Word} (hca : ca.toNat = c) :
    ∃ ca' m', (fillKernelTable (imageAddr t) ca).run mmu m = .ok (ca', m') ∧
      ca'.toNat = c + 1024 ∧ WindowTables m' dir t1 t2 ∧
      Patched m m' (1024 * t) (1024 * t + 1024) fun x => kernelEntry (c + (x - 1024 * t)) := by
  refine run_fillLoop _ _ _ (fun j (ca : Word) => ca.toNat = c + j)
    (fun j ca₁ hj hca₁ => ⟨?_, ?_⟩) hwin (by omega) hclear hca
  · rw [BitVec.or_assoc, Nat.add_sub_cancel_left]
    refine or_eq_tableWord ?_ 0x003
    simp only [BitVec.toNat_mul, hca₁, pageSize, BitVec.ofNat_eq_ofNat, BitVec.toNat_ofNat]
    omega
  · simp only [BitVec.toNat_add, hca₁, BitVec.ofNat_eq_ofNat, BitVec.toNat_ofNat]
    omega

end Loops

/-- The tables `paging_initialize` leaves, word by word. -/
structure Initialized (L : Layout) (m : Machine) : Prop where
  cr3 : frameOf m.cr3 = imageFrame L.pageDirectory
  dir : ∀ j, j < 1024 → wordAt m.mem (1024 * L.pageDirectory + j) =
    if j = 768 then kernelEntry L.kernelPageTables
    else if j = 769 then kernelEntry (L.kernelPageTables + 1)
    else if j = 1023 then kernelEntry L.pageDirectory else 0
  kernel : ∀ j, j < 2048 → wordAt m.mem (1024 * L.kernelPageTables + j) = kernelEntry j
  free : ∀ j, j < 785408 → wordAt m.mem (1024 * L.freePageTables + j) = 0

theorem Initialized.windowTables {L : Layout} {m : Machine} (h : Initialized L m) :
    WindowTables m L.pageDirectory L.kernelPageTables (L.kernelPageTables + 1) where
  cr3 := h.cr3
  slot1 := by rw [h.dir 768 (by omega), if_pos rfl]
  slot2 := by rw [h.dir 769 (by omega), if_neg (by omega), if_pos rfl]
  table1 j hj := h.kernel j (by omega)
  table2 j hj := by
    have hk := h.kernel (1024 + j) (by omega)
    rwa [show 1024 * L.kernelPageTables + (1024 + j) = 1024 * (L.kernelPageTables + 1) + j
      by omega] at hk

theorem imageAddr_add_pageSize_mul {k i : ℕ} :
    imageAddr k + pageSize * BitVec.ofNat 32 i = imageAddr (k + i) := by
  apply BitVec.eq_of_toNat_eq
  simp only [imageAddr, pageSize, BitVec.toNat_add, BitVec.toNat_mul, BitVec.toNat_ofNat,
    BitVec.ofNat_eq_ofNat]
  omega

/-- The entry for an image page, as the source builds it. -/
theorem kernelToPhys_or_flags {k : ℕ} (hk : k < 2048) :
    kernelToPhys (imageAddr k) ||| pageFlagPresent ||| pageFlagWritable = kernelEntry k := by
  rw [BitVec.or_assoc]
  exact or_eq_tableWord (toNat_kernelToPhys_imageAddr hk) 0x003

/-- After `i` passes over the kernel page tables: their words, and the slots for them. -/
def KernelTablesUpTo (L : Layout) (m m' : Machine) (i : ℕ) : Prop :=
  ∀ x, x < 2 ^ 30 → wordAt m'.mem x =
    if 1024 * L.pageDirectory + 768 ≤ x ∧ x < 1024 * L.pageDirectory + (768 + i) then
      kernelEntry (L.kernelPageTables + (x - (1024 * L.pageDirectory + 768)))
    else if 1024 * L.kernelPageTables ≤ x ∧ x < 1024 * (L.kernelPageTables + i) then
      kernelEntry (x - 1024 * L.kernelPageTables)
    else wordAt m.mem x

/-- One more table, and its slot. -/
theorem KernelTablesUpTo.succ {L : Layout} {m m₁ m₂ : Machine} {i : ℕ} (hi : i < 2)
    (h : KernelTablesUpTo L m m₁ i)
    (hfill : Patched m₁ m₂ (1024 * (L.kernelPageTables + i))
      (1024 * (L.kernelPageTables + i) + 1024)
      fun x => kernelEntry (1024 * i + (x - 1024 * (L.kernelPageTables + i)))) :
    KernelTablesUpTo L m (m₂.setNum (1024 * L.pageDirectory + (768 + i))
      (kernelEntry (L.kernelPageTables + i))) (i + 1) := by
  obtain ⟨⟨-, -, -, hpdlt, hkptlt, -⟩, -, -, hapart, -⟩ := L.facts
  have hsep := (hapart L.pageDirectory (by simp)).1
  intro x hx
  rw [m₂.wordAt_setNum (by omega) hx, hfill x hx, h x hx]
  -- the new slot, the new table, an old slot, an old table, or neither
  by_cases hslot : x = 1024 * L.pageDirectory + (768 + i)
  · rw [if_pos hslot, if_pos (by omega),
      show x - (1024 * L.pageDirectory + 768) = i by omega]
  · rw [if_neg hslot]
    by_cases htab : 1024 * (L.kernelPageTables + i) ≤ x ∧
        x < 1024 * (L.kernelPageTables + i) + 1024
    · rw [if_pos htab, if_neg (by omega), if_pos (by omega)]
      dsimp only
      rw [show 1024 * i + (x - 1024 * (L.kernelPageTables + i)) = x - 1024 * L.kernelPageTables
        by omega]
    · rw [if_neg htab]
      by_cases hold : 1024 * L.pageDirectory + 768 ≤ x ∧ x < 1024 * L.pageDirectory + (768 + i)
      · rw [if_pos hold, if_pos (by omega)]
      · rw [if_neg hold]
        by_cases hin : 1024 * L.kernelPageTables ≤ x ∧ x < 1024 * (L.kernelPageTables + i)
        · rw [if_pos hin, if_neg (by omega), if_pos (by omega)]
        · rw [if_neg hin, if_neg (by omega), if_neg (by omega)]

/-- The loop over the kernel page tables. -/
theorem run_kernelTables {L : Layout} {m : Machine} {dir t1 t2 : ℕ}
    (hwin : WindowTables m dir t1 t2) (hpd : ClearOf dir t1 t2 (1024 * L.pageDirectory)
      (1024 * L.pageDirectory + 1024))
    (hkpt : ClearOf dir t1 t2 (1024 * L.kernelPageTables) (1024 * L.kernelPageTables + 2048)) :
    ∃ ca m', (loop (fun i current_address => do
        let table := imageAddr L.kernelPageTables + pageSize * BitVec.ofNat 32 i
        let current_address ← fillKernelTable table current_address
        write (imageAddr L.pageDirectory + 4 * BitVec.ofNat 32 (kernelPageDirectoryStart + i))
          (kernelToPhys table ||| pageFlagPresent ||| pageFlagWritable)
        return current_address) kernelPageTablesSize 0).run mmu m = .ok (ca, m') ∧
      ca.toNat = 1024 * kernelPageTablesSize ∧ WindowTables m' dir t1 t2 ∧
      KernelTablesUpTo L m m' kernelPageTablesSize := by
  obtain ⟨⟨-, -, -, hpdlt, hkptlt, -⟩, -⟩ := L.facts
  refine run_loop (fun i (ca : Word) m' => ca.toNat = 1024 * i ∧ WindowTables m' dir t1 t2 ∧
    KernelTablesUpTo L m m' i) ?_ ⟨rfl, hwin, ?_⟩
  · rintro i ca₁ m₁ hi ⟨hca₁, hwin₁, hmem₁⟩
    have hi2 : i < 2 := hi
    obtain ⟨ca₂, m₂, hrun₂, hca₂, hwin₂, hmem₂⟩ := run_fillKernelTable hwin₁
      (t := L.kernelPageTables + i) (c := 1024 * i) (by omega) (by omega)
      (hkpt.mono (by omega) (by omega)) hca₁
    refine ⟨ca₂, m₂.setNum (1024 * L.pageDirectory + (768 + i))
      (kernelEntry (L.kernelPageTables + i)), ?_, by omega, ?_, hmem₁.succ hi2 hmem₂⟩
    · simp only [imageAddr_add_pageSize_mul, kernelToPhys_or_flags
        (show L.kernelPageTables + i < 2048 by omega), kernelPageDirectoryStart_eq]
      rw [run_bind_ok hrun₂]
      exact run_store_image hwin₂.kernelWindow (by omega) _ (.pure ca₂)
    · exact hwin₂.setNum_of_clearOf hpd (by omega) (by omega) (by omega) _
  · intro x _
    rw [if_neg (by omega), if_neg (by omega)]

/-- The boot tables are clear of what `paging_initialize` stores to. -/
theorem Layout.clearOf (L : Layout) :
    ClearOf L.bootPageDirectory L.bootPageTable1 L.bootPageTable2 (1024 * L.pageDirectory)
      (1024 * L.pageDirectory + 1024) ∧
    ClearOf L.bootPageDirectory L.bootPageTable1 L.bootPageTable2 (1024 * L.kernelPageTables)
      (1024 * L.kernelPageTables + 2048) ∧
    ClearOf L.bootPageDirectory L.bootPageTable1 L.bootPageTable2 (1024 * L.freePageTables)
      (1024 * L.freePageTables + freePageTablesSize * 1024) := by
  obtain ⟨hlt, -, hpd, hapart, -⟩ := L.facts
  rw [freePageTablesSize_eq]
  refine ⟨?_, ?_, ?_⟩
  · intro b hb
    rcases hb with rfl | rfl | rfl <;> exact ⟨by omega, by omega⟩
  · intro b hb
    have hb' := (hapart b (by tauto)).1
    rcases hb with rfl | rfl | rfl <;> exact ⟨by omega, by omega⟩
  · intro b hb
    have hb' := (hapart b (by tauto)).2
    rcases hb with rfl | rfl | rfl <;> exact ⟨by omega, by omega⟩

/-- `paging_initialize` up to `load_page_directory`, run under the boot mapping. -/
theorem run_initializeTables (L : Layout) (mem : Frame → Index → Word) :
    ∃ m', (initializeTables L).run mmu (start L mem) = .ok ((), m') ∧
      (∀ j, j < 1024 → wordAt m'.mem (1024 * L.pageDirectory + j) =
        if j = 768 then kernelEntry L.kernelPageTables
        else if j = 769 then kernelEntry (L.kernelPageTables + 1)
        else if j = 1023 then kernelEntry L.pageDirectory else 0) ∧
      (∀ j, j < 2048 → wordAt m'.mem (1024 * L.kernelPageTables + j) = kernelEntry j) ∧
      ∀ j, j < 785408 → wordAt m'.mem (1024 * L.freePageTables + j) = 0 := by
  obtain ⟨⟨-, -, -, hpdlt, hkptlt, hfptlt⟩, -, -, hapart, hkf⟩ := L.facts
  have hsepk := (hapart L.pageDirectory (by simp)).1
  have hsepf := (hapart L.pageDirectory (by simp)).2
  obtain ⟨hcpd, hckpt, hcfpt⟩ := L.clearOf
  obtain ⟨m₁, hrun₁, hwin₁, hmem₁⟩ := run_memsetZero (start_windowTables L mem)
    (k := L.pageDirectory) (n := 1024) (by omega) hcpd
  obtain ⟨ca, m₂, hrun₂, -, hwin₂, hmem₂⟩ := run_kernelTables hwin₁ hcpd hckpt
  obtain ⟨m₃, hrun₃, hwin₃, hmem₃⟩ := run_memsetZero hwin₂ (k := L.freePageTables)
    (n := freePageTablesSize * 1024) (by rw [freePageTablesSize_eq]; omega) hcfpt
  rw [freePageTablesSize_eq] at hmem₃
  rw [kernelPageTablesSize] at hmem₂
  -- the last store, to slot 1023, on top of the three passes
  have hword : ∀ x, x < 2 ^ 30 →
      wordAt (m₃.setNum (1024 * L.pageDirectory + 1023) (kernelEntry L.pageDirectory)).mem x =
        if x = 1024 * L.pageDirectory + 1023 then kernelEntry L.pageDirectory
        else wordAt m₃.mem x := fun x hx => m₃.wordAt_setNum (by omega) hx _
  refine ⟨m₃.setNum (1024 * L.pageDirectory + 1023) (kernelEntry L.pageDirectory), ?_,
    ?_, ?_, ?_⟩
  · refine (run_bind_ok hrun₁ _).trans ((run_bind_ok hrun₂ _).trans ?_)
    refine (run_bind_ok hrun₃ _).trans ?_
    rw [kernelToPhys_or_flags hpdlt]
    exact run_store_image hwin₃.kernelWindow (i := 1023) (by omega) _ (.pure ())
  · intro j hj
    rw [hword _ (by omega), hmem₃ _ (by omega), hmem₂ _ (by omega), hmem₁ _ (by omega)]
    by_cases h1023 : j = 1023
    · rw [if_pos (by omega), if_neg (by omega), if_neg (by omega), if_pos h1023]
    · rw [if_neg (by omega), if_neg (by omega)]
      by_cases h768 : j = 768
      · rw [if_pos (by omega), if_pos h768, h768, Nat.sub_self, Nat.add_zero]
      · by_cases h769 : j = 769
        · rw [if_pos (by omega), if_neg h768, if_pos h769, h769,
            show 1024 * L.pageDirectory + 769 - (1024 * L.pageDirectory + 768) = 1 by omega]
        · rw [if_neg (by omega), if_neg (by omega), if_pos (by omega), if_neg h768, if_neg h769,
            if_neg h1023]
  · intro j hj
    rw [hword _ (by omega), if_neg (by omega), hmem₃ _ (by omega), if_neg (by omega),
      hmem₂ _ (by omega), if_neg (by omega), if_pos (by omega), Nat.add_sub_cancel_left]
  · intro j hj
    rw [hword _ (by omega), if_neg (by omega), hmem₃ _ (by omega), if_pos (by omega)]

/-- **`paging_initialize` succeeds**, with the kernel's tables and an empty bitmap. -/
theorem pagingInitialize_spec (L : Layout) (mem : Frame → Index → Word) :
    ∃ h, pagingInitialize L (start L mem) = .ok h ∧ Initialized L h.machine ∧
      h.pageBitmap = fun _ => 0 := by
  obtain ⟨m', hrun, hdir, hkernel, hfree⟩ := run_initializeTables L mem
  refine ⟨⟨{ m' with cr3 := kernelToPhys (imageAddr L.pageDirectory) }, fun _ => 0⟩, ?_,
    ⟨?_, hdir, hkernel, hfree⟩, rfl⟩
  · rw [pagingInitialize, hrun]
    rfl
  · apply BitVec.eq_of_toNat_eq
    have hlt := L.facts.1.2.2.2.1
    rw [toNat_frameOf, toNat_kernelToPhys_imageAddr hlt, imageFrame, BitVec.toNat_ofNat]
    omega

/-- What `paging_initialize` leaves, whenever it returns. -/
theorem initialized_of_ok {L : Layout} {mem : Frame → Index → Word} {h : Heap}
    (hinit : pagingInitialize L (start L mem) = .ok h) :
    Initialized L h.machine ∧ h.pageBitmap = fun _ => 0 := by
  obtain ⟨h', hinit', hspec⟩ := pagingInitialize_spec L mem
  obtain rfl := Except.ok.inj (hinit'.symm.trans hinit)
  exact hspec

/-- **The two mappings of the window agree**: each takes `v` to `KERNEL_TO_PHYS(v)`. -/
theorem boot_and_kernel_window_agree {L : Layout} {mem : Frame → Index → Word} {h : Heap}
    (hinit : pagingInitialize L (start L mem) = .ok h) {v : Word} (hlo : 0xC0000000 ≤ v.toNat)
    (hhi : v.toNat < 0xC0800000) :
    (start L mem).walk v = some (kernelToPhys v) ∧ h.machine.walk v = some (kernelToPhys v) := by
  have hI := (initialized_of_ok hinit).1
  exact ⟨(start_windowTables L mem).kernelWindow.walk hlo hhi,
    hI.windowTables.kernelWindow.walk hlo hhi⟩

end MVK
