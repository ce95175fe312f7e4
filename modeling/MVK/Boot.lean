import MVK.Paging

/-!
# The boot mapping

The boot code fills two page tables that map the kernel's 8 MiB window
`[0xC0000000, 0xC0800000)` onto the first 8 MiB of physical memory, and the kernel
rebuilds the same mapping in tables of its own.  Both are read here through one
view of physical memory, as a sequence of numbered words: frame `f`, index `j` is
word `1024 * f + j`.

## Main definitions

* `wordAt` — physical memory as numbered words.
* `tableWord` — a table entry, from its frame and its flags.
* `WindowTables` — a directory and two tables that map the window.
* `KernelWindow` — the window is mapped, linearly, for the supervisor.

## Main results

* `WindowTables.kernelWindow` — the tables map the window.
* `start_windowTables` — **the boot code builds such tables.**
* `run_store_image` — a store to the image, through the window.
-/

namespace MVK

open SelfMap Translation Translation.Prog

/-! ### Numbered words -/

/-- Word `n` of physical memory. -/
def wordAt (mem : Frame → Index → Word) (n : ℕ) : Word :=
  mem (BitVec.ofNat 20 (n / 1024)) (BitVec.ofNat 10 (n % 1024))

theorem mem_eq_wordAt (mem : Frame → Index → Word) (f : Frame) (j : Index) :
    mem f j = wordAt mem (1024 * f.toNat + j.toNat) := by
  have hj := j.isLt
  rw [wordAt, show (1024 * f.toNat + j.toNat) / 1024 = f.toNat by omega,
    show (1024 * f.toNat + j.toNat) % 1024 = j.toNat by omega, BitVec.ofNat_toNat,
    BitVec.ofNat_toNat, BitVec.setWidth_eq, BitVec.setWidth_eq]

/-- A frame and an index determine the number of the word. -/
theorem ofNat_div_mod_inj {k n : ℕ} (hk : k < 2 ^ 30) (hn : n < 2 ^ 30)
    (hf : BitVec.ofNat 20 (k / 1024) = BitVec.ofNat 20 (n / 1024))
    (hj : BitVec.ofNat 10 (k % 1024) = BitVec.ofNat 10 (n % 1024)) : k = n := by
  have hf' := congrArg BitVec.toNat hf
  have hj' := congrArg BitVec.toNat hj
  simp only [BitVec.toNat_ofNat] at hf' hj'
  omega

theorem wordAt_setEntry (mem : Frame → Index → Word) {n k : ℕ} (hn : n < 2 ^ 30)
    (hk : k < 2 ^ 30) (w : Word) :
    wordAt (setEntry mem (BitVec.ofNat 20 (n / 1024)) (BitVec.ofNat 10 (n % 1024)) w) k =
      if k = n then w else wordAt mem k := by
  rw [wordAt, setEntry_apply]
  by_cases h : k = n
  · rw [h, if_pos ⟨rfl, rfl⟩, if_pos rfl]
  · rw [if_neg h, if_neg fun hc => h (ofNat_div_mod_inj hk hn hc.1 hc.2), wordAt]

theorem writePhys_eq (mem : Frame → Index → Word) {pa : Word} {n : ℕ} (h : pa.toNat = 4 * n)
    (w : Word) : writePhys mem pa w =
      setEntry mem (BitVec.ofNat 20 (n / 1024)) (BitVec.ofNat 10 (n % 1024)) w := by
  have hpa := pa.isLt
  have hf : frameOf pa = BitVec.ofNat 20 (n / 1024) := by
    apply BitVec.eq_of_toNat_eq
    rw [toNat_frameOf, BitVec.toNat_ofNat]
    omega
  have hj : wordOf pa = BitVec.ofNat 10 (n % 1024) := by
    apply BitVec.eq_of_toNat_eq
    rw [toNat_wordOf, BitVec.toNat_ofNat]
    omega
  rw [writePhys, hf, hj]

theorem wordAt_writePhys (mem : Frame → Index → Word) {pa : Word} {n k : ℕ}
    (h : pa.toNat = 4 * n) (hk : k < 2 ^ 30) (w : Word) :
    wordAt (writePhys mem pa w) k = if k = n then w else wordAt mem k := by
  have hpa := pa.isLt
  rw [writePhys_eq mem h, wordAt_setEntry mem (by omega) hk]

/-! ### Entries -/

/-- The entry that points to frame `f` with the given flags. -/
def tableWord (f : Frame) (flags : BitVec 12) : Word := (f ++ flags : BitVec (20 + 12))

@[simp] theorem frameOf_tableWord (f : Frame) (flags : BitVec 12) :
    frameOf (tableWord f flags) = f := frameOf_append_offset f flags

theorem getLsbD_tableWord (f : Frame) (flags : BitVec 12) {i : ℕ} (hi : i < 12) :
    (tableWord f flags).getLsbD i = flags.getLsbD i := by
  have h := BitVec.getLsbD_append (x := f) (y := flags) (i := i)
  rw [if_pos hi] at h
  exact h

theorem toNat_tableWord (f : Frame) (flags : BitVec 12) :
    (tableWord f flags).toNat = 4096 * f.toNat + flags.toNat := by
  have h := BitVec.toNat_append f flags
  rw [← Nat.shiftLeft_add_eq_or_of_lt flags.isLt, Nat.shiftLeft_eq] at h
  rw [tableWord, h]
  omega

/-- Or-ing flags into a page-aligned address makes an entry. -/
theorem or_eq_tableWord {a : Word} {c : ℕ} (ha : a.toNat = 4096 * c) (flags : BitVec 12) :
    a ||| flags.setWidth 32 = tableWord (imageFrame c) flags := by
  have hlt := a.isLt
  have hf := flags.isLt
  apply BitVec.eq_of_toNat_eq
  rw [toNat_tableWord, BitVec.toNat_or, BitVec.toNat_setWidth, imageFrame, BitVec.toNat_ofNat, ha,
    Nat.mod_eq_of_lt (show flags.toNat < 2 ^ 32 by omega), Nat.mul_comm 4096 c,
    show 4096 = 2 ^ 12 from rfl, ← Nat.shiftLeft_eq, ← Nat.shiftLeft_add_eq_or_of_lt hf,
    Nat.shiftLeft_eq]
  omega

/-- Adding flags to a page-aligned address makes an entry. -/
theorem add_eq_tableWord {a : Word} {c : ℕ} (ha : a.toNat = 4096 * c) (flags : BitVec 12) :
    a + flags.setWidth 32 = tableWord (imageFrame c) flags := by
  have hlt := a.isLt
  have hf := flags.isLt
  apply BitVec.eq_of_toNat_eq
  rw [toNat_tableWord, BitVec.toNat_add, BitVec.toNat_setWidth, imageFrame, BitVec.toNat_ofNat, ha]
  omega

/-! ### The window -/

/-- The entry of a present, writable, supervisor page. -/
def kernelEntry (k : ℕ) : Word := tableWord (imageFrame k) 0x003

/-- Page `k` of the kernel window. -/
def imagePage (k : ℕ) : Page := (BitVec.ofNat 10 (768 + k / 1024), BitVec.ofNat 10 (k % 1024))

theorem imagePage_of_lt {k : ℕ} (hk : k < 1024) : imagePage k = (768#10, BitVec.ofNat 10 k) := by
  rw [imagePage, Nat.div_eq_of_lt hk, Nat.mod_eq_of_lt hk]

theorem imagePage_of_ge {k : ℕ} (hk : 1024 ≤ k) (hlt : k < 2048) :
    imagePage k = (769#10, BitVec.ofNat 10 (k - 1024)) := by
  have hdiv : k / 1024 = 1 := by omega
  have hmod : k % 1024 = k - 1024 := by omega
  rw [imagePage, hdiv, hmod]

/-- The window is mapped: image page `k` to frame `k`, writable, for the supervisor. -/
def KernelWindow (m : Machine) : Prop :=
  ∀ k, k < 2048 → m.translate (imagePage k) = some ⟨imageFrame k, true, false⟩

/-- Slots 768 and 769 of the directory in frame `dir` point to the tables in frames
`t1` and `t2`, which map the window. -/
structure WindowTables (m : Machine) (dir t1 t2 : ℕ) : Prop where
  cr3 : frameOf m.cr3 = imageFrame dir
  slot1 : wordAt m.mem (1024 * dir + 768) = kernelEntry t1
  slot2 : wordAt m.mem (1024 * dir + 769) = kernelEntry t2
  table1 : ∀ j, j < 1024 → wordAt m.mem (1024 * t1 + j) = kernelEntry j
  table2 : ∀ j, j < 1024 → wordAt m.mem (1024 * t2 + j) = kernelEntry (1024 + j)

theorem wordAt_imageFrame (mem : Frame → Index → Word) {k j : ℕ} (hj : j < 1024) :
    wordAt mem (1024 * k + j) = mem (imageFrame k) (BitVec.ofNat 10 j) := by
  rw [wordAt, imageFrame, show (1024 * k + j) / 1024 = k by omega,
    show (1024 * k + j) % 1024 = j by omega]

@[simp] theorem frameOf_kernelEntry (k : ℕ) : frameOf (kernelEntry k) = imageFrame k :=
  frameOf_tableWord _ _

theorem getLsbD_kernelEntry (k : ℕ) {i : ℕ} (hi : i < 12) :
    (kernelEntry k).getLsbD i = (0x003#12).getLsbD i :=
  getLsbD_tableWord _ _ hi

/-- A lookup through two kernel entries is a supervisor translation. -/
theorem translate_of_kernelEntries {m : Machine} {dir t k : ℕ} {i j : Index}
    (hcr3 : frameOf m.cr3 = imageFrame dir) (hd : m.mem (imageFrame dir) i = kernelEntry t)
    (ht : m.mem (imageFrame t) j = kernelEntry k) :
    m.translate (i, j) = some ⟨imageFrame k, true, false⟩ := by
  have hlook : lookup entryFormat m.mem (frameOf m.cr3) i j =
      some (kernelEntry t, kernelEntry k) := by
    rw [lookup_eq_some, hcr3, hd, entryFormat_present, entryFormat_frame, frameOf_kernelEntry, ht,
      entryFormat_present, getLsbD_kernelEntry _ (by omega), getLsbD_kernelEntry _ (by omega)]
    exact ⟨rfl, rfl, rfl⟩
  rw [Machine.translate, hlook, Option.map_some, pathTranslation, frameOf_kernelEntry]
  simp only [getLsbD_kernelEntry _ (show 1 < 12 by omega),
    getLsbD_kernelEntry _ (show 2 < 12 by omega)]
  rfl

/-- **The tables map the window.** -/
theorem WindowTables.kernelWindow {m : Machine} {dir t1 t2 : ℕ} (h : WindowTables m dir t1 t2) :
    KernelWindow m := by
  intro k hk
  -- slot 768 maps the first 1024 pages, slot 769 the rest
  rcases Nat.lt_or_ge k 1024 with hlt | hge
  · rw [imagePage_of_lt hlt]
    refine translate_of_kernelEntries h.cr3 (t := t1) ?_ ?_
    · rw [← h.slot1, wordAt_imageFrame _ (by omega)]
    · rw [← h.table1 k hlt, wordAt_imageFrame _ hlt]
  · rw [imagePage_of_ge hge hk]
    refine translate_of_kernelEntries h.cr3 (t := t2) ?_ ?_
    · rw [← h.slot2, wordAt_imageFrame _ (by omega)]
    · have hword := h.table2 (k - 1024) (by omega)
      rw [show 1024 + (k - 1024) = k by omega, wordAt_imageFrame _ (by omega)] at hword
      exact hword

/-- In the window the walk subtracts `0xC0000000`. -/
theorem KernelWindow.walk {m : Machine} (h : KernelWindow m) {v : Word}
    (hlo : 0xC0000000 ≤ v.toNat) (hhi : v.toNat < 0xC0800000) :
    m.walk v = some (kernelToPhys v) := by
  obtain ⟨k, hk⟩ : ∃ k, k = (v.toNat - 0xC0000000) / 4096 := ⟨_, rfl⟩
  have hpage : pageOf v = imagePage k := by
    apply pageOf_eq_of_toNat
    rw [BitVec.toNat_ofNat, BitVec.toNat_ofNat]
    omega
  rw [Machine.walk, hpage, h k (by omega), Option.map_some, Option.some_inj]
  apply BitVec.eq_of_toNat_eq
  rw [BitVec.toNat_append, ← Nat.shiftLeft_add_eq_or_of_lt (offsetOf v).isLt, Nat.shiftLeft_eq,
    toNat_offsetOf, imageFrame, BitVec.toNat_ofNat, kernelToPhys, BitVec.toNat_sub,
    show kernelAddress.toNat = 3221225472 from rfl]
  have := v.isLt
  omega

/-! ### Image addresses -/

theorem toNat_imageAddr_add {k i : ℕ} (h : 1024 * k + i < 2097152) :
    (imageAddr k + 4 * BitVec.ofNat 32 i).toNat = 0xC0000000 + 4 * (1024 * k + i) := by
  simp only [imageAddr, BitVec.toNat_add, BitVec.toNat_mul, BitVec.toNat_ofNat,
    BitVec.ofNat_eq_ofNat]
  omega

theorem toNat_kernelToPhys_imageAddr {k : ℕ} (h : k < 2048) :
    (kernelToPhys (imageAddr k)).toNat = 4096 * k := by
  simp only [kernelToPhys, kernelAddress, imageAddr, BitVec.toNat_sub, BitVec.toNat_ofNat,
    BitVec.ofNat_eq_ofNat]
  omega

/-- The words of the image lie in the pages of the window. -/
theorem pageOf_imageAddr_add {k i : ℕ} (h : 1024 * k + i < 2097152) :
    pageOf (imageAddr k + 4 * BitVec.ofNat 32 i) = imagePage ((1024 * k + i) / 1024) := by
  apply pageOf_eq_of_toNat
  rw [toNat_imageAddr_add h, BitVec.toNat_ofNat, BitVec.toNat_ofNat]
  omega

theorem wordOf_imageAddr_add {k i : ℕ} (h : 1024 * k + i < 2097152) :
    wordOf (imageAddr k + 4 * BitVec.ofNat 32 i) = BitVec.ofNat 10 ((1024 * k + i) % 1024) := by
  apply BitVec.eq_of_toNat_eq
  rw [toNat_wordOf, toNat_imageAddr_add h, BitVec.toNat_ofNat]
  omega

/-- The machine with word `n` replaced. -/
def Machine.setNum (m : Machine) (n : ℕ) (w : Word) : Machine :=
  m.setWord (BitVec.ofNat 20 (n / 1024)) (BitVec.ofNat 10 (n % 1024)) w

theorem Machine.wordAt_setNum (m : Machine) {n k : ℕ} (hn : n < 2 ^ 30) (hk : k < 2 ^ 30)
    (w : Word) : wordAt (m.setNum n w).mem k = if k = n then w else wordAt m.mem k :=
  wordAt_setEntry m.mem hn hk w

/-- A store to word `i` of the image page `k`, through the window. -/
theorem run_store_image {m : Machine} (hwin : KernelWindow m) {k i : ℕ}
    (h : 1024 * k + i < 2097152) (w : Word) {α : Type} (next : Code α) :
    (Prog.store (imageAddr k + 4 * BitVec.ofNat 32 i) w next).run mmu m =
      next.run mmu (m.setNum (1024 * k + i) w) := by
  rw [run_store (U := mmu) (t := ⟨imageFrame ((1024 * k + i) / 1024), true, false⟩) _ rfl,
    mmu_write, wordOf_imageAddr_add h]
  · rfl
  · rw [mmu_page, mmu_walk, pageOf_imageAddr_add h, hwin _ (by omega)]

/-- A store outside the window's tables keeps them. -/
theorem WindowTables.setNum {m : Machine} {dir t1 t2 : ℕ} (h : WindowTables m dir t1 t2)
    (hdir : dir < 2048) (ht1 : t1 < 2048) (ht2 : t2 < 2048) {n : ℕ} (hn : n < 2 ^ 30)
    (hd : n / 1024 ≠ dir) (h1 : n / 1024 ≠ t1) (h2 : n / 1024 ≠ t2) (w : Word) :
    WindowTables (m.setNum n w) dir t1 t2 where
  cr3 := h.cr3
  slot1 := by rw [m.wordAt_setNum hn (by omega), if_neg (by omega), h.slot1]
  slot2 := by rw [m.wordAt_setNum hn (by omega), if_neg (by omega), h.slot2]
  table1 j hj := by rw [m.wordAt_setNum hn (by omega), if_neg (by omega), h.table1 j hj]
  table2 j hj := by rw [m.wordAt_setNum hn (by omega), if_neg (by omega), h.table2 j hj]

/-! ### The boot code -/

/-- The filling loop writes consecutive kernel entries, and nothing else. -/
theorem fillTable_spec : ∀ (ecx : ℕ) (s : BootState) (n c : ℕ), n + ecx ≤ 2097152 →
    c + ecx ≤ 2048 → (0 < ecx → s.edi.toNat = 4 * n) → s.esi.toNat = 4096 * c →
      (fillTable ecx s).esi.toNat = 4096 * (c + ecx) ∧
      ∀ k, k < 2 ^ 30 → wordAt (fillTable ecx s).mem k =
        if n ≤ k ∧ k < n + ecx then kernelEntry (c + (k - n)) else wordAt s.mem k := by
  intro ecx
  induction ecx with
  | zero =>
    intro s n c _ _ _ hesi
    refine ⟨hesi, ?_⟩
    intro k _
    rw [if_neg (by omega)]
    rfl
  | succ ecx ih =>
    intro s n c hn hc hedi hesi
    obtain ⟨hesi', hmem'⟩ := ih
      { mem := writePhys s.mem s.edi (s.esi ||| 0x003), esi := s.esi + 4096, edi := s.edi + 4 }
      (n + 1) (c + 1) (by omega) (by omega)
      (fun h => by
        change (s.edi + 4#32).toNat = _
        rw [BitVec.toNat_add, hedi (by omega), BitVec.toNat_ofNat]
        omega)
      (by
        change (s.esi + 4096#32).toNat = _
        rw [BitVec.toNat_add, hesi, BitVec.toNat_ofNat]
        omega)
    refine ⟨by rw [fillTable, hesi']; omega, ?_⟩
    intro k hk
    have hentry : s.esi ||| 0x003 = kernelEntry c := or_eq_tableWord hesi 0x003
    rw [fillTable, hmem' k hk, wordAt_writePhys s.mem (hedi (by omega)) hk, hentry]
    -- the word just stored, one that a later pass stores, or none of the loop's
    by_cases hkn : k = n
    · rw [if_neg (by omega), if_pos hkn, if_pos (by omega), hkn, Nat.sub_self, Nat.add_zero]
    · rw [if_neg hkn]
      by_cases hin : n + 1 ≤ k ∧ k < n + 1 + ecx
      · rw [if_pos hin, if_pos (by omega), show c + 1 + (k - (n + 1)) = c + (k - n) by omega]
      · rw [if_neg hin, if_neg (by omega)]

/-- The numeric content of a placement. -/
theorem Layout.facts (L : Layout) :
    (L.bootPageDirectory < 2048 ∧ L.bootPageTable1 < 2048 ∧ L.bootPageTable2 < 2048 ∧
      L.pageDirectory < 2048 ∧ L.kernelPageTables + 2 ≤ 2048 ∧ L.freePageTables + 767 ≤ 2048) ∧
    (L.bootPageDirectory ≠ L.bootPageTable1 ∧ L.bootPageDirectory ≠ L.bootPageTable2 ∧
      L.bootPageTable1 ≠ L.bootPageTable2) ∧
    (L.pageDirectory ≠ L.bootPageDirectory ∧ L.pageDirectory ≠ L.bootPageTable1 ∧
      L.pageDirectory ≠ L.bootPageTable2) ∧
    (∀ b, b = L.bootPageDirectory ∨ b = L.bootPageTable1 ∨ b = L.bootPageTable2 ∨
        b = L.pageDirectory →
      (b + 1 ≤ L.kernelPageTables ∨ L.kernelPageTables + 2 ≤ b) ∧
      (b + 1 ≤ L.freePageTables ∨ L.freePageTables + 767 ≤ b)) ∧
    (L.kernelPageTables + 2 ≤ L.freePageTables ∨ L.freePageTables + 767 ≤ L.kernelPageTables) := by
  have ha := L.apart
  have hw := L.inWindow
  simp only [Placement.objects, kernelPageTablesSize, freePageTablesSize_eq, List.pairwise_cons,
    List.mem_cons, List.not_mem_nil, or_false, forall_eq_or_imp, forall_eq, false_imp_iff,
    implies_true, List.Pairwise.nil, and_true] at ha hw
  -- the objects in the order of `Placement.objects`, two by two
  obtain ⟨⟨hd1, hd2, hdp, hdk, hdf⟩, ⟨h12, h1p, h1k, h1f⟩, ⟨h2p, h2k, h2f⟩, ⟨hpk, hpf⟩, hkf⟩ := ha
  have hne : ∀ {a b : ℕ}, a + 1 ≤ b ∨ b + 1 ≤ a → a ≠ b := by omega
  refine ⟨by omega, ⟨hne hd1, hne hd2, hne h12⟩, ⟨(hne hdp).symm, (hne h1p).symm, (hne h2p).symm⟩,
    ?_, hkf⟩
  rintro b (rfl | rfl | rfl | rfl)
  · exact ⟨hdk, hdf⟩
  · exact ⟨h1k, h1f⟩
  · exact ⟨h2k, h2f⟩
  · exact ⟨hpk, hpf⟩

/-- Every word after the three directory stores, in terms of the filled tables. -/
theorem wordAt_start (L : Layout) (mem : Frame → Index → Word) {k : ℕ} (hk : k < 2 ^ 30) :
    wordAt (start L mem).mem k =
      if k = 1024 * L.bootPageDirectory + 769 then kernelEntry L.bootPageTable2
      else if k = 1024 * L.bootPageDirectory + 768 then kernelEntry L.bootPageTable1
      else if k = 1024 * L.bootPageDirectory + 0 then kernelEntry L.bootPageTable1
      else if 1024 * L.bootPageTable2 ≤ k ∧ k < 1024 * L.bootPageTable2 + 1024 then
        kernelEntry (1024 + (k - 1024 * L.bootPageTable2))
      else if 1024 * L.bootPageTable1 ≤ k ∧ k < 1024 * L.bootPageTable1 + 1024 then
        kernelEntry (0 + (k - 1024 * L.bootPageTable1))
      else wordAt mem k := by
  obtain ⟨⟨hd, h1, h2, -⟩, -⟩ := L.facts
  have hdir := toNat_kernelToPhys_imageAddr hd
  have htab1 := toNat_kernelToPhys_imageAddr h1
  have htab2 := toNat_kernelToPhys_imageAddr h2
  obtain ⟨hesi1, hmem1⟩ := fillTable_spec 1024
    { mem := mem, esi := 0, edi := kernelToPhys (imageAddr L.bootPageTable1) }
    (1024 * L.bootPageTable1) 0 (by omega) (by omega) (fun _ => by rw [htab1]; omega) rfl
  rw [Nat.zero_add] at hesi1
  have hmem2 := fun (s : BootState) (hesi : s.esi.toNat = 4096 * 1024) =>
    (fillTable_spec 1024 { s with edi := kernelToPhys (imageAddr L.bootPageTable2) }
      (1024 * L.bootPageTable2) 1024 (by omega) (by omega) (fun _ => by rw [htab2]; omega) hesi).2
  have hslot : ∀ (i : ℕ) (w : Word), w.toNat = 4 * i → i < 1024 →
      (kernelToPhys (imageAddr L.bootPageDirectory) + w).toNat =
        4 * (1024 * L.bootPageDirectory + i) := by
    intro i w hw hi
    rw [BitVec.toNat_add, hdir, hw]
    omega
  have hentry1 : kernelToPhys (imageAddr L.bootPageTable1) + 0x003 =
      kernelEntry L.bootPageTable1 := add_eq_tableWord htab1 0x003
  have hentry2 : kernelToPhys (imageAddr L.bootPageTable2) + 0x003 =
      kernelEntry L.bootPageTable2 := add_eq_tableWord htab2 0x003
  simp only [start]
  rw [wordAt_writePhys _ (hslot 769 _ (by decide) (by omega)) hk,
    wordAt_writePhys _ (hslot 768 _ (by decide) (by omega)) hk,
    wordAt_writePhys _ (hslot 0 _ (by decide) (by omega)) hk, hmem2 _ hesi1 k hk, hmem1 k hk,
    hentry1, hentry2]

/-- **The boot code maps the window** with the boot directory and the boot tables. -/
theorem start_windowTables (L : Layout) (mem : Frame → Index → Word) :
    WindowTables (start L mem) L.bootPageDirectory L.bootPageTable1 L.bootPageTable2 := by
  obtain ⟨⟨hd, h1, h2, -⟩, ⟨hd1, hd2, h12⟩, -⟩ := L.facts
  refine ⟨?_, ?_, ?_, ?_, ?_⟩
  · have hcr3 : (start L mem).cr3 = kernelToPhys (imageAddr L.bootPageDirectory) := by
      simp only [start]
    apply BitVec.eq_of_toNat_eq
    rw [toNat_frameOf, hcr3, toNat_kernelToPhys_imageAddr hd, imageFrame, BitVec.toNat_ofNat]
    omega
  · rw [wordAt_start L mem (by omega), if_neg (by omega), if_pos rfl]
  · rw [wordAt_start L mem (by omega), if_pos rfl]
  · intro j hj
    rw [wordAt_start L mem (by omega), if_neg (by omega), if_neg (by omega), if_neg (by omega),
      if_neg (by omega), if_pos (by omega), Nat.add_sub_cancel_left, Nat.zero_add]
  · intro j hj
    rw [wordAt_start L mem (by omega), if_neg (by omega), if_neg (by omega), if_neg (by omega),
      if_pos (by omega), Nat.add_sub_cancel_left]

end MVK
