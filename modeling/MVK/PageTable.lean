import MVK.PagingInit

/-!
# The page-table invariant, and what each table edit does

Every access the paging code makes to the tables goes through slot 1023 of the
directory.  The invariant says what the directory may hold: each slot is empty or
holds the one entry the code ever stores there, pointing to a table that no other
slot points to.  Under it, an access through slot 1023 is an access to the table
it is meant for, and each function is a single update of the translation.

## Main definitions

* `slotPage`, `slotFlags` — the table and the flags that belong to a directory slot.
* `PagingInv` — the invariant.
* `mapped`, `unmapped` — the tables after `map_page` and `unmap_page`.

## Main results

* `PagingInv.tree` — the tables form a self-mapped tree.
* `translate_mapped`, `translate_unmapped` — **each edit is one update of the
  translation.**
* `PagingInv.mapped`, `PagingInv.unmapped` — each edit keeps the invariant.
-/

namespace MVK

open SelfMap Translation Translation.Prog

/-! ### The directory -/

/-- The image page of the table that belongs to directory slot `i`. -/
def slotPage (L : Layout) (i : Index) : Option ℕ :=
  if i.toNat < 767 then some (L.freePageTables + i.toNat)
  else if i.toNat = 768 then some L.kernelPageTables
  else if i.toNat = 769 then some (L.kernelPageTables + 1)
  else if i.toNat = 1023 then some L.pageDirectory
  else none

/-- The flags of directory slot `i`: a heap table is open to the user. -/
def slotFlags (i : Index) : BitVec 12 := if i.toNat < 767 then 0x007 else 0x003

/-- The entry that belongs to slot `i` when its table is in image page `k`. -/
def slotEntry (i : Index) (k : ℕ) : Word := tableWord (imageFrame k) (slotFlags i)

/-- The directory: each slot is empty or holds its own entry, the kernel's slots are
never empty, and the table of an empty heap slot maps nothing. -/
structure PagingInv (L : Layout) (m : Machine) : Prop where
  cr3 : frameOf m.cr3 = imageFrame L.pageDirectory
  slot : ∀ i, m.mem (imageFrame L.pageDirectory) i = 0 ∨
    ∃ k, slotPage L i = some k ∧ m.mem (imageFrame L.pageDirectory) i = slotEntry i k
  kernel : ∀ i k, 768 ≤ i.toNat → slotPage L i = some k →
    m.mem (imageFrame L.pageDirectory) i = slotEntry i k
  empty : ∀ i : Index, i.toNat < 767 → m.mem (imageFrame L.pageDirectory) i = 0 →
    ∀ j, (m.mem (imageFrame (L.freePageTables + i.toNat)) j).getLsbD 0 = false

theorem slotPage_lt {L : Layout} {i : Index} {k : ℕ} (h : slotPage L i = some k) : k < 2048 := by
  obtain ⟨hlt, -⟩ := L.facts
  unfold slotPage at h
  split_ifs at h <;> simp only [Option.some.injEq] at h <;> omega

/-- No table belongs to two slots. -/
theorem slotPage_inj {L : Layout} {i i' : Index} {k : ℕ} (h : slotPage L i = some k)
    (h' : slotPage L i' = some k) : i = i' := by
  obtain ⟨-, -, -, hapart, hkf⟩ := L.facts
  have hpd := hapart L.pageDirectory (by simp)
  apply BitVec.eq_of_toNat_eq
  unfold slotPage at h h'
  split_ifs at h <;> split_ifs at h' <;> simp only [Option.some.injEq] at h h' <;> omega

theorem slotPage_self (L : Layout) : slotPage L 1023#10 = some L.pageDirectory := rfl

theorem slotPage_of_lt (L : Layout) {i : Index} (h : i.toNat < 767) :
    slotPage L i = some (L.freePageTables + i.toNat) := by
  rw [slotPage, if_pos h]

theorem imageFrame_inj {k k' : ℕ} (hk : k < 2048) (hk' : k' < 2048)
    (h : imageFrame k = imageFrame k') : k = k' := by
  have h' := congrArg BitVec.toNat h
  simp only [imageFrame, BitVec.toNat_ofNat] at h'
  omega

theorem toNat_imageFrame {k : ℕ} (hk : k < 2048) : (imageFrame k).toNat = k := by
  rw [imageFrame, BitVec.toNat_ofNat]
  omega

@[simp] theorem frameOf_slotEntry (i : Index) (k : ℕ) : frameOf (slotEntry i k) = imageFrame k :=
  frameOf_tableWord _ _

theorem slotEntry_present (i : Index) (k : ℕ) : (slotEntry i k).getLsbD 0 = true := by
  rw [slotEntry, getLsbD_tableWord _ _ (by omega), slotFlags]
  split <;> rfl

theorem slotEntry_writable (i : Index) (k : ℕ) : (slotEntry i k).getLsbD 1 = true := by
  rw [slotEntry, getLsbD_tableWord _ _ (by omega), slotFlags]
  split <;> rfl

theorem slotEntry_user (i : Index) (k : ℕ) :
    (slotEntry i k).getLsbD 2 = decide (i.toNat < 767) := by
  rw [slotEntry, getLsbD_tableWord _ _ (by omega), slotFlags]
  split
  · next h => rw [decide_eq_true h]; rfl
  · next h => rw [decide_eq_false h]; rfl

section Inv

variable {L : Layout} {m : Machine}

/-- A present slot holds its own entry. -/
theorem PagingInv.present (h : PagingInv L m) {i : Index}
    (hp : (m.mem (imageFrame L.pageDirectory) i).getLsbD 0 = true) :
    ∃ k, slotPage L i = some k ∧ m.mem (imageFrame L.pageDirectory) i = slotEntry i k := by
  rcases h.slot i with h0 | hk
  · rw [h0] at hp
    simp at hp
  · exact hk

/-- A slot that is not present is empty. -/
theorem PagingInv.absent (h : PagingInv L m) {i : Index}
    (hp : (m.mem (imageFrame L.pageDirectory) i).getLsbD 0 = false) :
    m.mem (imageFrame L.pageDirectory) i = 0 := by
  rcases h.slot i with h0 | ⟨k, -, hk⟩
  · exact h0
  · rw [hk, slotEntry_present] at hp
    exact absurd hp (by decide)

theorem PagingInv.self (h : PagingInv L m) :
    m.mem (imageFrame L.pageDirectory) 1023#10 = kernelEntry L.pageDirectory :=
  h.kernel 1023#10 _ (by decide) (slotPage_self L)

/-- **The tables form a self-mapped tree.** -/
theorem PagingInv.tree (h : PagingInv L m) :
    Tree entryFormat m.mem (imageFrame L.pageDirectory) 1023#10 where
  self_present := by
    rw [h.self, entryFormat_present, getLsbD_kernelEntry _ (by omega)]
    rfl
  self_frame := by rw [h.self, entryFormat_frame, frameOf_kernelEntry]
  frame_ne_root i hi hp hf := by
    obtain ⟨k, hk, hent⟩ := h.present hp
    rw [hent, entryFormat_frame, frameOf_slotEntry] at hf
    have hkpd := imageFrame_inj (slotPage_lt hk) L.facts.1.2.2.2.1 hf
    exact hi (slotPage_inj (hkpd ▸ hk) (slotPage_self L))
  frame_inj i i' hp hp' hf := by
    obtain ⟨k, hk, hent⟩ := h.present hp
    obtain ⟨k', hk', hent'⟩ := h.present hp'
    rw [hent, hent', entryFormat_frame, entryFormat_frame, frameOf_slotEntry,
      frameOf_slotEntry] at hf
    have hkk := imageFrame_inj (slotPage_lt hk) (slotPage_lt hk') hf
    exact slotPage_inj hk (hkk ▸ hk')

theorem PagingInv.translate_eq (h : PagingInv L m) (q : Page) :
    m.translate q =
      (lookup entryFormat m.mem (imageFrame L.pageDirectory) q.1 q.2).map pathTranslation := by
  rw [Machine.translate, h.cr3]

/-- **The recursive window**: page `(1023, i)` is the table of slot `i`. -/
theorem PagingInv.translate_window (h : PagingInv L m) (i : Index) :
    m.translate (1023#10, i) =
      if (m.mem (imageFrame L.pageDirectory) i).getLsbD 0 then
        some ⟨frameOf (m.mem (imageFrame L.pageDirectory) i), true, false⟩
      else none := by
  rw [h.translate_eq, lookup_self h.tree, entryFormat_present]
  by_cases hp : (m.mem (imageFrame L.pageDirectory) i).getLsbD 0 = true
  · obtain ⟨k, -, hk⟩ := h.present hp
    rw [if_pos hp, if_pos hp, Option.map_some, pathTranslation, h.self, hk, slotEntry_writable,
      getLsbD_kernelEntry _ (show 1 < 12 by omega), getLsbD_kernelEntry _ (show 2 < 12 by omega)]
    rfl
  · rw [if_neg hp, if_neg hp, Option.map_none]

/-- The directory itself is the last page of the window. -/
theorem PagingInv.translate_dir (h : PagingInv L m) :
    m.translate (1023#10, 1023#10) = some ⟨imageFrame L.pageDirectory, true, false⟩ := by
  rw [h.translate_window, h.self, getLsbD_kernelEntry _ (by omega), frameOf_kernelEntry]
  rfl

/-- Outside the window, a page of a present slot is translated by its table's entry. -/
theorem PagingInv.translate_present (h : PagingInv L m) {q : Page}
    (hp : (m.mem (imageFrame L.pageDirectory) q.1).getLsbD 0 = true) :
    m.translate q =
      if (m.mem (frameOf (m.mem (imageFrame L.pageDirectory) q.1)) q.2).getLsbD 0 then
        some (pathTranslation (m.mem (imageFrame L.pageDirectory) q.1,
          m.mem (frameOf (m.mem (imageFrame L.pageDirectory) q.1)) q.2))
      else none := by
  rw [h.translate_eq, lookup_of_present (by exact hp), entryFormat_frame, entryFormat_present]
  split <;> rfl

theorem PagingInv.translate_absent (h : PagingInv L m) {q : Page}
    (hp : (m.mem (imageFrame L.pageDirectory) q.1).getLsbD 0 = false) :
    m.translate q = none := by
  rw [h.translate_eq, lookup_of_absent (by exact hp), Option.map_none]

/-! ### Accesses through the window -/

variable {α : Type} {Q : α → Machine → Prop} {E : String → Prop} {stale : Set Page}

/-- Reading `pd[i]`. -/
theorem PagingInv.safe_load_pd (h : PagingInv L m) {w : Word} {i : Index}
    (hw : w.toNat = i.toNat) (hs : (1023#10, 1023#10) ∉ stale) {k : Word → Code α}
    (hk : (k (m.mem (imageFrame L.pageDirectory) i)).Safe mmu Q E m stale) :
    (Prog.load (pdEntryAddr w) k).Safe mmu Q E m stale := by
  have hi := i.isLt
  have hpage : pageOf (pdEntryAddr w) = (1023#10, 1023#10) := pageOf_pdEntryAddr (by omega)
  refine ⟨?_, ⟨imageFrame L.pageDirectory, true, false⟩, ?_, ?_⟩
  · rw [mmu_page, hpage]; exact hs
  · rw [mmu_walk, mmu_page, hpage]; exact h.translate_dir
  · rw [mmu_read, wordOf_pdEntryAddr hw]; exact hk

/-- Reading `pt[j]` of a present slot `i`. -/
theorem PagingInv.safe_load_pt (h : PagingInv L m) {w w' : Word} {i j : Index}
    (hw : w.toNat = i.toNat) (hw' : w'.toNat = j.toNat)
    (hp : (m.mem (imageFrame L.pageDirectory) i).getLsbD 0 = true)
    (hs : (1023#10, i) ∉ stale) {k : Word → Code α}
    (hk : (k (m.mem (frameOf (m.mem (imageFrame L.pageDirectory) i)) j)).Safe mmu Q E m stale) :
    (Prog.load (ptEntryAddr w w') k).Safe mmu Q E m stale := by
  have hi := i.isLt
  have hj := j.isLt
  have hpage : pageOf (ptEntryAddr w w') = (1023#10, i) := pageOf_ptEntryAddr hw (by omega)
  refine ⟨?_, ⟨frameOf (m.mem (imageFrame L.pageDirectory) i), true, false⟩, ?_, ?_⟩
  · rw [mmu_page, hpage]; exact hs
  · rw [mmu_walk, mmu_page, hpage, h.translate_window, if_pos hp]
  · rw [mmu_read, wordOf_ptEntryAddr (by omega) hw']; exact hk

/-- The walk of the code: the directory entry, and if it is present the table entry.  It
finds the page absent in two ways and present in one. -/
theorem PagingInv.safe_walk (h : PagingInv L m) {w w' : Word} {q : Page}
    (hw : w.toNat = q.1.toNat) (hw' : w'.toNat = q.2.toNat) {absent present : Code α}
    (habsent : m.translate q = none → absent.Safe mmu Q E m ∅)
    (hpresent : (m.mem (imageFrame L.pageDirectory) q.1).getLsbD 0 = true →
      (m.mem (frameOf (m.mem (imageFrame L.pageDirectory) q.1)) q.2).getLsbD 0 = true →
        present.Safe mmu Q E m ∅) :
    (Prog.load (pdEntryAddr w) fun pde =>
      if pde &&& pageFlagPresent = 0 then absent
      else Prog.load (ptEntryAddr w w') fun pte =>
        if pte &&& pageFlagPresent = 0 then absent else present).Safe mmu Q E m ∅ := by
  refine h.safe_load_pd hw (Set.notMem_empty _) ?_
  split
  · next habs =>
    rw [and_present_eq_zero_iff] at habs
    exact habsent (h.translate_absent habs)
  · next hpres =>
    rw [and_present_eq_zero_iff, Bool.not_eq_false] at hpres
    refine h.safe_load_pt hw hw' hpres (Set.notMem_empty _) ?_
    split
    · next habs =>
      rw [and_present_eq_zero_iff] at habs
      refine habsent ?_
      rw [h.translate_present hpres, habs]
      rfl
    · next hleaf =>
      rw [and_present_eq_zero_iff, Bool.not_eq_false] at hleaf
      exact hpresent hpres hleaf

/-- Writing `pd[i]`, when that changes no present translation. -/
theorem PagingInv.safe_store_pd (h : PagingInv L m) {w : Word} {i : Index}
    (hw : w.toNat = i.toNat) (hs : (1023#10, 1023#10) ∉ stale) {e : Word} {next : Code α}
    (hkeep : ∀ q t, m.translate q = some t →
      (m.setWord (imageFrame L.pageDirectory) i e).translate q = some t)
    (hk : next.Safe mmu Q E (m.setWord (imageFrame L.pageDirectory) i e) stale) :
    (Prog.store (pdEntryAddr w) e next).Safe mmu Q E m stale := by
  have hi := i.isLt
  have hpage : pageOf (pdEntryAddr w) = (1023#10, 1023#10) := pageOf_pdEntryAddr (by omega)
  refine ⟨?_, ⟨imageFrame L.pageDirectory, true, false⟩, ?_, rfl, stale, fun q hq => ⟨hq, ?_⟩, ?_⟩
  · rw [mmu_page, hpage]; exact hs
  · rw [mmu_walk, mmu_page, hpage]; exact h.translate_dir
  · rw [mmu_write, wordOf_pdEntryAddr hw]; exact hkeep q
  · rw [mmu_write, wordOf_pdEntryAddr hw]; exact hk

/-- Writing `pt[j]` of a present slot `i` and then flushing page `(i, j)`, when that
changes no other translation. -/
theorem PagingInv.safe_store_pt_flush (h : PagingInv L m) {w w' v : Word} {i j : Index}
    (hw : w.toNat = i.toNat) (hw' : w'.toNat = j.toNat) (hv : pageOf v = (i, j))
    (hp : (m.mem (imageFrame L.pageDirectory) i).getLsbD 0 = true) {e : Word} {a : α}
    (hkeep : ∀ q, q ≠ (i, j) →
      (m.setWord (frameOf (m.mem (imageFrame L.pageDirectory) i)) j e).translate q = m.translate q)
    (hQ : Q a (m.setWord (frameOf (m.mem (imageFrame L.pageDirectory) i)) j e)) :
    (Prog.store (ptEntryAddr w w') e (.flush v (.pure a))).Safe mmu Q E m ∅ := by
  have hi := i.isLt
  have hj := j.isLt
  have hpage : pageOf (ptEntryAddr w w') = (1023#10, i) := pageOf_ptEntryAddr hw (by omega)
  refine ⟨Set.notMem_empty _, ⟨frameOf (m.mem (imageFrame L.pageDirectory) i), true, false⟩, ?_,
    rfl, {(i, j)}, fun q hq => ⟨Set.notMem_empty q, ?_⟩, ?_, ?_⟩
  · rw [mmu_walk, mmu_page, hpage, h.translate_window, if_pos hp]
  · rw [mmu_write, wordOf_ptEntryAddr (by omega) hw', mmu_walk, mmu_walk, hkeep q hq]
    exact fun _ ht => ht
  · rw [mmu_page, hv, Set.sdiff_self]
  · rw [mmu_write, wordOf_ptEntryAddr (by omega) hw']; exact hQ

end Inv

/-! ### What `map_page` leaves -/

/-- The table entry `map_page` stores. -/
def pteWord (paddr : Word) (flags : BitVec 16) : Word :=
  (paddr &&& ~~~0xFFF#32) ||| (flags.setWidth 32 &&& 0xFFF#32) ||| pageFlagPresent

/-- The tables with slot `i` present. -/
def installed (L : Layout) (m : Machine) (i : Index) : Machine :=
  if (m.mem (imageFrame L.pageDirectory) i).getLsbD 0 then m
  else m.setWord (imageFrame L.pageDirectory) i (slotEntry i (L.freePageTables + i.toNat))

/-- The tables after `map_page(paddr, vaddr, free_page_tables, …, flags)`. -/
def mapped (L : Layout) (m : Machine) (paddr vaddr : Word) (flags : BitVec 16) : Machine :=
  let m' := installed L m (pageOf vaddr).1
  m'.setWord (frameOf (m'.mem (imageFrame L.pageDirectory) (pageOf vaddr).1)) (pageOf vaddr).2
    (pteWord paddr flags)

/-- The slot of `vaddr` has a table, or the code has one to install. -/
def Mappable (L : Layout) (m : Machine) (vaddr : Word) : Prop :=
  (m.mem (imageFrame L.pageDirectory) (pageOf vaddr).1).getLsbD 0 = true ∨
    (pageOf vaddr).1.toNat < 767

theorem pteWord_present (paddr : Word) (flags : BitVec 16) :
    (pteWord paddr flags).getLsbD 0 = true := by
  simp [pteWord, pageFlagPresent]

theorem pteWord_writable (paddr : Word) (flags : BitVec 16) :
    (pteWord paddr flags).getLsbD 1 = flags.getLsbD 1 := by
  simp [pteWord, pageFlagPresent]

theorem pteWord_user (paddr : Word) (flags : BitVec 16) :
    (pteWord paddr flags).getLsbD 2 = flags.getLsbD 2 := by
  simp [pteWord, pageFlagPresent]

theorem frameOf_pteWord (paddr : Word) (flags : BitVec 16) :
    frameOf (pteWord paddr flags) = frameOf paddr := by
  have hflags : (flags.setWidth 32 &&& 0xFFF#32).toNat < 4096 := by
    rw [toNat_and_fff]
    exact Nat.mod_lt _ (by decide)
  rw [pteWord, frameOf_or_flags (f := pageFlagPresent) (by decide), frameOf_or_flags hflags,
    frameOf_and_not_fff]

section Map

variable {L : Layout} {m : Machine}

theorem PagingInv.frame_free_ne_dir {i : Index} (hi : i.toNat < 767) :
    imageFrame (L.freePageTables + i.toNat) ≠ imageFrame L.pageDirectory := by
  intro hf
  have hk := slotPage_of_lt L hi
  have heq := imageFrame_inj (slotPage_lt hk) L.facts.1.2.2.2.1 hf
  have hself := slotPage_inj (heq ▸ hk) (slotPage_self L)
  rw [hself] at hi
  exact absurd hi (by decide)

theorem installed_of_present {i : Index}
    (hp : (m.mem (imageFrame L.pageDirectory) i).getLsbD 0 = true) : installed L m i = m := by
  rw [installed, if_pos hp]

theorem installed_of_absent {i : Index}
    (hp : (m.mem (imageFrame L.pageDirectory) i).getLsbD 0 = false) :
    installed L m i =
      m.setWord (imageFrame L.pageDirectory) i (slotEntry i (L.freePageTables + i.toNat)) := by
  rw [installed, if_neg (by rw [hp]; decide)]

/-- After installing, the slot is present. -/
theorem installed_present (i : Index) :
    ((installed L m i).mem (imageFrame L.pageDirectory) i).getLsbD 0 = true := by
  cases hp : (m.mem (imageFrame L.pageDirectory) i).getLsbD 0 with
  | true => rw [installed_of_present hp, hp]
  | false =>
    rw [installed_of_absent hp, Machine.setWord_mem, setEntry_self, slotEntry_present]

/-- Installing changes no table. -/
theorem installed_mem_of_frame_ne {f : Frame} (h : f ≠ imageFrame L.pageDirectory) (i j : Index) :
    (installed L m i).mem f j = m.mem f j := by
  unfold installed
  split
  · rfl
  · rw [Machine.setWord_mem, setEntry_of_frame_ne _ h]

theorem PagingInv.installed (h : PagingInv L m) {i : Index} (hi : i.toNat < 767) :
    PagingInv L (installed L m i) := by
  cases hp : (m.mem (imageFrame L.pageDirectory) i).getLsbD 0 with
  | true => rwa [installed_of_present hp]
  | false =>
    have hmem : ∀ i', (MVK.installed L m i).mem (imageFrame L.pageDirectory) i' =
        if i' = i then slotEntry i (L.freePageTables + i.toNat)
        else m.mem (imageFrame L.pageDirectory) i' := by
      intro i'
      rw [installed_of_absent hp, Machine.setWord_mem, setEntry_apply]
      simp
    refine ⟨?_, ?_, ?_, ?_⟩
    · rw [installed_of_absent hp]
      exact h.cr3
    · intro i'
      rw [hmem]
      split
      · next heq => exact Or.inr ⟨_, heq ▸ slotPage_of_lt L hi, by rw [heq]⟩
      · exact h.slot i'
    · intro i' k hi' hk
      rw [hmem, if_neg (by rintro rfl; omega)]
      exact h.kernel i' k hi' hk
    · intro i' hi' h0 j
      rw [hmem] at h0
      split at h0
      · -- the slot just installed is not empty
        have hpres := slotEntry_present i (L.freePageTables + i.toNat)
        rw [h0] at hpres
        exact absurd hpres (by decide)
      · rw [installed_mem_of_frame_ne (PagingInv.frame_free_ne_dir hi')]
        exact h.empty i' hi' h0 j

/-- **Installing an empty table changes no translation**, except that the window now
shows the table. -/
theorem translate_installed (h : PagingInv L m) {i : Index} (hi : i.toNat < 767) (q : Page) :
    (installed L m i).translate q =
      if (m.mem (imageFrame L.pageDirectory) i).getLsbD 0 = false ∧ q = (1023#10, i) then
        some ⟨imageFrame (L.freePageTables + i.toNat), true, false⟩
      else m.translate q := by
  cases hp : (m.mem (imageFrame L.pageDirectory) i).getLsbD 0 with
  | true => rw [installed_of_present hp, if_neg (by simp)]
  | false =>
    have hir : i ≠ 1023#10 := by
      rintro rfl
      exact absurd hi (by decide)
    have hlook := lookup_setEntry_root h.tree hir (by exact hp)
      (e := slotEntry i (L.freePageTables + i.toNat)) (slotEntry_present _ _)
      (by rw [entryFormat_frame, frameOf_slotEntry]; exact PagingInv.frame_free_ne_dir hi)
      (fun j => by
        rw [entryFormat_frame, frameOf_slotEntry]
        exact h.empty i hi (h.absent hp) j) q.1 q.2
    rw [installed_of_absent hp, Machine.translate, Machine.setWord_cr3, h.cr3,
      Machine.setWord_mem, hlook, h.translate_eq]
    by_cases hq : q = (1023#10, i)
    · -- the page of the window that appears: supervisor, since slot 1023 is
      rw [if_pos (by rw [hq]; exact ⟨rfl, rfl⟩), if_pos ⟨rfl, hq⟩, Option.map_some, pathTranslation,
        h.self, frameOf_slotEntry, slotEntry_writable,
        getLsbD_kernelEntry _ (show 1 < 12 by omega), getLsbD_kernelEntry _ (show 2 < 12 by omega)]
      rfl
    · rw [if_neg (fun hc => hq (Prod.ext hc.1 hc.2)), if_neg (fun hc => hq hc.2)]

/-- A store to the table of a present slot other than 1023 keeps the invariant. -/
theorem PagingInv.setLeaf (h : PagingInv L m) {i : Index} (hi : i ≠ 1023#10)
    (hp : (m.mem (imageFrame L.pageDirectory) i).getLsbD 0 = true) (j : Index) (e : Word) :
    PagingInv L (m.setWord (frameOf (m.mem (imageFrame L.pageDirectory) i)) j e) := by
  have hdir : ∀ i', (m.setWord (frameOf (m.mem (imageFrame L.pageDirectory) i)) j e).mem
      (imageFrame L.pageDirectory) i' = m.mem (imageFrame L.pageDirectory) i' := fun i' =>
    setEntry_of_frame_ne m.mem (h.tree.frame_ne_root i hi hp).symm j i' e
  refine ⟨h.cr3, ?_, ?_, ?_⟩
  · intro i'
    rw [hdir]
    exact h.slot i'
  · intro i' k hi' hk
    rw [hdir]
    exact h.kernel i' k hi' hk
  · intro i' hi' h0 j'
    rw [hdir] at h0
    obtain ⟨k, hk, hent⟩ := h.present hp
    -- the table of an empty slot is not the one of the present slot `i`
    have hne : imageFrame (L.freePageTables + i'.toNat) ≠
        frameOf (m.mem (imageFrame L.pageDirectory) i) := by
      rw [hent, frameOf_slotEntry]
      intro hf
      have hk' := slotPage_of_lt L hi'
      have heq := imageFrame_inj (slotPage_lt hk') (slotPage_lt hk) hf
      obtain rfl := slotPage_inj hk' (heq ▸ hk)
      rw [h0] at hp
      exact absurd hp (by decide)
    rw [Machine.setWord_mem, setEntry_of_frame_ne m.mem hne]
    exact h.empty i' hi' h0 j'

/-- **A store to a table is one update of the translation.** -/
theorem PagingInv.translate_setLeaf (h : PagingInv L m) {i : Index} (hi : i ≠ 1023#10)
    (hp : (m.mem (imageFrame L.pageDirectory) i).getLsbD 0 = true) (j : Index) (e : Word)
    (q : Page) :
    (m.setWord (frameOf (m.mem (imageFrame L.pageDirectory) i)) j e).translate q =
      if q = (i, j) then
        if e.getLsbD 0 then
          some (pathTranslation (m.mem (imageFrame L.pageDirectory) i, e))
        else none
      else m.translate q := by
  have hlook := lookup_setEntry_leaf h.tree hi (by exact hp) j e q.1 q.2
  rw [entryFormat_frame, entryFormat_present] at hlook
  rw [Machine.translate, Machine.setWord_cr3, h.cr3, Machine.setWord_mem, hlook, h.translate_eq]
  by_cases hq : q = (i, j)
  · rw [if_pos (by rw [hq]; exact ⟨rfl, rfl⟩), if_pos hq]
    split <;> rfl
  · rw [if_neg (fun hc => hq (Prod.ext hc.1 hc.2)), if_neg hq]

/-- A slot that can be mapped is the window's only if it is 1023; installing keeps the
invariant. -/
theorem PagingInv.installed_of_mappable (h : PagingInv L m) {v : Word} (hm : Mappable L m v) :
    PagingInv L (MVK.installed L m (pageOf v).1) := by
  rcases hm with hp | hi
  · rwa [installed_of_present hp]
  · exact h.installed hi

/-- `map_page` keeps the invariant. -/
theorem PagingInv.mapped (h : PagingInv L m) {v : Word} (hv : (pageOf v).1 ≠ 1023#10)
    (hm : Mappable L m v) (p : Word) (flags : BitVec 16) :
    PagingInv L (mapped L m p v flags) :=
  (h.installed_of_mappable hm).setLeaf hv (installed_present _) _ _

/-- The translation `map_page` gives its page. -/
def mappedTranslation (paddr vaddr : Word) (flags : BitVec 16) : PageTranslation where
  frame := frameOf paddr
  writable := flags.getLsbD 1
  user := decide ((pageOf vaddr).1.toNat < 767) && flags.getLsbD 2

/-- **`map_page` is one update of the translation**, beside the table it may install. -/
theorem translate_mapped (h : PagingInv L m) {v : Word} (hv : (pageOf v).1 ≠ 1023#10)
    (hm : Mappable L m v) (p : Word) (flags : BitVec 16) (q : Page) :
    (mapped L m p v flags).translate q =
      if q = pageOf v then some (mappedTranslation p v flags)
      else (installed L m (pageOf v).1).translate q := by
  have hinst := h.installed_of_mappable hm
  have hpres := installed_present (L := L) (m := m) (pageOf v).1
  -- the rights are those of the slot's entry and of the new one together
  rw [mapped, hinst.translate_setLeaf hv hpres, pteWord_present, if_pos rfl]
  obtain ⟨k, -, hk⟩ := hinst.present hpres
  rw [pathTranslation, hk, frameOf_pteWord, pteWord_writable, pteWord_user, slotEntry_writable,
    slotEntry_user]
  rfl

/-! ### What `unmap_page` leaves -/

/-- The tables after `unmap_page(vaddr)`. -/
def unmapped (L : Layout) (m : Machine) (vaddr : Word) : Machine :=
  if (m.translate (pageOf vaddr)).isSome then
    m.setWord (frameOf (m.mem (imageFrame L.pageDirectory) (pageOf vaddr).1)) (pageOf vaddr).2
      (m.mem (frameOf (m.mem (imageFrame L.pageDirectory) (pageOf vaddr).1)) (pageOf vaddr).2 &&&
        ~~~pageFlagPresent)
  else m

theorem and_not_present_absent (e : Word) : (e &&& ~~~pageFlagPresent).getLsbD 0 = false := by
  simp [pageFlagPresent]

theorem PagingInv.present_of_translate (h : PagingInv L m) {q : Page}
    (hq : (m.translate q).isSome = true) :
    (m.mem (imageFrame L.pageDirectory) q.1).getLsbD 0 = true := by
  cases hp : (m.mem (imageFrame L.pageDirectory) q.1).getLsbD 0 with
  | true => rfl
  | false =>
    rw [h.translate_absent hp] at hq
    exact absurd hq (by decide)

/-- `unmap_page` keeps the invariant. -/
theorem PagingInv.unmapped (h : PagingInv L m) {v : Word} (hv : (pageOf v).1 ≠ 1023#10) :
    PagingInv L (unmapped L m v) := by
  rw [MVK.unmapped]
  split
  · next hs => exact h.setLeaf hv (h.present_of_translate hs) _ _
  · exact h

/-- **`unmap_page` is one update of the translation.** -/
theorem translate_unmapped (h : PagingInv L m) {v : Word} (hv : (pageOf v).1 ≠ 1023#10)
    (q : Page) :
    (unmapped L m v).translate q = if q = pageOf v then none else m.translate q := by
  rw [unmapped]
  split
  · next hs =>
    rw [h.translate_setLeaf hv (h.present_of_translate hs), and_not_present_absent]
    rfl
  · next hs =>
    split
    · next hq => rw [hq]; simpa using hs
    · rfl

end Map

end MVK
