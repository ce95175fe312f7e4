import Mathlib.Algebra.Order.BigOperators.Group.Finset
import Mathlib.Order.Interval.Finset.Nat
import MVK.Regions

/-!
# The invariant of the allocator

The heap in order, and the heap open at one block, which is how a call finds it between
two of its edits.  Each edit is one lemma from the one to the other: opening, the moves
while the heap is open, and closing.  What they are proved against is a page source that
keeps to its contract: it lends ranges that do not overlap, and leaves what it has lent.

## Main definitions

* `PageSource.Honest` — the contract of the hooks.
* `HeapOk` — the heap in order.
* `HeapOpen` — the heap open at one block.
* `KeepsUsed` — the bytes of used blocks stay.

## Main results

* `HeapOk.openUsed`, `HeapOk.take`, `HeapOk.grow` — **opening.**
* `HeapOpen.meltLeft`, `HeapOpen.absorbRight`, `HeapOpen.splitTag` — **the moves.**
* `HeapOpen.closeUsed`, `HeapOpen.returnTag` — **closing.**
-/

namespace MVK

open Tiling Allocator

variable {σ : Type*}

/-- The contract of `liballoc_alloc` and `liballoc_free`.  `lent p ranges` says that in
state `p` the ranges are lent. -/
structure PageSource.Honest (src : PageSource σ) (lent : σ → Multiset PageRange → Prop) :
    Prop where
  alloc : ∀ {n p mem base p' mem' ranges}, lent p ranges →
    src.liballocAlloc n p mem = some (base, p', mem') →
    (∀ r ∈ ranges, r.Keeps mem mem') ∧
      (base = 0 ∧ lent p' ranges ∨
        base ≠ 0 ∧ (PageRange.mk base n).stop ≤ 2 ^ 32 ∧
          (∀ r ∈ ranges, (PageRange.mk base n).Apart r) ∧ lent p' (⟨base, n⟩ ::ₘ ranges))
  free : ∀ {r p mem p' mem' ranges}, lent p (r ::ₘ ranges) →
    src.liballocFree r.base r.pages p mem = some (p', mem') →
    (∀ r ∈ ranges, r.Keeps mem mem') ∧ lent p' ranges

/-- The region is one free block, in list `i`. -/
def Region.wholeIn (R : Region) (i : Word) : Bool := R.blocks.map HeapBlock.index == [i]

/-- The pages of some regions. -/
def rangesOf (regions : List Region) : Multiset PageRange := regions.map Region.toPageRange

/-- The blocks of some regions. -/
abbrev allBlocks (regions : List Region) : List HeapBlock :=
  (regions.map Region.blocks).flatten

/-- The counts of whole regions, and the pages behind the regions. -/
structure Backed (lent : σ → Multiset PageRange → Prop) (s : Allocator σ) (regions : List Region)
    (ranges : Multiset PageRange) : Prop where
  counts : ∀ i, i < maxExp →
    s.completePages i = BitVec.ofNat 32 (regions.countP (·.wholeIn i))
  few : ∀ i, i < maxExp → regions.countP (·.wholeIn i) ≤ maxComplete.toNat
  lent : lent s.pages ranges

/-- **The heap in order.** -/
structure HeapOk (lent : σ → Multiset PageRange → Prop) (s : Allocator σ) (regions : List Region)
    (bins : Word → List Word) : Prop extends Backed lent s regions (rangesOf regions) where
  lists : TagLists s (regions.map Region.blocks) bins
  apart : regions.Pairwise fun R R' => R.toPageRange.Apart R'.toPageRange

/-- **The heap open** at the block `m` of the range `p`. -/
structure HeapOpen (lent : σ → Multiset PageRange → Prop) (s : Allocator σ) (p : PageRange)
    (A : List HeapBlock) (m : HeapBlock) (B : List HeapBlock) (rest : List Region)
    (bins : Word → List Word) : Prop extends Backed lent s rest (p ::ₘ rangesOf rest) where
  lists : TagLists s ((A ++ m :: B) :: rest.map Region.blocks) bins
  row : OpenRow p A m B
  apart : ∀ R ∈ rest, p.Apart R.toPageRange
  rest_apart : rest.Pairwise fun R R' => R.toPageRange.Apart R'.toPageRange

variable {lent : σ → Multiset PageRange → Prop} {s s' : Allocator σ} {p : PageRange}
  {A B bs : List HeapBlock} {l m r b c : HeapBlock} {R : Region} {regions rest : List Region}
  {ranges : Multiset PageRange} {bins bins' : Word → List Word} {i : Word}

/-! ### Used blocks -/

/-- The used blocks among `bs`. -/
def usedOf (bs : List HeapBlock) : Multiset HeapBlock :=
  Multiset.filter (fun b => ¬ b.Free) bs

/-- The used blocks of an open heap, but for the block it is open at. -/
abbrev usedBeside (A B : List HeapBlock) (rest : List Region) : Multiset HeapBlock :=
  usedOf (A ++ B ++ allBlocks rest)

/-- The bytes of the used blocks `U` stay. -/
def KeepsUsed (U : Multiset HeapBlock) (mem mem' : Memory) : Prop :=
  ∀ b ∈ U, ∀ a, b.Interior a → mem' a = mem a

@[simp] theorem mem_usedOf : b ∈ usedOf bs ↔ b ∈ bs ∧ ¬ b.Free := by
  rw [usedOf, Multiset.mem_filter, Multiset.mem_coe]

theorem usedOf_perm (h : A.Perm B) : usedOf A = usedOf B := by
  rw [usedOf, usedOf, Multiset.coe_eq_coe.mpr h]

theorem usedOf_focus_of_used (hused : ¬ b.Free) : usedOf (A ++ b :: B) = b ::ₘ usedOf (A ++ B) := by
  rw [usedOf_perm List.perm_middle]
  exact Multiset.filter_cons_of_pos (p := fun b : HeapBlock => ¬ b.Free) (A ++ B) hused

theorem usedOf_focus_of_free (hfree : b.Free) : usedOf (A ++ b :: B) = usedOf (A ++ B) := by
  rw [usedOf_perm List.perm_middle]
  exact Multiset.filter_cons_of_neg (p := fun b : HeapBlock => ¬ b.Free) (A ++ B)
    (not_not.mpr hfree)

theorem usedOf_allBlocks_of_used (hR : R.blocks = A ++ b :: B) (hused : ¬ b.Free) :
    usedOf (allBlocks (R :: rest)) = b ::ₘ usedBeside A B rest := by
  rw [allBlocks, List.map_cons, List.flatten_cons, hR, List.append_assoc, List.cons_append,
    usedOf_focus_of_used hused, usedBeside, List.append_assoc]

theorem usedOf_allBlocks_of_free (hR : R.blocks = A ++ b :: B) (hfree : b.Free) :
    usedOf (allBlocks (R :: rest)) = usedBeside A B rest := by
  rw [allBlocks, List.map_cons, List.flatten_cons, hR, List.append_assoc, List.cons_append,
    usedOf_focus_of_free hfree, usedBeside, List.append_assoc]

/-- A free neighbour does not count. -/
theorem usedBeside_left (hl : l.Free) : usedBeside (A ++ [l]) B rest = usedBeside A B rest := by
  rw [usedBeside, usedBeside, List.append_assoc A, List.singleton_append, List.append_assoc A,
    List.cons_append, usedOf_focus_of_free hl, List.append_assoc]

theorem usedBeside_right (hr : r.Free) : usedBeside A (r :: B) rest = usedBeside A B rest := by
  rw [usedBeside, usedBeside, List.append_assoc A, List.cons_append, usedOf_focus_of_free hr,
    List.append_assoc]

section KeepsUsed

variable {U V : Multiset HeapBlock} {mem mem' mem'' : Memory}

theorem KeepsUsed.refl (U : Multiset HeapBlock) (mem : Memory) : KeepsUsed U mem mem :=
  fun _ _ _ _ => rfl

theorem KeepsUsed.trans (h : KeepsUsed U mem mem') (h' : KeepsUsed U mem' mem'') :
    KeepsUsed U mem mem'' :=
  fun b hb a ha => (h' b hb a ha).trans (h b hb a ha)

theorem KeepsUsed.mono (h : KeepsUsed V mem mem') (hsub : U ⊆ V) : KeepsUsed U mem mem' :=
  fun b hb => h b (hsub hb)

end KeepsUsed

/-! ### Counts of whole regions -/

theorem Region.wholeIn_iff (hR : R.blocks = A ++ b :: B) :
    R.wholeIn i = true ↔ (A = [] ∧ B = []) ∧ b.index = i := by
  rw [wholeIn, hR, beq_iff_eq, List.map_append, List.map_cons]
  constructor
  · intro h
    cases A with
    | nil =>
      simp only [List.map_nil, List.nil_append, List.cons.injEq, List.map_eq_nil_iff] at h
      exact ⟨⟨rfl, h.2⟩, h.1⟩
    | cons a A => simp at h
  · rintro ⟨⟨rfl, rfl⟩, rfl⟩
    rfl

/-- A region without a used block is one free block. -/
theorem Region.whole_of_free (R : Region) (h : ∀ b ∈ R.blocks, b.Free) :
    ∃ b, b.Free ∧ R.blocks = [b] := by
  have htiles := R.tiles
  have hcoalesced := R.coalesced
  have hmin := R.minimum
  cases hR : R.blocks with
  | nil =>
    rw [hR, tiles_nil, PageRange.start, PageRange.stop] at htiles
    omega
  | cons b bs =>
    cases bs with
    | nil => exact ⟨b, h b (by simp [hR]), rfl⟩
    | cons c bs =>
      rw [hR, Coalesced, List.isChain_cons_cons] at hcoalesced
      exact absurd ⟨h b (by simp [hR]), h c (by simp [hR])⟩ hcoalesced.1

namespace Backed

theorem congr (h : Backed lent s regions ranges)
    (hcount : s'.completePages = s.completePages) (hpages : s'.pages = s.pages) :
    Backed lent s' regions ranges where
  counts := by
    rw [hcount]
    exact h.counts
  few := h.few
  lent := by
    rw [hpages]
    exact h.lent

/-- A region that is not whole does not count. -/
theorem cons_iff (hnot : ∀ i, i < maxExp → ¬ R.wholeIn i = true) :
    Backed lent s (R :: regions) ranges ↔ Backed lent s regions ranges := by
  have hcount : ∀ i, i < maxExp →
      (R :: regions).countP (·.wholeIn i) = regions.countP (·.wholeIn i) := fun i hi =>
    List.countP_cons_of_neg (hnot i hi)
  constructor
  · intro h
    exact ⟨fun i hi => hcount i hi ▸ h.counts i hi, fun i hi => hcount i hi ▸ h.few i hi, h.lent⟩
  · intro h
    exact ⟨fun i hi => hcount i hi ▸ h.counts i hi, fun i hi => hcount i hi ▸ h.few i hi, h.lent⟩

theorem countP_wholeIn (hR : ∀ j, R.wholeIn j = true ↔ i = j) (j : Word) :
    (R :: regions).countP (·.wholeIn j) =
      regions.countP (·.wholeIn j) + if i = j then 1 else 0 := by
  rw [List.countP_cons]
  simp only [hR]

/-- A whole region is taken. -/
theorem take (h : Backed lent s (R :: regions) ranges) (hR : ∀ j, R.wholeIn j = true ↔ i = j)
    (hpages : s'.pages = s.pages)
    (hcount : s'.completePages = Function.update s.completePages i (s.completePages i - 1)) :
    Backed lent s' regions ranges := by
  refine ⟨?_, ?_, hpages ▸ h.lent⟩
  · intro j hj
    rw [hcount, Function.update_apply]
    have hold := h.counts j hj
    rw [countP_wholeIn hR j] at hold
    split
    · next hji =>
      rw [if_pos hji.symm] at hold
      rw [← hji, hold, BitVec.ofNat_add]
      exact BitVec.add_sub_cancel ..
    · next hji => rwa [if_neg (Ne.symm hji)] at hold
  · intro j hj
    have hold := h.few j hj
    rw [countP_wholeIn hR j] at hold
    exact le_of_add_le_left hold

/-- A whole region is added, where there are not too many. -/
theorem give (h : Backed lent s regions ranges) (hR : ∀ j, R.wholeIn j = true ↔ i = j)
    (hi : i < maxExp) (hfew : s.completePages i ≠ maxComplete) (hpages : s'.pages = s.pages)
    (hcount : s'.completePages = Function.update s.completePages i (s.completePages i + 1)) :
    Backed lent s' (R :: regions) ranges := by
  refine ⟨?_, ?_, hpages ▸ h.lent⟩
  · intro j hj
    rw [hcount, Function.update_apply, countP_wholeIn hR j]
    split
    · next hji =>
      rw [if_pos hji.symm, BitVec.ofNat_add, ← h.counts j hj, hji]
      rfl
    · next hji => rw [if_neg (Ne.symm hji), Nat.add_zero, h.counts j hj]
  · intro j hj
    rw [countP_wholeIn hR j]
    have hold := h.few j hj
    split
    · next hij =>
      subst hij
      have hne : regions.countP (·.wholeIn i) ≠ maxComplete.toNat := by
        intro heq
        refine hfew ?_
        rw [h.counts i hi, heq]
        rfl
      omega
    · exact hold

end Backed

/-! ### What stays in memory -/

section Stays

variable (hapart : regions.Pairwise fun R R' => R.toPageRange.Apart R'.toPageRange)

include hapart

/-- An edit of tags leaves what is in the used blocks. -/
theorem keepsUsed_of_edits (hedits : Edits (tagsOf (allBlocks regions)) s s') :
    KeepsUsed (usedOf (allBlocks regions)) s.mem s'.mem := by
  have hblocks : blocksOf (regions.map fun R => (R.toPageRange, R.blocks)) = allBlocks regions := by
    rw [blocksOf, List.map_map]
    rfl
  intro b hb a ha
  exact (laid_regions hapart).interior (hblocks.symm ▸ hedits.mem)
    (hblocks.symm ▸ (mem_usedOf.mp hb).1) ha

/-- What the heap has in memory is in the lent ranges. -/
theorem get_of_keeps (hkeep : ∀ r ∈ rangesOf regions, r.Keeps s.mem s'.mem) :
    (∀ t ∈ tagsOf (allBlocks regions), ∀ f, s'.get t f = s.get t f) ∧
      KeepsUsed (usedOf (allBlocks regions)) s.mem s'.mem := by
  have hbyte : ∀ b ∈ allBlocks regions, ∀ a : Word, b.start ≤ a.toNat →
      a.toNat < b.start + b.length → s'.mem a = s.mem a := by
    intro b hb a hlo hhi
    obtain ⟨row, hrow, hb⟩ := List.mem_flatten.mp hb
    obtain ⟨R, hR, rfl⟩ := List.mem_map.mp hrow
    have hbounds := R.tiles.bounds hb
    refine hkeep R.toPageRange ?_ a (by omega) (by omega)
    exact Multiset.mem_coe.mpr (List.mem_map_of_mem hR)
  constructor
  · intro t ht f
    obtain ⟨b, hb, rfl⟩ := List.mem_map.mp ht
    have hblocks : b ∈ blocksOf (regions.map fun R => (R.toPageRange, R.blocks)) := by
      rw [blocksOf, List.map_map]
      exact hb
    have hlen := (laid_regions hapart).tag_fits_of_mem hblocks
    have hfit := ((laid_regions hapart).start_pos hblocks).2
    refine field_congr (by change b.start + 32 ≤ _; omega) (fun a ha => ?_) f
    have hin : b.start ≤ a.toNat ∧ a.toNat < b.start + 32 := ha
    exact hbyte b hb a hin.1 (by omega)
  · intro b hb a ha
    exact hbyte b (mem_usedOf.mp hb).1 a (by have := ha.1; omega) ha.2

end Stays

/-- A list is no longer than the counts of what its items are. -/
theorem length_le_sum_countP {α ι : Type*} {P : ι → α → Bool} {I : Finset ι} {l : List α}
    (h : ∀ x ∈ l, ∃ i ∈ I, P i x = true) : l.length ≤ ∑ i ∈ I, l.countP (P i) := by
  induction l with
  | nil => simp
  | cons x l ih =>
    obtain ⟨i, hi, hx⟩ := h x List.mem_cons_self
    have hrest := ih fun y hy => h y (List.mem_cons_of_mem _ hy)
    simp only [List.countP_cons, Finset.sum_add_distrib, List.length_cons]
    have hone : 1 ≤ ∑ j ∈ I, if P j x = true then 1 else 0 := by
      calc 1 = if P i x = true then 1 else 0 := (if_pos hx).symm
        _ ≤ ∑ j ∈ I, if P j x = true then 1 else 0 :=
          Finset.single_le_sum (f := fun j => if P j x = true then 1 else 0)
            (fun _ _ => Nat.zero_le _) hi
    omega

namespace HeapOk

theorem laid (h : HeapOk lent s regions bins) :
    Laid (regions.map fun R => (R.toPageRange, R.blocks)) :=
  laid_regions h.apart

theorem perm {regions' : List Region} (h : HeapOk lent s regions bins)
    (hp : regions.Perm regions') : HeapOk lent s regions' bins where
  counts := fun i hi => by rw [← hp.countP_eq]; exact h.counts i hi
  few := fun i hi => by rw [← hp.countP_eq]; exact h.few i hi
  lent := by
    have hranges : rangesOf regions' = rangesOf regions :=
      Multiset.coe_eq_coe.mpr (hp.symm.map _)
    rw [hranges]
    exact h.lent
  lists := h.lists.perm (hp.map _)
  apart := (hp.pairwise_iff fun hab => Or.symm hab).mp h.apart

/-- One block, its region, and the rest. -/
theorem focus (h : HeapOk lent s regions bins) (hb : b ∈ allBlocks regions) :
    ∃ R rest A B, regions.Perm (R :: rest) ∧ R.blocks = A ++ b :: B ∧
      HeapOk lent s (R :: rest) bins := by
  obtain ⟨row, hrow, hb⟩ := List.mem_flatten.mp hb
  obtain ⟨R, hR, rfl⟩ := List.mem_map.mp hrow
  obtain ⟨A, B, hAB⟩ := List.append_of_mem hb
  obtain ⟨X, Y, rfl⟩ := List.append_of_mem hR
  have hp : (X ++ R :: Y).Perm (R :: (X ++ Y)) := List.perm_middle
  exact ⟨R, X ++ Y, A, B, hp, hAB, h.perm hp⟩

/-- There are not many regions that are whole. -/
theorem length_le (h : HeapOk lent s regions bins)
    (hwhole : ∀ R ∈ regions, ∃ b, b.Free ∧ R.blocks = [b]) : regions.length ≤ 5 * 24 := by
  have hin : ∀ R ∈ regions, ∃ i ∈ Finset.Ico 8 32, R.wholeIn (BitVec.ofNat 32 i) = true := by
    intro R hR
    obtain ⟨b, hfree, hb⟩ := hwhole R hR
    have hindex := (R.sound b (by simp [hb])).index_eq hfree
    have hbounds := toNat_clampExp_getexp (b.realSize - tagSize)
    rw [← hindex] at hbounds
    refine ⟨b.index.toNat, Finset.mem_Ico.mpr hbounds, ?_⟩
    rw [Region.wholeIn_iff (A := []) (B := []) hb, BitVec.ofNat_toNat, BitVec.setWidth_eq]
    exact ⟨⟨rfl, rfl⟩, rfl⟩
  calc regions.length ≤ ∑ i ∈ Finset.Ico 8 32, regions.countP (·.wholeIn (BitVec.ofNat 32 i)) :=
        length_le_sum_countP hin
    _ ≤ ∑ _i ∈ Finset.Ico 8 32, 5 := by
        refine Finset.sum_le_sum fun i hi => h.few (BitVec.ofNat 32 i) ?_
        have hlt := (Finset.mem_Ico.mp hi).2
        rw [BitVec.lt_def, BitVec.toNat_ofNat]
        change i % 2 ^ 32 < 32
        omega
    _ = 5 * 24 := by
        rw [Finset.sum_const, Nat.card_Ico]
        rfl

/-- What the state holds besides the heap does not matter. -/
theorem congr (h : HeapOk lent s regions bins) (hmem : s'.mem = s.mem)
    (hpages : s'.pages = s.pages) (hfree : s'.freePages = s.freePages)
    (hcount : s'.completePages = s.completePages) : HeapOk lent s' regions bins where
  toBacked := h.toBacked.congr hcount hpages
  lists := h.lists.congr (fun t _ f => by rw [Allocator.get, Allocator.get, hmem])
    fun i _ => congrFun hfree i
  apart := h.apart

/-- **Opening** the heap at a used block. -/
theorem openUsed (h : HeapOk lent s (R :: rest) bins) (hR : R.blocks = A ++ b :: B)
    (hused : ¬ b.Free) : HeapOpen lent s R.toPageRange A b B rest bins where
  toBacked := by
    refine (Backed.cons_iff ?_).mp h.toBacked
    intro i hi hwhole
    exact TagLists.ne_neg_one_of_lt hi
      (((Region.wholeIn_iff hR).mp hwhole).2.symm.trans (not_not.mp hused))
  lists := by
    have hlists := h.lists
    rwa [List.map_cons, hR] at hlists
  row := by
    have hindex : b.index = -1 := not_not.mp hused
    have hb : { b with size := b.size, index := -1 } = b := by rw [← hindex]
    exact hb ▸ R.openRow hR b.size
  apart := (List.pairwise_cons.mp h.apart).1
  rest_apart := (List.pairwise_cons.mp h.apart).2

end HeapOk

namespace HeapOpen

theorem laid (h : HeapOpen lent s p A m B rest bins) :
    Laid ((p, A ++ m :: B) :: rest.map fun R => (R.toPageRange, R.blocks)) := by
  refine h.row.laid (laid_regions h.rest_apart) ?_
  intro x hx
  obtain ⟨R, hR, rfl⟩ := List.mem_map.mp hx
  exact h.apart R hR

theorem blocksOf_eq (p : PageRange) (row : List HeapBlock) (rest : List Region) :
    blocksOf ((p, row) :: rest.map fun R => (R.toPageRange, R.blocks)) =
      (row :: rest.map Region.blocks).flatten := by
  rw [blocksOf, List.map_cons, List.map_map]
  rfl

theorem keeps (h : HeapOpen lent s p A m B rest bins)
    (hedits : Edits (tagsOf ((A ++ m :: B) :: rest.map Region.blocks).flatten) s s') :
    KeepsUsed (usedBeside A B rest) s.mem s'.mem := by
  have hblocks := blocksOf_eq p (A ++ m :: B) rest
  intro b hb a ha
  refine h.laid.interior (hblocks.symm ▸ hedits.mem) (hblocks.symm ▸ ?_) ha
  have hmem := (mem_usedOf.mp hb).1
  rw [List.mem_append, List.mem_append, or_assoc] at hmem
  exact TagLists.mem_flatten_focus.mpr (Or.inr hmem)

end HeapOpen

namespace Allocator

/-- What `malloc` does with a tag that it found in list `index`. -/
def takeTag (s : Allocator σ) (tag index : Word) : Allocator σ :=
  let s := s.removeTag tag
  if s.get tag .splitLeft = 0 ∧ s.get tag .splitRight = 0 then
    s.setCompletePages index (s.completePages index - 1)
  else s

end Allocator

/-- **Taking** a free block out of its list. -/
theorem HeapOk.take (h : HeapOk lent s (R :: rest) bins) (hR : R.blocks = A ++ b :: B)
    (hfree : b.Free) :
    HeapOpen lent (s.takeTag b.tag b.index) R.toPageRange A { b with index := -1 } B rest
        (Function.update bins b.index ((bins b.index).erase b.tag)) ∧
      KeepsUsed (usedBeside A B rest) s.mem (s.takeTag b.tag b.index).mem ∧
      ∀ c ∈ B.head?, ¬ c.Free := by
  have hlists := h.lists
  rw [List.map_cons, hR] at hlists
  have hb : b ∈ ((A ++ b :: B) :: rest.map Region.blocks).flatten :=
    TagLists.mem_flatten_focus.mpr (Or.inl rfl)
  have hsound := R.sound b (by rw [hR]; simp)
  have hi : b.index < maxExp := hsound.index_eq hfree ▸ clampExp_getexp_lt _
  have hremoved := hlists.removeTag hfree hi
  have hedits := hlists.edits_removeTag ((hlists.listed b hb _).mpr ⟨rfl, hfree⟩)
  -- the region was whole if the block has no neighbour
  have halone : (s.removeTag b.tag).get b.tag .splitLeft = 0 ∧
      (s.removeTag b.tag).get b.tag .splitRight = 0 ↔ A = [] ∧ B = [] :=
    and_congr hremoved.splitLeft_eq_zero_iff hremoved.splitRight_eq_zero_iff
  have hbacked : Backed lent (s.takeTag b.tag b.index) rest (R.toPageRange ::ₘ rangesOf rest) := by
    rw [takeTag]
    split
    · next hzero =>
      refine h.toBacked.take (i := b.index) (fun j => ?_) hedits.pages ?_
      · exact (Region.wholeIn_iff hR).trans (and_iff_right (halone.mp hzero))
      · change Function.update (s.removeTag b.tag).completePages _ _ = _
        rw [hedits.completePages]
    · next hzero =>
      refine ((Backed.cons_iff ?_).mp h.toBacked).congr hedits.completePages hedits.pages
      exact fun i _ hwhole => hzero (halone.mpr ((Region.wholeIn_iff hR).mp hwhole).1)
  have htake : (s.takeTag b.tag b.index).mem = (s.removeTag b.tag).mem ∧
      (s.takeTag b.tag b.index).freePages = (s.removeTag b.tag).freePages := by
    rw [takeTag]
    split
    · exact ⟨rfl, rfl⟩
    · exact ⟨rfl, rfl⟩
  have hopen : HeapOpen lent (s.takeTag b.tag b.index) R.toPageRange A { b with index := -1 } B
      rest (Function.update bins b.index ((bins b.index).erase b.tag)) := {
    toBacked := hbacked
    lists := hremoved.congr (fun t _ f => by rw [Allocator.get, Allocator.get, htake.1])
      fun i _ => congrFun htake.2 i
    row := R.openRow hR b.size
    apart := (List.pairwise_cons.mp h.apart).1
    rest_apart := (List.pairwise_cons.mp h.apart).2 }
  refine ⟨hopen, ?_, ((coalesced_focus.mp (hR ▸ R.coalesced)).2.2 hfree).2⟩
  rw [htake.1]
  rw [← usedOf_allBlocks_of_free hR hfree]
  exact keepsUsed_of_edits h.apart (by rwa [allBlocks, List.map_cons, hR])

/-! ### A new region -/

/-- The length of a new region does not wrap. -/
theorem toNat_pages_mul {n : Word} (h : 4096 * n.toNat < 2 ^ 32) :
    (n * lPageSize).toNat = 4096 * n.toNat := by
  rw [BitVec.toNat_mul, Nat.mod_eq_of_lt]
  · exact Nat.mul_comm ..
  · change n.toNat * 4096 < 2 ^ 32
    omega

/-- **Growing** the heap by a region that the page source lends. -/
theorem HeapOk.grow {src : PageSource σ} {base n : Word} {pages : σ} {mem : Memory}
    (h : HeapOk lent s regions bins) (hsrc : src.Honest lent) (hn : 16 ≤ n.toNat)
    (halloc : src.liballocAlloc n s.pages s.mem = some (base, pages, mem)) (size : Word) :
    KeepsUsed (usedOf (allBlocks regions)) s.mem mem ∧
      (base = 0 → HeapOk lent { s with pages, mem } regions bins) ∧
      (base ≠ 0 →
        HeapOpen lent (freshTag { s with pages, mem } base size (n * lPageSize)) ⟨base, n⟩ []
            ⟨base, size, n * lPageSize, -1⟩ [] regions bins ∧
          KeepsUsed (usedOf (allBlocks regions)) s.mem
            (freshTag { s with pages, mem } base size (n * lPageSize)).mem) := by
  obtain ⟨hkeep, hbase⟩ := hsrc.alloc h.lent halloc
  have hgrown := @get_of_keeps σ s { s with pages, mem } regions h.apart hkeep
  obtain ⟨hget, hused⟩ := hgrown
  have hlists : TagLists { s with pages, mem } (regions.map Region.blocks) bins :=
    h.lists.congr hget fun _ _ => rfl
  refine ⟨hused, ?_, ?_⟩
  · intro h0
    have hlent := (hbase.resolve_right fun hne => hne.1 h0).2
    exact ⟨⟨h.counts, h.few, hlent⟩, hlists, h.apart⟩
  · intro hne
    obtain ⟨-, hstop, hapart, hlent⟩ := hbase.resolve_left fun h0 => hne h0.1
    have hpos : 0 < base.toNat := Nat.pos_of_ne_zero fun h0 => hne (BitVec.eq_of_toNat_eq h0)
    have hlength : (n * lPageSize).toNat = 4096 * n.toNat := by
      refine toNat_pages_mul ?_
      rw [PageRange.stop] at hstop
      change base.toNat + 4096 * n.toNat ≤ _ at hstop
      omega
    have hrow : OpenRow ⟨base, n⟩ [] ⟨base, size, n * lPageSize, -1⟩ [] := {
      base_ne_zero := hne
      minimum := hn
      fits := hstop
      tiles := by
        refine ⟨rfl, ?_⟩
        rw [tiles_nil, HeapBlock.length, hlength]
        rfl
      left := .nil
      right := .nil
      sound := fun b hb => by simp at hb
      tag_fits := by
        rw [HeapBlock.length, hlength]
        omega
      detached := rfl }
    have hregions : ∀ R ∈ regions, (PageRange.mk base n).Apart R.toPageRange := fun R hR =>
      hapart _ (Multiset.mem_coe.mpr (List.mem_map_of_mem hR))
    have hlaid := hrow.laid h.laid fun x hx => by
      obtain ⟨R, hR, rfl⟩ := List.mem_map.mp hx
      exact hregions R hR
    have hblocks := HeapOpen.blocksOf_eq ⟨base, n⟩ [⟨base, size, n * lPageSize, -1⟩] regions
    have hspaced := hlaid.spaced
    rw [List.nil_append, hblocks] at hspaced
    have hfresh := hlists.freshTag hspaced size (n * lPageSize)
    have hedits := edits_freshTag (s := { s with pages, mem }) hspaced List.mem_cons_self size
      (n * lPageSize)
    have hopen : HeapOpen lent (freshTag { s with pages, mem } base size (n * lPageSize)) ⟨base, n⟩
        [] ⟨base, size, n * lPageSize, -1⟩ [] regions bins :=
      ⟨⟨h.counts, h.few, hlent⟩, hfresh, hrow, hregions, h.apart⟩
    refine ⟨hopen, hused.trans ?_⟩
    intro b hb a ha
    refine hlaid.interior ?_ ?_ ha
    · rw [List.nil_append, hblocks]
      exact hedits.mem
    · rw [List.nil_append, hblocks]
      exact List.mem_cons_of_mem _ (mem_usedOf.mp hb).1

/-! ### The moves -/

/-- The pages of a region that is one block. -/
theorem OpenRow.pagesOf_whole (h : OpenRow p [] m []) :
    m.tag = p.base ∧ pagesOf m.realSize = p.pages := by
  obtain ⟨hstart, hstop⟩ := h.tiles
  rw [tiles_nil, HeapBlock.length, PageRange.stop, PageRange.start] at hstop
  have hmin := h.minimum
  have hlt := m.realSize.isLt
  refine ⟨BitVec.eq_of_toNat_eq hstart, BitVec.eq_of_toNat_eq ?_⟩
  have hsize : lPageSize.toNat = 4096 := rfl
  have hcount : lPageCount.toNat = 16 := rfl
  have hmod : m.realSize % lPageSize = 0 := by
    refine BitVec.eq_of_toNat_eq ?_
    rw [BitVec.toNat_umod, hsize]
    change _ = 0
    omega
  have hdiv : (m.realSize / lPageSize).toNat = p.pages.toNat := by
    rw [BitVec.toNat_udiv, hsize]
    omega
  have hge : ¬ m.realSize / lPageSize < lPageCount := by
    rw [BitVec.lt_def]
    omega
  rw [pagesOf, if_neg (not_not.mpr hmod), if_neg hge, hdiv]

namespace HeapOpen

theorem setSize (h : HeapOpen lent s p A m B rest bins) (v : Word) :
    HeapOpen lent (s.set m.tag .size v) p A { m with size := v } B rest bins ∧
      KeepsUsed (usedBeside A B rest) s.mem (s.set m.tag .size v).mem := by
  have hm : m.tag ∈ tagsOf ((A ++ m :: B) :: rest.map Region.blocks).flatten :=
    TagLists.tag_mem (TagLists.mem_flatten_focus.mpr (Or.inl rfl))
  have htiles := tiles_focus.mp h.row.tiles
  refine ⟨?_, h.keeps ((Edits.refl _ s).set h.lists.spaced hm v)⟩
  exact {
    toBacked := h.toBacked.congr rfl rfl
    lists := h.lists.setSize v
    row := { h.row with
      tiles := tiles_focus.mpr htiles
      tag_fits := h.row.tag_fits
      detached := h.row.detached }
    apart := h.apart
    rest_apart := h.rest_apart }

/-- **Melting** the open block into a free one on its left. -/
theorem meltLeft (h : HeapOpen lent s p (A ++ [l]) m B rest bins) (hl : l.Free) :
    (s.meltLeft m.tag).1 = l.tag ∧
      HeapOpen lent ((s.meltLeft m.tag).2.removeTag l.tag) p A
        { l with realSize := l.realSize + m.realSize, index := -1 } B rest
        (Function.update bins l.index ((bins l.index).erase l.tag)) ∧
      KeepsUsed (usedBeside A B rest) s.mem ((s.meltLeft m.tag).2.removeTag l.tag).mem := by
  have hrow : (A ++ [l]) ++ m :: B = A ++ l :: m :: B := by simp
  have hlists := hrow ▸ h.lists
  obtain ⟨htag, hmelted⟩ := hlists.meltLeft h.row.detached
  have hi : l.index < maxExp :=
    (h.row.sound l (Or.inl (by simp))).index_eq hl ▸ clampExp_getexp_lt _
  have hlb : { l with realSize := l.realSize + m.realSize } ∈
      ((A ++ { l with realSize := l.realSize + m.realSize } :: B) ::
        rest.map Region.blocks).flatten := TagLists.mem_flatten_focus.mpr (Or.inl rfl)
  have hremoved := hmelted.removeTag hl hi
  have hedits := hlists.edits_meltLeft.trans
    ((hmelted.edits_removeTag ((hmelted.listed _ hlb _).mpr ⟨rfl, hl⟩)).mono (by
      intro t ht
      simp only [tagsOf, List.flatten_cons, List.map_append, List.map_cons, List.mem_append,
        List.mem_cons] at ht ⊢
      tauto))
  refine ⟨htag, ?_, ?_⟩
  · exact {
      toBacked := h.toBacked.congr hedits.completePages hedits.pages
      lists := hremoved
      row := h.row.meltLeft
      apart := h.apart
      rest_apart := h.rest_apart }
  · exact usedBeside_left hl ▸ h.keeps (by rwa [hrow])

/-- **Absorbing** a free block on the right. -/
theorem absorbRight (h : HeapOpen lent s p A m (r :: B) rest bins) (hr : r.Free) :
    (s.absorbRight m.tag).1 = m.tag ∧
      HeapOpen lent (s.absorbRight m.tag).2 p A { m with realSize := m.realSize + r.realSize } B
        rest (Function.update bins r.index ((bins r.index).erase r.tag)) ∧
      KeepsUsed (usedBeside A B rest) s.mem (s.absorbRight m.tag).2.mem := by
  have hrow : A ++ m :: r :: B = (A ++ [m]) ++ r :: B := by simp
  have hlists := hrow ▸ h.lists
  have hr' : r ∈ (((A ++ [m]) ++ r :: B) :: rest.map Region.blocks).flatten :=
    TagLists.mem_flatten_focus.mpr (Or.inl rfl)
  have hi : r.index < maxExp :=
    (h.row.sound r (Or.inr List.mem_cons_self)).index_eq hr ▸ clampExp_getexp_lt _
  have hremoved := hlists.removeTag hr hi
  have hedits := hlists.edits_removeTag ((hlists.listed r hr' _).mpr ⟨rfl, hr⟩)
  have hright : s.get m.tag .splitRight = r.tag := h.lists.row_neighbours.2
  have hleft : (s.removeTag r.tag).get r.tag .splitLeft = m.tag := by
    have hneighbours := hremoved.row_neighbours.1
    rwa [List.getLast?_append, List.getLast?_singleton, Option.some_or, Option.map_some,
      Option.getD_some] at hneighbours
  have hremoved' := hremoved
  rw [List.append_assoc, List.singleton_append] at hremoved'
  obtain ⟨htag, hmelted⟩ := hremoved'.meltLeft rfl
  rw [absorbRight_eq (by rw [hright]; exact hleft), hright]
  have hedits' := hedits.trans (hremoved'.edits_meltLeft.mono (by
    intro t ht
    simp only [tagsOf, List.flatten_cons, List.map_append, List.map_cons, List.mem_append,
      List.mem_cons] at ht ⊢
    tauto))
  refine ⟨htag, ?_, ?_⟩
  · exact {
      toBacked := h.toBacked.congr hedits'.completePages hedits'.pages
      lists := hmelted
      row := h.row.absorbRight
      apart := h.apart
      rest_apart := h.rest_apart }
  · exact usedBeside_right hr ▸ h.keeps (by rwa [hrow])

/-- **Closing** the heap at a block that is in use. -/
theorem closeUsed (h : HeapOpen lent s p A m B rest bins) (hroom : m.size.toNat + 32 ≤ m.length) :
    ∃ R : Region, R.blocks = A ++ m :: B ∧ HeapOk lent s (R :: rest) bins := by
  have hused : ¬ m.Free := not_not.mpr h.row.detached
  have hsound : m.Sound := ⟨h.row.tag_fits, fun _ => hroom, fun hfree => absurd hfree hused⟩
  refine ⟨h.row.close m rfl rfl hsound (fun hfree => absurd hfree hused), rfl, ?_⟩
  refine ⟨(Backed.cons_iff ?_).mpr h.toBacked, h.lists,
    List.pairwise_cons.mpr ⟨h.apart, h.rest_apart⟩⟩
  intro i hi hwhole
  exact TagLists.ne_neg_one_of_lt hi
    (((Region.wholeIn_iff rfl).mp hwhole).2.symm.trans h.row.detached)

/-- Where `split_tag` cuts the open block: what stays is what was asked for, with its tag. -/
theorem split_sizes (h : HeapOpen lent s p A m B rest bins)
    (hroom : m.size.toNat + 64 ≤ m.length) :
    (s.newTag m.tag).toNat = m.start + (m.size + tagSize).toNat ∧
      (m.size + tagSize).toNat = m.size.toNat + 32 ∧
      (m.size + tagSize).toNat + (s.remainder m.tag).toNat = m.length ∧
      m.realSize - s.remainder m.tag = m.size + tagSize := by
  have hm := h.lists.blockAt m (TagLists.mem_flatten_focus.mpr (Or.inl rfl))
  have hbounds := h.row.bounds (b := m) (by simp)
  have hfits := h.row.fits
  have hsize := m.size.isLt
  have htag32 : tagSize.toNat = 32 := rfl
  have hstart : m.tag.toNat = m.start := rfl
  have hlen : m.realSize.toNat = m.length := rfl
  have hsub : (m.realSize - tagSize).toNat = m.length - 32 := by
    rw [BitVec.toNat_sub_of_le (by rw [BitVec.le_def]; omega)]
    rfl
  have hremainder : (s.remainder m.tag).toNat = m.length - 32 - m.size.toNat := by
    rw [remainder, hm.realSize, hm.size, BitVec.toNat_sub_of_le (by rw [BitVec.le_def]; omega),
      hsub]
  have hsum : (m.size + tagSize).toNat = m.size.toNat + 32 := by
    rw [BitVec.toNat_add, htag32]
    omega
  have hnew : (s.newTag m.tag).toNat = m.start + (m.size.toNat + 32) := by
    rw [newTag, hm.size, BitVec.toNat_add, BitVec.toNat_add, htag32, hstart]
    omega
  refine ⟨hnew.trans (by rw [hsum]), hsum, by omega, BitVec.eq_of_toNat_eq ?_⟩
  rw [hsum, BitVec.toNat_sub_of_le (by rw [BitVec.le_def]; omega)]
  omega

/-- **Cutting** what is not used off the end of the open block. -/
theorem splitTag (h : HeapOpen lent s p A m B rest bins)
    (hroom : m.size.toNat + 64 ≤ m.length) (hnear : ∀ c ∈ B.head?, ¬ c.Free) :
    ∃ R : Region, ∃ n bins', n.Free ∧
      R.blocks = A ++ { m with realSize := m.size + tagSize } :: n :: B ∧
      HeapOk lent (s.splitTag m.tag).2 (R :: rest) bins' ∧
      Edits (tagsOf (allBlocks (R :: rest))) s (s.splitTag m.tag).2 := by
  obtain ⟨hnew, hsum, hremainder, hkept⟩ := h.split_sizes hroom
  let i := clampExp (getexp (s.remainder m.tag - tagSize))
  let n : HeapBlock := ⟨s.newTag m.tag, s.get (s.newTag m.tag) .size, s.remainder m.tag, i⟩
  have hi : i < maxExp := clampExp_getexp_lt _
  have hn : n.Free := TagLists.ne_neg_one_of_lt hi
  have hnsound : n.Sound :=
    ⟨by change 32 ≤ (s.remainder m.tag).toNat; omega, fun hused => absurd hn hused, fun _ => rfl⟩
  have hused : ¬ ({ m with realSize := m.size + tagSize } : HeapBlock).Free :=
    not_not.mpr h.row.detached
  have hsound : ({ m with realSize := m.size + tagSize } : HeapBlock).Sound :=
    ⟨by change 32 ≤ (m.size + tagSize).toNat; omega,
      fun _ => by change m.size.toNat + 32 ≤ (m.size + tagSize).toNat; omega,
      fun hfree => absurd hfree hused⟩
  have hcut : OpenRow p (A ++ [{ m with realSize := m.size + tagSize }]) { n with index := -1 } B :=
    h.row.cut rfl hsound hused hnew hremainder
      (by change 32 ≤ (s.remainder m.tag).toNat; omega) rfl
  let R : Region := hcut.close n rfl rfl hnsound fun _ =>
    ⟨fun a ha => by
      rw [List.getLast?_append, List.getLast?_singleton, Option.some_or, Option.mem_some_iff] at ha
      exact ha ▸ hused, hnear⟩
  have hR : R.blocks = A ++ { m with realSize := m.size + tagSize } :: n :: B :=
    List.append_assoc ..
  have hapart : (R :: rest).Pairwise fun R R' => R.toPageRange.Apart R'.toPageRange :=
    List.pairwise_cons.mpr ⟨h.apart, h.rest_apart⟩
  have hblocks : tagsOf (allBlocks (R :: rest)) =
      tagsOf A ++ m.tag :: s.newTag m.tag :: (tagsOf B ++ tagsOf (allBlocks rest)) := by
    rw [allBlocks, List.map_cons, List.flatten_cons, hR]
    simp [tagsOf, n]
  have hperm : (s.newTag m.tag :: tagsOf ((A ++ m :: B) :: rest.map Region.blocks).flatten).Perm
      (tagsOf (allBlocks (R :: rest))) := by
    have hmiddle := (@List.perm_middle _ (s.newTag m.tag) (tagsOf A ++ [m.tag])
      (tagsOf B ++ tagsOf (allBlocks rest))).symm
    rw [hblocks]
    simpa [tagsOf] using hmiddle
  have hspaced :
      Spaced (s.newTag m.tag :: tagsOf ((A ++ m :: B) :: rest.map Region.blocks).flatten) := by
    have hlaid := (laid_regions hapart).spaced
    rw [blocksOf, List.map_map] at hlaid
    exact hlaid.perm hperm.symm
  have hedits := (h.lists.edits_splitTag hspaced hi).mono hperm.subset
  have hlists := h.lists.splitTag hspaced hi
  rw [hkept] at hlists
  have hbacked : Backed lent (s.splitTag m.tag).2 (R :: rest) (p ::ₘ rangesOf rest) := by
    refine (Backed.cons_iff ?_).mpr (h.toBacked.congr hedits.completePages hedits.pages)
    intro j _ hwhole
    exact absurd ((Region.wholeIn_iff hR).mp hwhole).1.2 (List.cons_ne_nil _ _)
  refine ⟨R, n, Function.update bins i (s.newTag m.tag :: bins i), hn, hR, ⟨hbacked, ?_, hapart⟩,
    hedits⟩
  rw [List.map_cons, hR]
  exact hlists

/-- **Closing** the heap at a block that is free, between blocks that are not. -/
theorem closeFree (h : HeapOpen lent s p A m B rest bins) {i : Word}
    (hi : i = clampExp (getexp (m.realSize - tagSize)))
    (hleft : ∀ a ∈ A.getLast?, ¬ a.Free) (hright : ∀ c ∈ B.head?, ¬ c.Free) :
    ∃ R : Region, R.blocks = A ++ { m with index := i } :: B ∧ R.toPageRange = p ∧
      TagLists (s.insertTag m.tag i) ((R :: rest).map Region.blocks)
        (Function.update bins i (m.tag :: bins i)) ∧
      Edits (tagsOf (allBlocks (R :: rest))) s (s.insertTag m.tag i) := by
  have hlt : i < maxExp := hi ▸ clampExp_getexp_lt _
  have hslt : i.slt 0 = false := by
    refine slt_zero_of_lt (lt_trans ?_ (by decide : 32 < 2 ^ 31))
    exact hi ▸ (toNat_clampExp_getexp _).2
  have hreal : s.realIndex m.tag i = i := by
    rw [realIndex, hslt, if_neg (by decide)]
  have hfree : ({ m with index := i } : HeapBlock).Free := TagLists.ne_neg_one_of_lt hlt
  have hsound : ({ m with index := i } : HeapBlock).Sound :=
    ⟨h.row.tag_fits, fun hused => absurd hfree hused, fun _ => hi⟩
  have hinsert := h.lists.insertTag h.row.detached (i := i) (hreal.symm ▸ hlt)
  have hedits := h.lists.edits_insertTag (b := m) (i := i)
    (TagLists.mem_flatten_focus.mpr (Or.inl rfl)) (hreal.symm ▸ hlt)
  rw [hreal] at hinsert
  refine ⟨h.row.close { m with index := i } rfl rfl hsound fun _ => ⟨hleft, hright⟩, rfl, rfl,
    hinsert, hedits.mono ?_⟩
  rw [allBlocks, List.map_cons]
  simp [OpenRow.close, tagsOf]

/-- **What the end of `free` does**: the block is free, and if its region is whole and there
are as many as are kept, the region goes back as it was lent. -/
theorem returnTag {src : PageSource σ} (h : HeapOpen lent s p A m B rest bins)
    (hsrc : src.Honest lent) (hleft : ∀ a ∈ A.getLast?, ¬ a.Free)
    (hright : ∀ c ∈ B.head?, ¬ c.Free) (hret : s.returnTag src m.tag = some s') :
    (∃ regions bins', HeapOk lent s' regions bins' ∧
        usedOf (allBlocks regions) = usedBeside A B rest) ∧
      KeepsUsed (usedBeside A B rest) s.mem s'.mem := by
  have hm := h.lists.blockAt m (TagLists.mem_flatten_focus.mpr (Or.inl rfl))
  have halone : s.get m.tag .splitLeft = 0 ∧ s.get m.tag .splitRight = 0 ↔ A = [] ∧ B = [] :=
    and_congr h.lists.splitLeft_eq_zero_iff h.lists.splitRight_eq_zero_iff
  rw [Allocator.returnTag] at hret
  simp only [hm.realSize] at hret
  have hi : clampExp (getexp (m.realSize - tagSize)) < maxExp := clampExp_getexp_lt _
  obtain ⟨R, hR, hp, hlists, hedits⟩ := h.closeFree rfl hleft hright
  generalize clampExp (getexp (m.realSize - tagSize)) = i at *
  have hfree : ({ m with index := i } : HeapBlock).Free := TagLists.ne_neg_one_of_lt hi
  have hapart : (R :: rest).Pairwise fun R R' => R.toPageRange.Apart R'.toPageRange :=
    List.pairwise_cons.mpr ⟨hp ▸ h.apart, h.rest_apart⟩
  have hused : usedOf (allBlocks (R :: rest)) = usedBeside A B rest :=
    usedOf_allBlocks_of_free hR hfree
  have hkeep : KeepsUsed (usedBeside A B rest) s.mem (s.insertTag m.tag i).mem :=
    hused ▸ keepsUsed_of_edits hapart hedits
  -- the heap with the block in list `i`, whatever the counts are
  have hok : ∀ s' : Allocator σ, s'.mem = (s.insertTag m.tag i).mem →
      s'.freePages = (s.insertTag m.tag i).freePages →
      Backed lent s' (R :: rest) (p ::ₘ rangesOf rest) →
      HeapOk lent s' (R :: rest) (Function.update bins i (m.tag :: bins i)) := by
    intro s' hmem hhead hbacked
    subst hp
    exact ⟨hbacked, hlists.congr (fun t _ f => by rw [Allocator.get, Allocator.get, hmem])
      fun i _ => congrFun hhead i, hapart⟩
  split at hret
  · next hzero =>
    obtain ⟨rfl, rfl⟩ := halone.mp hzero
    split at hret
    · -- too many are kept already
      obtain ⟨htag, hpages⟩ := h.row.pagesOf_whole
      rw [htag, hpages] at hret
      split at hret
      · cases hret
      · next pages mem hfreed =>
        obtain rfl := Option.some.inj hret
        obtain ⟨hkept, hlent⟩ := hsrc.free h.lent hfreed
        obtain ⟨hget, hused⟩ := @get_of_keeps σ s { s with pages, mem } rest h.rest_apart hkept
        have hdropped : TagLists { s with pages, mem } (rest.map Region.blocks) bins :=
          (h.lists.dropRow h.row.detached).congr hget fun _ _ => rfl
        have hrest : HeapOk lent { s with pages, mem } rest bins :=
          ⟨⟨h.counts, h.few, hlent⟩, hdropped, h.rest_apart⟩
        exact ⟨⟨rest, bins, hrest.congr rfl rfl rfl rfl, rfl⟩, hused⟩
    · next hcount =>
      obtain rfl := Option.some.inj hret
      rw [insertTag_setCompletePages]
      refine ⟨⟨R :: rest, _, hok _ rfl rfl ?_, hused⟩, hkeep⟩
      refine h.toBacked.give (fun j => ?_) hi hcount hedits.pages ?_
      · exact (Region.wholeIn_iff hR).trans (and_iff_right ⟨rfl, rfl⟩)
      · change Function.update (s.insertTag _ _).completePages _ _ = _
        rw [hedits.completePages]
  · next hzero =>
    obtain rfl := Option.some.inj hret
    refine ⟨⟨R :: rest, _, hok _ rfl rfl ?_, hused⟩, hkeep⟩
    refine (Backed.cons_iff ?_).mpr (h.toBacked.congr hedits.completePages hedits.pages)
    exact fun j _ hwhole => hzero (halone.mpr ((Region.wholeIn_iff hR).mp hwhole).1)

end HeapOpen

end MVK
