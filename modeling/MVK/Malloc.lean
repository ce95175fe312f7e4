import Mathlib.Data.FinEnum.Option
import Mathlib.Data.Fintype.Card
import MVK.AllocatorInv

/-!
# What `malloc` and `free` do

Seen from outside, the heap is its used blocks: `malloc` adds one, `free` takes one away,
and neither touches what is in the others.  A list of free blocks has no node twice, so
the search of `malloc` comes to its end; and since no two neighbours are free, the loops
of `free` go round once at most.

## Main definitions

* `HeapInv lent s U` — the heap is in order, and `U` are its used blocks.

## Main results

* `TagLists.findTag_eq` — **the search finds the first block that is large enough.**
* `malloc_spec`, `free_spec` — **what the calls do.**
* `malloc_isSome`, `free_isSome` — they return if the page source does.
-/

namespace MVK

open Tiling Allocator

variable {σ : Type*} {lent : σ → Multiset PageRange → Prop} {src : PageSource σ}
  {s s' : Allocator σ} {p : PageRange} {A B : List HeapBlock} {l m r b : HeapBlock}
  {regions rest : List Region} {bins : Word → List Word} {U : Multiset HeapBlock} {fuel : ℕ}
  {size ptr : Word}

/-! ### The search -/

/-- The test of the search. -/
def fitsAt (s : Allocator σ) (size tag : Word) : Bool :=
  decide (s.get tag .realSize - tagSize ≥ size + tagSize)

/-- A list of tags is not longer than there are addresses. -/
theorem length_lt_of_nodup {ts : List Word} (h : ts.Nodup) : ts.length < 2 ^ 32 + 1 := by
  have hcard : Fintype.card Word = 2 ^ 32 := by
    rw [← FinEnum.card_eq_fintypeCard, FinEnum.card_bitVec]
  exact Nat.lt_succ_of_le (hcard ▸ h.length_le_card)

/-- The search along the rest of a list. -/
theorem TagLists.findTag_suffix {rows : List (List HeapBlock)} (h : TagLists s rows bins) {i : Word}
    {P Q : List Word} (hPQ : bins i = P ++ Q) (hfuel : Q.length < fuel) :
    s.findTag size fuel (Q.head?.getD 0) = some ((Q.find? (fitsAt s size)).getD 0) := by
  induction Q generalizing P fuel with
  | nil =>
    obtain ⟨n, rfl⟩ := Nat.exists_eq_add_of_lt hfuel
    rw [List.length_nil, Nat.zero_add, findTag]
    exact if_pos rfl
  | cons t Q ih =>
    obtain ⟨n, rfl⟩ : ∃ n, fuel = n + 1 := ⟨fuel - 1, by rw [List.length_cons] at hfuel; omega⟩
    have hlink := h.bin i
    have hne : t ≠ 0 := hlink.ne_nil t (by rw [hPQ]; simp)
    rw [hPQ] at hlink
    have hnext : s.get t .next = Q.head?.getD 0 := hlink.next_eq
    rw [List.head?_cons, Option.getD_some, findTag, if_neg hne, List.find?_cons, fitsAt]
    split
    · next hfits => rw [decide_eq_true hfits, Option.getD_some]
    · next hfits =>
      rw [decide_eq_false hfits, hnext]
      refine ih (P := P ++ [t]) (by simp [hPQ]) ?_
      rw [List.length_cons] at hfuel
      omega

/-- **The search of `malloc`** comes to its end, with the first block of the list that is
large enough. -/
theorem TagLists.findTag_eq {rows : List (List HeapBlock)} (h : TagLists s rows bins) {i : Word}
    (hi : i < maxExp) (hfuel : 2 ^ 32 < fuel) :
    s.findTag size fuel (s.freePages i) = some (((bins i).find? (fitsAt s size)).getD 0) := by
  rw [h.head i hi]
  refine h.findTag_suffix (P := []) rfl ?_
  have hlength := length_lt_of_nodup (h.bin i).nodup
  omega

/-- What the test compares.  The sum is one of words. -/
theorem fitsAt_iff_toNat (hb : BlockAt s b) (hlength : 32 ≤ b.length) :
    fitsAt s size b.tag = true ↔ (size + tagSize).toNat + 32 ≤ b.length := by
  have htag : tagSize.toNat = 32 := rfl
  have hreal : b.realSize.toNat = b.length := rfl
  have hsub : (b.realSize - tagSize).toNat = b.length - 32 := by
    rw [BitVec.toNat_sub_of_le (by rw [BitVec.le_def]; omega), hreal, htag]
  rw [fitsAt, decide_eq_true_iff, hb.realSize, ge_iff_le, BitVec.le_def, hsub]
  omega

theorem toNat_add_tagSize (hsize : size.toNat + 32 < 2 ^ 32) :
    (size + tagSize).toNat = size.toNat + 32 := by
  rw [BitVec.toNat_add, show tagSize.toNat = 32 from rfl]
  omega

theorem fitsAt_iff (hb : BlockAt s b) (hlength : 32 ≤ b.length)
    (hsize : size.toNat + 32 < 2 ^ 32) :
    fitsAt s size b.tag = true ↔ size.toNat + 64 ≤ b.length := by
  rw [fitsAt_iff_toNat hb hlength, toNat_add_tagSize hsize]

/-! ### Use of a block -/

/-- A positive word is one below `2 ^ 31`. -/
theorem toNat_lt_of_slt {w : Word} (h : (0 : Word).slt w = true) : w.toNat < 2 ^ 31 := by
  have hzero : (0 : Word).toInt = 0 := rfl
  rw [BitVec.slt_iff_toInt_lt, hzero, BitVec.toInt_eq_toNat_cond] at h
  have hw := w.isLt
  split at h
  · omega
  · omega

/-- **The end of `malloc`**: the open block is in use, as long as it is or cut to size. -/
theorem HeapOpen.useTag (h : HeapOpen lent s p A m B rest bins) (size : Word)
    (hroom : size.toNat + 32 ≤ m.length) (hnear : ∀ c ∈ B.head?, ¬ c.Free) :
    ∃ b regions bins', (b.tag = m.tag ∧ b.size = size) ∧
      HeapOk lent (s.useTag m.tag size).2 regions bins' ∧
      usedOf (allBlocks regions) = b ::ₘ usedBeside A B rest ∧
      KeepsUsed (usedBeside A B rest) s.mem (s.useTag m.tag size).2.mem := by
  obtain ⟨hsized, hkeep⟩ := h.setSize size
  have hused : ¬ ({ m with size } : HeapBlock).Free := not_not.mpr h.row.detached
  have hreal : (s.set m.tag .size size).get m.tag .realSize = m.realSize :=
    (hsized.lists.blockAt _ (TagLists.mem_flatten_focus.mpr (Or.inl rfl))).realSize
  rw [Allocator.useTag]
  simp only [hreal]
  split
  · next hsplit =>
    -- there are more than the 32 bytes for another tag
    have hlt := toNat_lt_of_slt hsplit.1
    have hlen : m.realSize.toNat = m.length := rfl
    have hsize := size.isLt
    have htag : (tagSize * 2).toNat = 64 := rfl
    have hmore : size.toNat + 64 ≤ m.length := by
      rw [BitVec.toNat_sub, htag, BitVec.toNat_sub, hlen] at hlt
      have hlength := m.realSize.isLt
      omega
    obtain ⟨R, n, bins', hn, hR, hok, hedits⟩ := hsized.splitTag hmore hnear
    have hall : usedOf (allBlocks (R :: rest)) =
        { m with size, realSize := size + tagSize } ::ₘ usedBeside A B rest :=
      usedBeside_right hn ▸ usedOf_allBlocks_of_used hR hused
    refine ⟨{ m with size, realSize := size + tagSize }, R :: rest, bins', ⟨rfl, rfl⟩,
      hok.congr rfl rfl rfl rfl, hall, hkeep.trans ?_⟩
    refine (keepsUsed_of_edits hok.apart hedits).mono ?_
    rw [hall]
    exact Multiset.subset_cons _ _
  · obtain ⟨R, hR, hok⟩ := hsized.closeUsed hroom
    exact ⟨{ m with size }, R :: rest, bins, ⟨rfl, rfl⟩, hok.congr rfl rfl rfl rfl,
      usedOf_allBlocks_of_used hR hused, hkeep⟩

/-! ### The heap from outside -/

/-- **The heap** with the used blocks `U`. -/
structure HeapHolds (lent : σ → Multiset PageRange → Prop) (s : Allocator σ)
    (U : Multiset HeapBlock) : Prop where
  ordered : ∃ regions bins, HeapOk lent s.initLists regions bins ∧ usedOf (allBlocks regions) = U
  untouched : s.initialized = 0 → U = 0

theorem initLists_of_ne (h : s.initialized ≠ 0) : s.initLists = s := if_neg h

theorem initialized_initLists : s.initLists.initialized ≠ 0 := by
  rw [initLists]
  split
  · exact (by decide : (1 : Word) ≠ 0)
  · assumption

theorem initLists_lock : s.lock.initLists = s.initLists.lock := by
  rw [initLists, initLists, apply_ite lock]
  rfl

theorem HeapOk.holds (h : HeapOk lent s regions bins) (hinit : s.initialized ≠ 0) :
    HeapHolds lent s (usedOf (allBlocks regions)) where
  ordered := ⟨regions, bins, (initLists_of_ne hinit).symm ▸ h, rfl⟩
  untouched := fun h0 => absurd h0 hinit

/-- The first call finds no regions and empty lists. -/
theorem HeapOk.nothing (hinit : s.initialized = 0) (hlent : lent s.pages 0) :
    HeapOk lent s.initLists [] fun _ => [] := by
  have hlists : s.initLists = { s with
      freePages := fun i => if i < maxExp then 0 else s.freePages i
      completePages := fun i => if i < maxExp then 0 else s.completePages i
      initialized := 1 } := if_pos hinit
  rw [hlists]
  exact {
    counts := fun i hi => if_pos hi
    few := fun i _ => Nat.zero_le _
    lent := hlent
    lists := {
      spaced := ⟨.nil, fun t ht => absurd ht List.not_mem_nil⟩
      blockAt := fun b hb => absurd hb List.not_mem_nil
      row := fun row hrow => absurd hrow List.not_mem_nil
      bin := fun _ => .empty
      head := fun i hi => if_pos hi
      listed := fun b hb => absurd hb List.not_mem_nil
      tag_of_bin := fun i t ht => absurd ht List.not_mem_nil
      loose := fun b hb => absurd hb List.not_mem_nil }
    apart := .nil }

/-- Before the first call there is no heap. -/
theorem HeapHolds.start (hinit : s.initialized = 0) (hlent : lent s.pages 0) :
    HeapHolds lent s 0 where
  ordered := ⟨[], fun _ => [], .nothing hinit hlent, rfl⟩
  untouched := fun _ => rfl

/-- A block that starts below the last 32 bytes of memory has an address. -/
theorem OpenRow.address_ne_zero (h : OpenRow p A m B) (hlength : 64 ≤ m.length) :
    m.tag + tagSize ≠ 0 := by
  have hbounds := h.bounds (b := m) (by simp)
  have hfits := h.fits
  have hstart : m.tag.toNat = m.start := rfl
  have htag : tagSize.toNat = 32 := rfl
  intro h0
  have hnat := congrArg BitVec.toNat h0
  rw [BitVec.toNat_add, hstart, htag] at hnat
  change _ = 0 at hnat
  omega

/-- What `allocate_new_tag` asks for is enough. -/
theorem pagesFor_enough (hsize : size.toNat + 32 < 2 ^ 32) :
    16 ≤ (pagesFor size).toNat ∧ size.toNat + 32 ≤ 4096 * (pagesFor size).toNat := by
  have htag : tagSize.toNat = 32 := rfl
  have hpage : lPageSize.toNat = 4096 := rfl
  have hcount : lPageCount.toNat = 16 := rfl
  have husage : (size + tagSize).toNat = size.toNat + 32 := by
    rw [BitVec.toNat_add, htag]
    omega
  have hdiv : ((size + tagSize) / lPageSize).toNat = (size.toNat + 32) / 4096 := by
    rw [BitVec.toNat_udiv, husage, hpage]
  have hmod : ((size + tagSize) % lPageSize).toNat = (size.toNat + 32) % 4096 := by
    rw [BitVec.toNat_umod, husage, hpage]
  have hnext : ((size + tagSize) / lPageSize + 1).toNat = (size.toNat + 32) / 4096 + 1 := by
    rw [BitVec.toNat_add, hdiv, toNat_one_word]
    omega
  have hpages : (if (size + tagSize) % lPageSize ≠ 0 then (size + tagSize) / lPageSize + 1
      else (size + tagSize) / lPageSize).toNat * 4096 ≥ size.toNat + 32 := by
    split
    · rw [hnext]
      omega
    · next hzero =>
      have h0 := congrArg BitVec.toNat (not_not.mp hzero)
      rw [hmod] at h0
      change _ = 0 at h0
      rw [hdiv]
      omega
  obtain ⟨pages, henough, heq⟩ : ∃ pages : Word, pages.toNat * 4096 ≥ size.toNat + 32 ∧
      pagesFor size = if pages < lPageCount then lPageCount else pages := ⟨_, hpages, rfl⟩
  rw [heq]
  split
  · next hfew =>
    rw [BitVec.lt_def, hcount] at hfew
    rw [hcount]
    omega
  · next hfew =>
    rw [BitVec.lt_def, hcount] at hfew
    omega

/-! ### `malloc` -/

/-- A block of a list is put to use. -/
theorem HeapOk.useFound {i t : Word} (h : HeapOk lent s regions bins)
    (hfind : (bins i).find? (fitsAt s size) = some t) (hsize : size.toNat + 32 < 2 ^ 32) :
    t ≠ 0 ∧ t + tagSize ≠ 0 ∧
      ∃ b regions' bins', (b.tag = t ∧ b.size = size) ∧
        HeapOk lent ((s.takeTag t i).useTag t size).2 regions' bins' ∧
        usedOf (allBlocks regions') = b ::ₘ usedOf (allBlocks regions) ∧
        KeepsUsed (usedOf (allBlocks regions)) s.mem ((s.takeTag t i).useTag t size).2.mem := by
  have ht : t ∈ bins i := List.mem_of_find?_eq_some hfind
  obtain ⟨b, hb, rfl⟩ := List.mem_map.mp (h.lists.tag_of_bin i t ht)
  obtain ⟨hindex, hne⟩ := (h.lists.listed b hb i).mp ht
  subst hindex
  obtain ⟨R, rest, A, B, hp, hR, hfocus⟩ := h.focus hb
  have hlength : size.toNat + 64 ≤ b.length :=
    (fitsAt_iff (h.lists.blockAt b hb) (R.sound b (by rw [hR]; simp)).tag_fits hsize).mp
      (List.find?_some hfind)
  have hall : usedOf (allBlocks regions) = usedBeside A B rest := by
    rw [usedOf_perm (hp.map Region.blocks).flatten, usedOf_allBlocks_of_free hR hne]
  obtain ⟨hopen, hkeep, hnear⟩ := hfocus.take hR hne
  have hlength' : size.toNat + 64 ≤ ({ b with index := -1 } : HeapBlock).length := hlength
  obtain ⟨b', regions', bins', hb', hok, hused, hkeep'⟩ := hopen.useTag size (by omega) hnear
  refine ⟨(h.lists.spaced.fit _ (TagLists.tag_mem hb)).1,
    hopen.row.address_ne_zero (by omega), b', regions', bins', hb', hok, ?_, ?_⟩
  · rw [hall, hused]
  · rw [hall]
    exact hkeep.trans hkeep'

/-- A new region is put to use. -/
theorem HeapOk.useGrown {base : Word} {pages : σ} {mem : Memory} (h : HeapOk lent s regions bins)
    (hsrc : src.Honest lent) (hsize : size.toNat + 32 < 2 ^ 32)
    (halloc : src.liballocAlloc (pagesFor size) s.pages s.mem = some (base, pages, mem))
    (hne : base ≠ 0) :
    base + tagSize ≠ 0 ∧
      ∃ b regions' bins', (b.tag = base ∧ b.size = size) ∧
        HeapOk lent ((freshTag { s with pages, mem } base size
          (pagesFor size * lPageSize)).useTag base size).2 regions' bins' ∧
        usedOf (allBlocks regions') = b ::ₘ usedOf (allBlocks regions) ∧
        KeepsUsed (usedOf (allBlocks regions)) s.mem ((freshTag { s with pages, mem } base size
          (pagesFor size * lPageSize)).useTag base size).2.mem := by
  obtain ⟨hmin, henough⟩ := pagesFor_enough hsize
  obtain ⟨-, -, hgrow⟩ := h.grow hsrc hmin halloc size
  obtain ⟨hopen, hkeep⟩ := hgrow hne
  have hlength : (HeapBlock.mk base size (pagesFor size * lPageSize) (-1)).length =
      4096 * (pagesFor size).toNat := by
    refine toNat_pages_mul ?_
    have hfits := hopen.row.fits
    have hpos := hopen.row.base_pos
    rw [PageRange.stop] at hfits
    rw [PageRange.start] at hpos
    change base.toNat + 4096 * (pagesFor size).toNat ≤ _ at hfits
    change 0 < base.toNat at hpos
    omega
  obtain ⟨b, regions', bins', hb, hok, hused, hkeep'⟩ := hopen.useTag size (by omega)
    (fun c hc => by simp at hc)
  exact ⟨hopen.row.address_ne_zero (by omega), b, regions', bins', hb, hok, hused,
    hkeep.trans hkeep'⟩

/-- `malloc`, with the search done. -/
theorem malloc_eq (h : HeapOk lent s.initLists regions bins) (hfuel : 2 ^ 32 < fuel) :
    s.malloc src fuel size =
      match (bins (clampExp (getexp size))).find? (fitsAt s.initLists size) with
      | some t => some (((s.initLists.lock).takeTag t (clampExp (getexp size))).useTag t size)
      | none =>
        match src.liballocAlloc (pagesFor size) s.initLists.pages s.initLists.mem with
        | none => none
        | some (base, pages, mem) =>
          if base = 0 then some (0, { s.initLists.lock with pages, mem }.unlock)
          else some ((freshTag { s.initLists.lock with pages, mem } base size
            (pagesFor size * lPageSize)).useTag base size) := by
  have hlock : TagLists s.initLists.lock (regions.map Region.blocks) bins :=
    h.lists.congr (fun _ _ _ => rfl) fun _ _ => rfl
  have hi : clampExp (getexp size + mode) = clampExp (getexp size) := by
    rw [mode]
    exact congrArg clampExp (BitVec.add_zero _)
  rw [Allocator.malloc, initLists_lock, hi,
    hlock.findTag_eq (clampExp_getexp_lt size) hfuel]
  have hfits : fitsAt s.initLists.lock size = fitsAt s.initLists size := rfl
  simp only [hfits]
  cases hfind : (bins (clampExp (getexp size))).find? (fitsAt s.initLists size) with
  | some t =>
    have hne : t ≠ 0 := (h.lists.bin _).ne_nil t (List.mem_of_find?_eq_some hfind)
    simp only [Option.getD_some, hne, if_false]
    rfl
  | none =>
    simp only [Option.getD_none, if_true, allocateNewTag_eq]
    have hpages : s.initLists.lock.pages = s.initLists.pages := rfl
    have hmem : s.initLists.lock.mem = s.initLists.mem := rfl
    rw [hpages, hmem]
    cases src.liballocAlloc (pagesFor size) s.initLists.pages s.initLists.mem with
    | none => rfl
    | some found =>
      obtain ⟨base, pages, mem⟩ := found
      simp only
      by_cases hbase : base = 0
      · simp only [hbase, if_true]
      · simp only [hbase, if_false]

theorem control_takeTag (t i : Word) : (s.takeTag t i).control = s.control := by
  simp [takeTag, apply_ite control]

/-- What a call of `malloc` makes of the flags, whatever the heap is like. -/
theorem malloc_control (hm : s.malloc src fuel size = some (ptr, s')) :
    s'.control = s.initLists.lock.unlock.control := by
  rw [Allocator.malloc, initLists_lock] at hm
  simp only [allocateNewTag_eq] at hm
  split at hm
  · cases hm
  · next tag htag =>
    by_cases h0 : tag = 0
    · simp only [h0, if_true] at hm
      cases halloc : src.liballocAlloc (pagesFor size) s.initLists.lock.pages
          s.initLists.lock.mem with
      | none => simp [halloc] at hm
      | some found =>
        obtain ⟨base, pages, mem⟩ := found
        simp only [halloc] at hm
        by_cases hbase : base = 0
        · simp only [hbase, if_true, Option.some.injEq, Prod.mk.injEq] at hm
          rw [← hm.2]
          rfl
        · simp only [hbase, if_false, Option.some.injEq] at hm
          obtain rfl : s' = _ := (congrArg Prod.snd hm).symm
          rw [control_useTag, unlock_control (control_freshTag ..)]
          rfl
    · simp only [h0, if_false, Option.some.injEq] at hm
      obtain rfl : s' = _ := (congrArg Prod.snd hm).symm
      rw [control_useTag]
      exact unlock_control (control_takeTag ..)

theorem initialized_of_malloc (hm : s.malloc src fuel size = some (ptr, s')) :
    s'.initialized ≠ 0 :=
  (Prod.mk.inj (malloc_control hm)).2 ▸ initialized_initLists

/-- **What `malloc` does**: it fails and leaves the heap, or there is one more used block, of
the size that was asked for.  What is in the others stays. -/
theorem malloc_spec (h : HeapHolds lent s U) (hsrc : src.Honest lent) (hfuel : 2 ^ 32 < fuel)
    (hsize : size.toNat + 32 < 2 ^ 32) (hm : s.malloc src fuel size = some (ptr, s')) :
    KeepsUsed U s.mem s'.mem ∧
      (ptr = 0 ∧ HeapHolds lent s' U ∨
        ptr ≠ 0 ∧ ∃ b, (b.tag + tagSize = ptr ∧ b.size = size) ∧ HeapHolds lent s' (b ::ₘ U)) := by
  obtain ⟨regions, bins, hok, rfl⟩ := h.ordered
  have hmem : s.initLists.mem = s.mem := by
    rw [initLists]
    split <;> rfl
  have hinit := initialized_of_malloc hm
  have hlocked : HeapOk lent s.initLists.lock regions bins := hok.congr rfl rfl rfl rfl
  rw [malloc_eq hok hfuel] at hm
  cases hfind : (bins (clampExp (getexp size))).find? (fitsAt s.initLists size) with
  | some t =>
    simp only [hfind, Option.some.injEq] at hm
    obtain ⟨-, hptr, b, regions', bins', ⟨rfl, hsized⟩, hused, hall, hkeep⟩ :=
      hlocked.useFound hfind hsize
    obtain rfl : s' = _ := (congrArg Prod.snd hm).symm
    obtain rfl : ptr = b.tag + tagSize := (congrArg Prod.fst hm).symm
    exact ⟨hmem ▸ hkeep, Or.inr ⟨hptr, b, ⟨rfl, hsized⟩, hall ▸ hused.holds hinit⟩⟩
  | none =>
    simp only [hfind] at hm
    cases halloc : src.liballocAlloc (pagesFor size) s.initLists.pages s.initLists.mem with
    | none => simp [halloc] at hm
    | some found =>
      obtain ⟨base, pages, mem⟩ := found
      simp only [halloc] at hm
      by_cases hbase : base = 0
      · simp only [hbase, if_true, Option.some.injEq, Prod.mk.injEq] at hm
        obtain ⟨rfl, rfl⟩ := hm
        obtain ⟨hkeep, hfail, -⟩ := hlocked.grow hsrc (pagesFor_enough hsize).1 halloc size
        have hfailed : HeapOk lent { s.initLists.lock with pages, mem }.unlock regions bins :=
          (hfail hbase).congr rfl rfl rfl rfl
        exact ⟨hmem ▸ hkeep, Or.inl ⟨rfl, hfailed.holds hinit⟩⟩
      · simp only [hbase, if_false, Option.some.injEq] at hm
        obtain ⟨hptr, b, regions', bins', ⟨rfl, hsized⟩, hused, hall, hkeep⟩ :=
          hlocked.useGrown hsrc hsize halloc hbase
        obtain rfl : s' = _ := (congrArg Prod.snd hm).symm
        obtain rfl : ptr = b.tag + tagSize := (congrArg Prod.fst hm).symm
        exact ⟨hmem ▸ hkeep, Or.inr ⟨hptr, b, ⟨rfl, hsized⟩, hall ▸ hused.holds hinit⟩⟩

/-- `malloc` returns if the page source does. -/
theorem malloc_isSome (h : HeapHolds lent s U) (hfuel : 2 ^ 32 < fuel)
    (hreturns : ∀ n p mem, (src.liballocAlloc n p mem).isSome) (size : Word) :
    (s.malloc src fuel size).isSome := by
  obtain ⟨regions, bins, hok, -⟩ := h.ordered
  rw [malloc_eq hok hfuel]
  cases (bins (clampExp (getexp size))).find? (fitsAt s.initLists size) with
  | some t => rfl
  | none =>
    obtain ⟨found, hfound⟩ := Option.isSome_iff_exists.mp
      (hreturns (pagesFor size) s.initLists.pages s.initLists.mem)
    simp only [hfound]
    split <;> rfl

/-! ### `free` -/

/-- The test of the first loop of `free`. -/
theorem HeapOpen.left_free_iff (h : HeapOpen lent s p A m B rest bins) :
    s.get m.tag .splitLeft ≠ 0 ∧ ¬ (s.get (s.get m.tag .splitLeft) .index).slt 0 = true ↔
      ∃ A' l, A = A' ++ [l] ∧ l.Free := by
  rw [ne_eq, h.lists.splitLeft_eq_zero_iff]
  constructor
  · rintro ⟨hne, hindex⟩
    obtain ⟨A', l, rfl⟩ := (List.eq_nil_or_concat A).resolve_left hne
    rw [List.concat_eq_append] at *
    have hl := h.lists.blockAt l (by simp)
    have hleft : s.get m.tag .splitLeft = l.tag := by simpa using h.lists.row_neighbours.1
    rw [hleft, hl.index, (h.row.sound l (Or.inl (by simp))).slt_iff, not_not] at hindex
    exact ⟨A', l, rfl, hindex⟩
  · rintro ⟨A', l, rfl, hfree⟩
    have hl := h.lists.blockAt l (by simp)
    have hleft : s.get m.tag .splitLeft = l.tag := by simpa using h.lists.row_neighbours.1
    refine ⟨by simp, ?_⟩
    rw [hleft, hl.index, (h.row.sound l (Or.inl (by simp))).slt_iff]
    exact not_not.mpr hfree

/-- And of the second. -/
theorem HeapOpen.right_free_iff (h : HeapOpen lent s p A m B rest bins) :
    s.get m.tag .splitRight ≠ 0 ∧ ¬ (s.get (s.get m.tag .splitRight) .index).slt 0 = true ↔
      ∃ r B', B = r :: B' ∧ r.Free := by
  rw [ne_eq, h.lists.splitRight_eq_zero_iff]
  constructor
  · rintro ⟨hne, hindex⟩
    obtain ⟨r, B', rfl⟩ := List.exists_cons_of_ne_nil hne
    have hr := h.lists.blockAt r (by simp)
    have hright : s.get m.tag .splitRight = r.tag := by simpa using h.lists.row_neighbours.2
    rw [hright, hr.index, (h.row.sound r (Or.inr (by simp))).slt_iff, not_not] at hindex
    exact ⟨r, B', rfl, hindex⟩
  · rintro ⟨r, B', rfl, hfree⟩
    have hr := h.lists.blockAt r (by simp)
    have hright : s.get m.tag .splitRight = r.tag := by simpa using h.lists.row_neighbours.2
    refine ⟨by simp, ?_⟩
    rw [hright, hr.index, (h.row.sound r (Or.inr (by simp))).slt_iff]
    exact not_not.mpr hfree

/-- The last block is used, if it is not free. -/
theorem getLast_used (h : ¬ ∃ A' l, A = A' ++ [l] ∧ l.Free) : ∀ a ∈ A.getLast?, ¬ a.Free := by
  intro a ha hfree
  obtain ⟨A', rfl⟩ := List.getLast?_eq_some_iff.mp ha
  exact h ⟨A', a, rfl, hfree⟩

theorem head_used (h : ¬ ∃ r B', B = r :: B' ∧ r.Free) : ∀ c ∈ B.head?, ¬ c.Free := by
  intro c hc hfree
  obtain ⟨B', rfl⟩ := List.head?_eq_some_iff.mp hc
  exact h ⟨c, B', rfl, hfree⟩

/-- **The first loop of `free`** goes round once at most. -/
theorem HeapOpen.meltLeftAll (h : HeapOpen lent s p A m B rest bins) (hfuel : 2 ≤ fuel) :
    ∃ A' m' bins' s', meltLeftAll fuel m.tag s = some (m'.tag, s') ∧
      HeapOpen lent s' p A' m' B rest bins' ∧ (∀ a ∈ A'.getLast?, ¬ a.Free) ∧
      usedBeside A' B rest = usedBeside A B rest ∧
      KeepsUsed (usedBeside A B rest) s.mem s'.mem := by
  obtain ⟨n, rfl⟩ : ∃ n, fuel = n + 2 := ⟨fuel - 2, by omega⟩
  by_cases hleft : ∃ A' l, A = A' ++ [l] ∧ l.Free
  · have hgo := h.left_free_iff.mpr hleft
    obtain ⟨A', l, rfl, hfree⟩ := hleft
    obtain ⟨htag, hopen, hkeep⟩ := h.meltLeft hfree
    -- what was melted into had no free neighbour
    have hstop : ¬ ∃ A'' l', A' = A'' ++ [l'] ∧ l'.Free := by
      rintro ⟨A'', l', rfl, hfree'⟩
      exact ((coalesced_focus.mp h.row.left).2.2 hfree).1 l' (by simp) hfree'
    refine ⟨A', _, _, _, ?_, hopen, getLast_used hstop, (usedBeside_left hfree).symm, ?_⟩
    · rw [Allocator.meltLeftAll, if_pos hgo]
      simp only [htag]
      rw [Allocator.meltLeftAll, if_neg (mt hopen.left_free_iff.mp hstop)]
    · rw [usedBeside_left hfree]
      exact hkeep
  · refine ⟨A, m, bins, s, ?_, h, getLast_used hleft, rfl, .refl _ _⟩
    rw [Allocator.meltLeftAll, if_neg (mt h.left_free_iff.mp hleft)]

/-- **The second loop of `free`** goes round once at most. -/
theorem HeapOpen.absorbRightAll (h : HeapOpen lent s p A m B rest bins) (hfuel : 2 ≤ fuel) :
    ∃ B' m' bins' s', absorbRightAll fuel m.tag s = some (m'.tag, s') ∧
      HeapOpen lent s' p A m' B' rest bins' ∧ (∀ c ∈ B'.head?, ¬ c.Free) ∧
      usedBeside A B' rest = usedBeside A B rest ∧
      KeepsUsed (usedBeside A B rest) s.mem s'.mem := by
  obtain ⟨n, rfl⟩ : ∃ n, fuel = n + 2 := ⟨fuel - 2, by omega⟩
  by_cases hright : ∃ r B', B = r :: B' ∧ r.Free
  · have hgo := h.right_free_iff.mpr hright
    obtain ⟨r, B', rfl, hfree⟩ := hright
    obtain ⟨htag, hopen, hkeep⟩ := h.absorbRight hfree
    have hstop : ¬ ∃ r' B'', B' = r' :: B'' ∧ r'.Free := by
      rintro ⟨r', B'', rfl, hfree'⟩
      exact ((coalesced_focus (A := [])).mp h.row.right).2.2 hfree |>.2 r' (by simp) hfree'
    refine ⟨B', _, _, _, ?_, hopen, head_used hstop, (usedBeside_right hfree).symm, ?_⟩
    · rw [Allocator.absorbRightAll, if_pos hgo]
      simp only [htag]
      rw [Allocator.absorbRightAll, if_neg (mt hopen.right_free_iff.mp hstop)]
    · rw [usedBeside_right hfree]
      exact hkeep
  · refine ⟨B, m, bins, s, ?_, h, head_used hright, rfl, .refl _ _⟩
    rw [Allocator.absorbRightAll, if_neg (mt h.right_free_iff.mp hright)]

theorem returnTag_control {t : Word} (hret : s.returnTag src t = some s') :
    s'.control = s.unlock.control := by
  rw [returnTag] at hret
  split at hret
  · split at hret
    · split at hret
      · cases hret
      · obtain rfl := Option.some.inj hret
        rfl
    · obtain rfl := Option.some.inj hret
      exact unlock_control (by simp)
  · obtain rfl := Option.some.inj hret
    exact unlock_control (by simp)

theorem meltLeftAll_control {t t' : Word} (h : meltLeftAll fuel t s = some (t', s')) :
    s'.control = s.control := by
  induction fuel generalizing t s with
  | zero => cases h
  | succ n ih =>
    rw [Allocator.meltLeftAll] at h
    split at h
    · exact (ih h).trans (by rw [control_removeTag, control_meltLeft])
    · obtain rfl := (Prod.mk.inj (Option.some.inj h)).2
      rfl

theorem absorbRightAll_control {t t' : Word} (h : absorbRightAll fuel t s = some (t', s')) :
    s'.control = s.control := by
  induction fuel generalizing t s with
  | zero => cases h
  | succ n ih =>
    rw [Allocator.absorbRightAll] at h
    split at h
    · exact (ih h).trans (by rw [control_absorbRight])
    · obtain rfl := (Prod.mk.inj (Option.some.inj h)).2
      rfl

/-- What a call of `free` makes of the flags, whatever the heap is like. -/
theorem free_control (hf : s.free src fuel ptr = some s') :
    s'.control = if ptr = 0 then s.control else s.lock.unlock.control := by
  rw [Allocator.free] at hf
  split at hf
  · next h0 => rw [if_pos h0, Option.some.inj hf]
  · next h0 =>
    rw [if_neg h0]
    dsimp only at hf
    split at hf
    · rw [← Option.some.inj hf]
    · split at hf
      · cases hf
      · next tag s₁ hmelted =>
        split at hf
        · cases hf
        · next tag₂ s₂ habsorbed =>
          rw [returnTag_control hf]
          exact unlock_control ((absorbRightAll_control habsorbed).trans
            (meltLeftAll_control hmelted))

/-- `free` of a used block, up to its end: the heap is open at a block without free
neighbours. -/
theorem free_open (src : PageSource σ) (h : HeapHolds lent s (b ::ₘ U)) (hfuel : 2 ≤ fuel)
    (hptr : b.tag + tagSize ≠ 0) :
    ∃ p A m B rest bins s₁, s.free src fuel (b.tag + tagSize) = s₁.returnTag src m.tag ∧
      HeapOpen lent s₁ p A m B rest bins ∧ (∀ a ∈ A.getLast?, ¬ a.Free) ∧
      (∀ c ∈ B.head?, ¬ c.Free) ∧ usedBeside A B rest = U ∧ KeepsUsed U s.mem s₁.mem := by
  obtain ⟨regions, bins, hok, hU⟩ := h.ordered
  have hinit : s.initialized ≠ 0 := fun h0 => Multiset.cons_ne_zero (h.untouched h0)
  rw [initLists_of_ne hinit] at hok
  obtain ⟨hb, hused⟩ := mem_usedOf.mp (hU ▸ Multiset.mem_cons_self b U)
  obtain ⟨R, rest, A, B, hp, hR, hfocus⟩ := hok.focus hb
  obtain rfl : U = usedBeside A B rest := by
    rw [usedOf_perm (hp.map Region.blocks).flatten, usedOf_allBlocks_of_used hR hused] at hU
    exact ((Multiset.cons_inj_right b).mp hU).symm
  have hlocked : HeapOk lent s.lock (R :: rest) bins := hfocus.congr rfl rfl rfl rfl
  have hopen := hlocked.openUsed hR hused
  have hmagic : s.lock.get b.tag .magic = liballocMagic :=
    (hopen.lists.blockAt b (TagLists.mem_flatten_focus.mpr (Or.inl rfl))).magic
  obtain ⟨A', m₁, bins₁, s₁, hmelt, hopen₁, hleft, hused₁, hkeep₁⟩ := hopen.meltLeftAll hfuel
  obtain ⟨B', m₂, bins₂, s₂, habsorb, hopen₂, hright, hused₂, hkeep₂⟩ :=
    hopen₁.absorbRightAll hfuel
  have htag : b.tag + tagSize - tagSize = b.tag := BitVec.add_sub_cancel ..
  rw [hused₁] at hused₂ hkeep₂
  refine ⟨_, A', m₂, B', rest, bins₂, s₂, ?_, hopen₂, hleft, hright, hused₂,
    hkeep₁.trans hkeep₂⟩
  rw [Allocator.free, if_neg hptr, htag, if_neg (not_not.mpr hmagic), hmelt]
  simp only [habsorb]

/-- **What `free` does**: the heap is in order without the block, and what is in the others
stays. -/
theorem free_spec (h : HeapHolds lent s (b ::ₘ U)) (hsrc : src.Honest lent) (hfuel : 2 ≤ fuel)
    (hptr : b.tag + tagSize ≠ 0) (hf : s.free src fuel (b.tag + tagSize) = some s') :
    KeepsUsed U s.mem s'.mem ∧ HeapHolds lent s' U := by
  have hcontrol := free_control hf
  rw [if_neg hptr] at hcontrol
  obtain ⟨p, A, m, B, rest, bins, s₁, hfree, hopen, hleft, hright, rfl, hkeep⟩ :=
    free_open src h hfuel hptr
  obtain ⟨⟨regions', bins', hok', hU'⟩, hkeep'⟩ :=
    hopen.returnTag hsrc hleft hright (hfree.symm.trans hf)
  refine ⟨hkeep.trans hkeep', hU' ▸ hok'.holds ?_⟩
  exact (Prod.mk.inj hcontrol).2 ▸ fun h0 => Multiset.cons_ne_zero (h.untouched h0)

/-- `free` returns if the page source takes back what it has lent.  It is given nothing
else. -/
theorem free_isSome (h : HeapHolds lent s (b ::ₘ U)) (hfuel : 2 ≤ fuel)
    (hptr : b.tag + tagSize ≠ 0)
    (hreturns : ∀ r p mem ranges, lent p (r ::ₘ ranges) →
      (src.liballocFree r.base r.pages p mem).isSome) :
    (s.free src fuel (b.tag + tagSize)).isSome := by
  obtain ⟨p, A, m, B, rest, bins, s₁, hfree, hopen, -⟩ := free_open src h hfuel hptr
  have hm := hopen.lists.blockAt m (TagLists.mem_flatten_focus.mpr (Or.inl rfl))
  rw [hfree, Allocator.returnTag]
  simp only [hm.realSize]
  split
  · next hzero =>
    obtain ⟨rfl, rfl⟩ : A = [] ∧ B = [] :=
      ⟨hopen.lists.splitLeft_eq_zero_iff.mp hzero.1, hopen.lists.splitRight_eq_zero_iff.mp hzero.2⟩
    split
    · obtain ⟨htag, hpages⟩ := hopen.row.pagesOf_whole
      obtain ⟨found, hfound⟩ := Option.isSome_iff_exists.mp
        (hreturns p s₁.pages s₁.mem _ hopen.lent)
      rw [htag, hpages, hfound]
      rfl
    · rfl
  · rfl

end MVK
