import MVK.AllocatorCalls

/-!
# At the edges of the allocator

What the calls do to the interrupt flag, where `malloc` looks before it asks for pages,
and what happens where the callers do not expect it: at the end of the numbers, and when
memory has run out.

## Main results

* `allocator_flags_of_run` — **the flags are those of the sections** of the calls.
* `malloc_asks_for_pages_iff` — **when `malloc` asks for pages.**
* `malloc_new_region` — **when a new region holds what was asked for.**
* `calloc_out_of_memory`, `realloc_out_of_memory` — **when they do not return.**
-/

namespace MVK

open Allocator ObjectStore Transition Tiling

variable {σ : Type*} {lent : σ → Multiset PageRange → Prop} {src : PageSource σ}
  {s s' : Allocator σ} {fuel : ℕ} {size ptr : Word}

/-! ### The interrupt flag -/

/-- The sections that a call opens, and what comes after it. -/
def AllocatorCall.sections (next : Nesting) : AllocatorCall → Nesting
  | malloc _ _ => HeapRequest.malloc.sections next
  | calloc _ _ _ => HeapRequest.calloc.sections next
  | free ptr => (HeapRequest.free ptr).sections next
  | realloc p size _ => (HeapRequest.realloc p size).sections next
  | store _ _ _ => next
  | load _ _ _ => next
  | elsewhere => next

/-- The flags after one section. -/
def FlagState.unlocked (f : FlagState) : FlagState := (liballocUnlock (liballocLock f).2).2

theorem flags_malloc (hm : s.malloc src fuel size = some (ptr, s')) :
    s'.flags = s.flags.unlocked := by
  have hflags := (Prod.mk.inj (malloc_control hm)).1
  have hlists : s.initLists.flags = s.flags := by
    rw [initLists]
    split <;> rfl
  rw [hflags]
  exact congrArg FlagState.unlocked hlists

theorem flags_free (hf : s.free src fuel ptr = some s') :
    s'.flags = if ptr = 0 then s.flags else s.flags.unlocked := by
  have hflags := congrArg Prod.fst (free_control hf)
  rw [apply_ite Prod.fst] at hflags
  exact hflags

/-- **One call** does to the flags what its sections do. -/
theorem AllocatorStep.flags {call : AllocatorCall} (hstep : AllocatorStep src lent fuel s call s')
    (hquiet : call ≠ .elsewhere) (next : Nesting) :
    s.flags.after (call.sections next).events = s'.flags.after next.events := by
  cases hstep with
  | malloc hm =>
    rw [flags_malloc hm]
    rfl
  | calloc hc =>
    obtain ⟨s₁, hm, -, rfl⟩ := calloc_eq_some.mp hc
    rw [show Allocator.flags { s₁ with mem := _ } = s₁.flags from rfl, flags_malloc hm]
    rfl
  | @free _ ptr hf =>
    rw [flags_free hf, AllocatorCall.sections, HeapRequest.sections, HeapRequest.freeSections]
    split <;> rfl
  | @realloc _ p size ptr hr =>
    rw [AllocatorCall.sections, HeapRequest.sections]
    by_cases hsize : size = 0
    · rw [Allocator.realloc, if_pos hsize] at hr
      rw [if_pos hsize]
      cases hf : s.free src fuel p with
      | none => simp [hf] at hr
      | some s₁ =>
        simp only [hf, Option.some.injEq, Prod.mk.injEq] at hr
        rw [← hr.2, flags_free hf, HeapRequest.freeSections]
        split <;> rfl
    · rw [if_neg hsize]
      by_cases hp : p = 0
      · rw [Allocator.realloc, if_neg hsize, if_pos hp] at hr
        rw [if_pos hp, flags_malloc hr]
        rfl
      · obtain ⟨s₁, hm, -, hf⟩ := (realloc_eq_some hsize hp).mp hr
        have hfreed : s'.flags = s₁.flags.unlocked := (flags_free hf).trans (if_neg hp)
        rw [if_neg hp, hfreed, flags_malloc hm, HeapRequest.freeSections, if_neg hp]
        rfl
  | store => rfl
  | load => rfl
  | elsewhere => exact absurd rfl hquiet

theorem AllocatorCall.mainline_sections {next : Nesting} (h : next.Mainline) (c : AllocatorCall) :
    (c.sections next).Mainline := by
  cases c with
  | malloc size ptr => exact HeapRequest.mainline_sections h .malloc
  | calloc nobj size ptr => exact HeapRequest.mainline_sections h .calloc
  | free ptr => exact HeapRequest.mainline_sections h (.free ptr)
  | realloc p size ptr => exact HeapRequest.mainline_sections h (.realloc p size)
  | store p i v => exact h
  | load p i v => exact h
  | elsewhere => exact h

/-- Mainline sections leave interrupts on. -/
theorem interruptFlag_after_mainline {n : Nesting} (hn : n.Mainline) {f : FlagState}
    (hf : f.interruptFlag = true) : (f.after n.events).interruptFlag = true := by
  induction n generalizing f with
  | done => exact hf
  | locked body next _ ih =>
    rw [Nesting.events, after_cons, after_append, Nesting.after_of_noSection hn.1, after_cons]
    exact ih hn.2 rfl
  | handler body next _ ih =>
    rw [Nesting.events, after_cons, after_append, Nesting.after_of_noSection hn.1, after_cons]
    exact ih hn.2 hf

/-- **The flags after a run** of calls are those after their sections.  From code that runs
with interrupts on, each section is closed to interrupts and turns them on again. -/
theorem allocator_flags_of_run {calls : List AllocatorCall}
    (hrun : Run (AllocatorStep src lent fuel) s calls s')
    (hquiet : ∀ c ∈ calls, c ≠ .elsewhere) :
    s'.flags = s.flags.after
        (calls.foldr (fun c next => c.sections next) Nesting.done).events ∧
      (s.flags.interruptFlag = true →
        Nesting.Restores s.flags (calls.foldr (fun c next => c.sections next) Nesting.done) ∧
          s'.flags.interruptFlag = true) := by
  have hmain : (calls.foldr (fun c next => c.sections next) Nesting.done).Mainline := by
    clear hrun hquiet
    induction calls with
    | nil => trivial
    | cons c calls ih => exact c.mainline_sections ih
  have hflags : s'.flags = s.flags.after
      (calls.foldr (fun c next => c.sections next) Nesting.done).events := by
    clear hmain
    induction hrun with
    | nil => rfl
    | cons hstep _ ih =>
      rw [ih fun c hc => hquiet c (List.mem_cons_of_mem _ hc), List.foldr_cons,
        hstep.flags (hquiet _ List.mem_cons_self)]
  refine ⟨hflags, fun hon => ⟨(Nesting.restores_iff_mainline hon).mpr hmain, ?_⟩⟩
  rw [hflags]
  exact interruptFlag_after_mainline hmain hon

theorem allocator_flags_of_run_sample :
    ∃ s', blank.calloc oneRegion (2 ^ 32 + 1) 3 1 = some (0x100020, s') ∧
      s'.flags.interruptFlag = true := by
  obtain ⟨s', hc⟩ := calloc_oneRegion
  have hrun : Run (AllocatorStep oneRegion OneLent (2 ^ 32 + 1)) blank [.calloc 3 1 0x100020] s' :=
    .cons (.calloc hc) (.nil s')
  exact ⟨s', hc, ((allocator_flags_of_run hrun (by simp)).2 rfl).2⟩

/-! ### Where `malloc` looks -/

/-- A page source that does not return. -/
def neverReturns : PageSource σ := ⟨fun _ _ _ => none, fun _ _ _ _ => none⟩

section Search

variable {regions : List Region} {bins : Word → List Word}

/-- The search finds nothing when no block in the one list is large enough. -/
theorem find?_eq_none_iff (h : HeapOk lent s.initLists regions bins) (size : Word) :
    (bins (clampExp (getexp size))).find? (fitsAt s.initLists size) = none ↔
      ∀ b ∈ allBlocks regions, b.Free → b.index = clampExp (getexp size) →
        b.length < (size + tagSize).toNat + 32 := by
  have hfits : ∀ b ∈ allBlocks regions,
      (fitsAt s.initLists size b.tag = true ↔ (size + tagSize).toNat + 32 ≤ b.length) := by
    intro b hb
    obtain ⟨row, hrow, hbrow⟩ := List.mem_flatten.mp hb
    obtain ⟨R, hR, rfl⟩ := List.mem_map.mp hrow
    exact fitsAt_iff_toNat (h.lists.blockAt b hb) (R.sound b hbrow).tag_fits
  rw [List.find?_eq_none]
  constructor
  · intro hnone b hb hfree hindex
    have hne : clampExp (getexp size) ≠ -1 := fun h0 => hfree (hindex.trans h0)
    have hin := (h.lists.listed b hb _).mpr ⟨hindex, hne⟩
    exact Nat.lt_of_not_le fun hlong => hnone b.tag hin ((hfits b hb).mpr hlong)
  · intro hshort t ht hfit
    obtain ⟨b, hb, rfl⟩ := List.mem_map.mp (h.lists.tag_of_bin _ t ht)
    obtain ⟨hindex, hne⟩ := (h.lists.listed b hb _).mp ht
    have hfree : b.Free := fun h0 => hne (hindex.symm.trans h0)
    exact absurd ((hfits b hb).mp hfit) (Nat.not_le.mpr (hshort b hb hfree hindex))

/-- It finds something when the call returns although the page source does not. -/
theorem find?_eq_none_iff_never (h : HeapOk lent s.initLists regions bins)
    (hfuel : 2 ^ 32 < fuel) (size : Word) :
    (bins (clampExp (getexp size))).find? (fitsAt s.initLists size) = none ↔
      s.malloc neverReturns fuel size = none := by
  rw [malloc_eq h hfuel]
  cases (bins (clampExp (getexp size))).find? (fitsAt s.initLists size) with
  | none => simp [neverReturns]
  | some t => simp

/-- **When `malloc` asks for pages**: no block in the one list for the size that was asked for
is large enough.  What the other lists hold does not matter. -/
theorem malloc_asks_for_pages_iff (h : HeapOk lent s.initLists regions bins)
    (hfuel : 2 ^ 32 < fuel) (hsize : size.toNat + 32 < 2 ^ 32) :
    (∃ src', s.malloc src' fuel size ≠ s.malloc src fuel size) ↔
      ∀ b ∈ allBlocks regions, b.Free → b.index = clampExp (getexp size) →
        b.length < size.toNat + 64 := by
  have hshort := find?_eq_none_iff h size
  rw [toNat_add_tagSize hsize, Nat.add_assoc] at hshort
  rw [← hshort]
  constructor
  · rintro ⟨src', hdiffers⟩
    by_contra hfound
    -- some block is found, and the search does not go to the page source
    obtain ⟨t, hfind⟩ := Option.ne_none_iff_exists'.mp hfound
    rw [malloc_eq h hfuel, malloc_eq h hfuel, hfind] at hdiffers
    exact hdiffers rfl
  · intro hfind
    by_contra hsame
    simp only [not_exists, not_not] at hsame
    -- a source that does not return, and one that has no pages
    have hnever := hsame neverReturns
    have hrefuse := hsame ⟨fun _ p mem => some (0, p, mem), fun _ _ _ _ => none⟩
    rw [← hrefuse, malloc_eq h hfuel, malloc_eq h hfuel, hfind] at hnever
    simp [neverReturns] at hnever

end Search

/-- A region with a small object in front: what is left of it is in the list for the sizes
from 32 KiB on. -/
theorem free_rest_oneRegion :
    ∃ s₁ regions bins, blank.calloc oneRegion (2 ^ 32 + 1) 3 1 = some (0x100020, s₁) ∧
      HeapOk OneLent s₁.initLists regions bins ∧
      (∃ b ∈ allBlocks regions, b.Free ∧ b.index = clampExp (getexp 40000) ∧ 40064 ≤ b.length) ∧
      s₁.malloc neverReturns (2 ^ 32 + 1) 100 = none ∧
      s₁.malloc neverReturns (2 ^ 32 + 1) 65500 = none := by
  obtain ⟨s₁, hc⟩ := calloc_oneRegion
  have hrep := ((AllocatorStep.calloc hc).refines oneRegion_honest (by decide)
    (.start rfl ⟨rfl, Or.inl rfl⟩)
    ⟨show (3 * 1 : Word).toNat + 32 < 2 ^ 32 by decide, trivial⟩).2
  obtain ⟨U, hU⟩ := hrep
  obtain ⟨regions, bins, hok, -⟩ := hU.holds.ordered
  have hcalls : ∀ size : Word, ((blank.calloc oneRegion (2 ^ 32 + 1) 3 1).bind fun found =>
      found.2.malloc neverReturns (2 ^ 32 + 1) size) =
        s₁.malloc neverReturns (2 ^ 32 + 1) size := by
    intro size
    rw [hc, Option.bind_some]
  have hnone : ∀ size : Word, (((blank.calloc oneRegion (2 ^ 32 + 1) 3 1).bind fun found =>
      found.2.malloc neverReturns (2 ^ 32 + 1) size).map Prod.fst = none) →
        s₁.malloc neverReturns (2 ^ 32 + 1) size = none := by
    intro size h0
    rwa [hcalls, Option.map_eq_none_iff] at h0
  refine ⟨s₁, regions, bins, hc, hok, ?_, hnone 100 (by decide +kernel),
    hnone 65500 (by decide +kernel)⟩
  by_contra hno
  have hshort : s₁.malloc neverReturns (2 ^ 32 + 1) 40000 = none := by
    rw [← find?_eq_none_iff_never hok (by decide), find?_eq_none_iff hok]
    intro b hb hfree hindex
    exact Nat.lt_of_not_le fun hlong => hno ⟨b, hb, hfree, hindex, hlong⟩
  have hfound : ((blank.calloc oneRegion (2 ^ 32 + 1) 3 1).bind fun found =>
      found.2.malloc neverReturns (2 ^ 32 + 1) 40000).map Prod.fst = some 0x100043 := by
    decide +kernel
  rw [hcalls, hshort] at hfound
  cases hfound

/-- With a free block of more than 40000 bytes `malloc(100)` asks for pages. -/
theorem malloc_asks_for_pages_iff_sample :
    ∃ s₁ regions bins, HeapOk OneLent (initLists s₁) regions bins ∧
      (∃ b ∈ allBlocks regions, b.Free ∧ 40064 ≤ b.length) ∧
      ∃ src', s₁.malloc src' (2 ^ 32 + 1) 100 ≠ s₁.malloc oneRegion (2 ^ 32 + 1) 100 := by
  obtain ⟨s₁, regions, bins, -, hok, ⟨b, hb, hfree, -, hlong⟩, hnone, -⟩ := free_rest_oneRegion
  refine ⟨s₁, regions, bins, hok, ⟨b, hb, hfree, hlong⟩,
    (malloc_asks_for_pages_iff hok (by decide) (by decide)).mpr ?_⟩
  rwa [← find?_eq_none_iff_never hok (by decide), find?_eq_none_iff hok] at hnone

/-! ### Sizes -/

section OutOfMemory

variable {objs : Objects Word Byte} (hsrc : src.Honest lent) (hfuel : 2 ^ 32 < fuel)
  (halloc : ∀ n p mem, (src.liballocAlloc n p mem).isSome) (h : Represents lent s objs)

include hsrc hfuel halloc h

/-- **`calloc` without memory** does not return, unless there is nothing to clear; only then
it returns `NULL`, and the objects stay. -/
theorem calloc_out_of_memory {nobj : Word} (hsize : (nobj * size).toNat + 32 < 2 ^ 32) :
    (s.calloc src fuel nobj size = none ↔
      nobj * size ≠ 0 ∧ ∃ s₁, s.malloc src fuel (nobj * size) = some (0, s₁)) ∧
    ∀ s', s.calloc src fuel nobj size = some (0, s') →
      nobj * size = 0 ∧ Represents lent s' objs := by
  obtain ⟨U, hU⟩ := h
  refine ⟨⟨fun hnone => ?_, ?_⟩, fun s' hc => ?_⟩
  · rcases hU.calloc_returns hfuel halloc nobj size with hsome | hnull
    · rw [hnone] at hsome
      cases hsome
    · exact hnull
  · rintro ⟨hne, s₁, hm⟩
    rw [Option.eq_none_iff_forall_not_mem]
    rintro ⟨ptr, s'⟩ hc
    obtain ⟨s₂, hm', hzero, -⟩ := calloc_eq_some.mp hc
    obtain ⟨rfl, -⟩ := Prod.mk.inj (Option.some.inj (hm.symm.trans hm'))
    exact hne (hzero rfl)
  · obtain ⟨hzero, hshows⟩ := hU.calloc_null hsrc hfuel hsize hc
    exact ⟨hzero, U, hshows⟩

/-- **`realloc` without memory** does not return, unless the object is empty; only then it
returns `NULL`, and the object is given up. -/
theorem realloc_out_of_memory {p : Word} {bytes : List (Option Byte)}
    (hfree : ∀ r p mem ranges, lent p (r ::ₘ ranges) →
      (src.liballocFree r.base r.pages p mem).isSome)
    (hp : objs p = some bytes) (hsize : size.toNat + 32 < 2 ^ 32) (hne : size ≠ 0) :
    (s.realloc src fuel p size = none ↔
      bytes ≠ [] ∧ ∃ s₁, s.lock.unlock.malloc src fuel size = some (0, s₁)) ∧
    ∀ s', s.realloc src fuel p size = some (0, s') →
      bytes = [] ∧ Represents lent s' (Function.update objs p none) := by
  obtain ⟨U, hU⟩ := h
  obtain ⟨b, V, rfl, rfl, -⟩ := hU.exists_cons hp
  have hlength := (hU.known (Multiset.mem_cons_self b V) (fun _ _ => rfl) hp).2.1
  have hempty : b.size = 0 ↔ bytes = [] := by
    rw [← List.length_eq_zero_iff, hlength, ← BitVec.toNat_inj]
    rfl
  refine ⟨⟨fun hnone => ?_, ?_⟩, fun s' hr => ?_⟩
  · rcases hU.realloc_returns hsrc hfuel halloc hfree hsize hne with hsome | ⟨hb, hnull⟩
    · rw [hnone] at hsome
      cases hsome
    · exact ⟨fun h0 => hb (hempty.mpr h0), hnull⟩
  · rintro ⟨hbytes, s₁, hm⟩
    rw [Option.eq_none_iff_forall_not_mem]
    rintro ⟨ptr, s'⟩ hr
    obtain ⟨s₂, hm', hzero, -⟩ := (hU.realloc_eq_some hne).mp hr
    obtain ⟨rfl, -⟩ := Prod.mk.inj (Option.some.inj (hm.symm.trans hm'))
    exact hbytes (hempty.mp (hzero rfl))
  · obtain ⟨hb, hshows⟩ := hU.realloc_null hsrc hfuel hsize hne hr
    exact ⟨hempty.mp hb, V, hshows⟩

end OutOfMemory

/-- An object of three bytes, and no memory for 2 MiB. -/
theorem no_memory_oneRegion :
    ∃ s₁ s₂ s₃, Represents OneLent s₁ (AllocatorCall.after (fun _ => none)
        (.calloc 3 1 0x100020)) ∧
      s₁.malloc oneRegion (2 ^ 32 + 1) 0x200000 = some (0, s₂) ∧
      s₁.lock.unlock.malloc oneRegion (2 ^ 32 + 1) 0x200000 = some (0, s₃) := by
  obtain ⟨s₁, hc⟩ := calloc_oneRegion
  have hrep := ((AllocatorStep.calloc hc).refines oneRegion_honest (by decide)
    (.start rfl ⟨rfl, Or.inl rfl⟩)
    ⟨show (3 * 1 : Word).toNat + 32 < 2 ^ 32 by decide, trivial⟩).2
  have hplain : ((blank.calloc oneRegion (2 ^ 32 + 1) 3 1).bind fun found =>
      found.2.malloc oneRegion (2 ^ 32 + 1) 0x200000).map Prod.fst = some 0 := by
    decide +kernel
  have hlocked : ((blank.calloc oneRegion (2 ^ 32 + 1) 3 1).bind fun found =>
      found.2.lock.unlock.malloc oneRegion (2 ^ 32 + 1) 0x200000).map Prod.fst = some 0 := by
    decide +kernel
  rw [hc, Option.bind_some] at hplain hlocked
  obtain ⟨⟨p, s₂⟩, hm, rfl⟩ := Option.map_eq_some_iff.mp hplain
  obtain ⟨⟨q, s₃⟩, hm', rfl⟩ := Option.map_eq_some_iff.mp hlocked
  exact ⟨s₁, s₂, s₃, hrep, hm, hm'⟩

theorem calloc_out_of_memory_sample :
    ∃ s₁, Allocator.calloc s₁ oneRegion (2 ^ 32 + 1) 2 0x100000 = none := by
  obtain ⟨s₁, s₂, -, hrep, hm, -⟩ := no_memory_oneRegion
  exact ⟨s₁, (calloc_out_of_memory oneRegion_honest (by decide) oneRegion_alloc hrep
    (by decide)).1.mpr ⟨by decide, s₂, hm⟩⟩

theorem realloc_out_of_memory_sample :
    ∃ s₁, Allocator.realloc s₁ oneRegion (2 ^ 32 + 1) 0x100020 0x200000 = none := by
  obtain ⟨s₁, -, s₃, hrep, -, hm⟩ := no_memory_oneRegion
  have hobj : AllocatorCall.after (fun _ => none) (.calloc 3 1 0x100020) 0x100020 =
      some (List.replicate 3 (some 0)) := rfl
  exact ⟨s₁, (realloc_out_of_memory oneRegion_honest (by decide) oneRegion_alloc hrep
    oneRegion_free hobj (by decide) (by decide)).1.mpr ⟨by decide, s₃, hm⟩⟩

end MVK
