import Mathlib.Data.List.Chain
import Mathlib.Data.List.Pairwise

/-!
# Tilings of an interval

Blocks with a start and a length that cover an interval of the numbers without gap or
overlap, in order; and blocks of two kinds, free and in use, of which no two neighbours
are free.  An allocator that splits and merges blocks moves between such tilings.

## Main definitions

* `Tiles start len lo bs hi` — the blocks `bs` cover `[lo, hi)`.
* `Coalesced free bs` — no two neighbours are free.

## Main results

* `tiles_focus` — **one block of a tiling, and the rest.**
* `Tiles.pairwise`, `Tiles.bounds` — the blocks are apart, and inside.
* `coalesced_focus` — **one block of a coalesced row, and the rest.**
-/

namespace Tiling

variable {β : Type*} {start len : β → ℕ} {free : β → Prop} {lo mid hi : ℕ} {b : β}
  {bs A B : List β}

/-- The blocks, in order, cover `[lo, hi)`. -/
def Tiles (start len : β → ℕ) : ℕ → List β → ℕ → Prop
  | lo, [], hi => lo = hi
  | lo, b :: bs, hi => start b = lo ∧ Tiles start len (lo + len b) bs hi

@[simp] theorem tiles_nil : Tiles start len lo [] hi ↔ lo = hi := Iff.rfl

@[simp] theorem tiles_cons :
    Tiles start len lo (b :: bs) hi ↔ start b = lo ∧ Tiles start len (lo + len b) bs hi :=
  Iff.rfl

theorem tiles_append :
    Tiles start len lo (A ++ B) hi ↔
      ∃ mid, Tiles start len lo A mid ∧ Tiles start len mid B hi := by
  induction A generalizing lo with
  | nil => simp
  | cons a A ih =>
    simp only [List.cons_append, tiles_cons, ih]
    constructor
    · rintro ⟨hstart, mid, hA, hB⟩
      exact ⟨mid, ⟨hstart, hA⟩, hB⟩
    · rintro ⟨mid, ⟨hstart, hA⟩, hB⟩
      exact ⟨hstart, mid, hA, hB⟩

/-- **One block of a tiling, and the rest.** -/
theorem tiles_focus :
    Tiles start len lo (A ++ b :: B) hi ↔
      Tiles start len lo A (start b) ∧ Tiles start len (start b + len b) B hi := by
  rw [tiles_append]
  constructor
  · rintro ⟨mid, hA, rfl, hB⟩
    exact ⟨hA, hB⟩
  · rintro ⟨hA, hB⟩
    exact ⟨start b, hA, rfl, hB⟩

theorem Tiles.le (h : Tiles start len lo bs hi) : lo ≤ hi := by
  induction bs generalizing lo with
  | nil => exact Nat.le_of_eq h
  | cons b bs ih => exact (Nat.le_add_right lo (len b)).trans (ih h.2)

/-- Each block lies in the interval. -/
theorem Tiles.bounds (h : Tiles start len lo bs hi) (hb : b ∈ bs) :
    lo ≤ start b ∧ start b + len b ≤ hi := by
  obtain ⟨A, B, rfl⟩ := List.append_of_mem hb
  obtain ⟨hA, hB⟩ := tiles_focus.mp h
  exact ⟨hA.le, hB.le⟩

/-- Each block ends before the later ones start. -/
theorem Tiles.pairwise (h : Tiles start len lo bs hi) :
    bs.Pairwise fun a b => start a + len a ≤ start b := by
  induction bs generalizing lo with
  | nil => exact .nil
  | cons b bs ih =>
    obtain ⟨rfl, hbs⟩ := h
    exact List.pairwise_cons.mpr ⟨fun c hc => (hbs.bounds hc).1, ih hbs⟩

/-! ### Free and used blocks -/

/-- No two neighbours are free. -/
def Coalesced (free : β → Prop) (bs : List β) : Prop :=
  bs.IsChain fun a b => ¬ (free a ∧ free b)

/-- **One block of a coalesced row, and the rest**: both sides are coalesced, and if the
block is free its neighbours are not. -/
theorem coalesced_focus :
    Coalesced free (A ++ b :: B) ↔ Coalesced free A ∧ Coalesced free B ∧
      (free b → (∀ a ∈ A.getLast?, ¬ free a) ∧ ∀ c ∈ B.head?, ¬ free c) := by
  rw [Coalesced, List.isChain_append, List.isChain_cons]
  simp only [List.head?_cons, Option.mem_def, Option.some.injEq, forall_eq', not_and, Coalesced]
  constructor
  · rintro ⟨hA, ⟨hbB, hB⟩, hAb⟩
    exact ⟨hA, hB, fun hb => ⟨fun a ha hfree => hAb a ha hfree hb, fun c hc => hbB c hc hb⟩⟩
  · rintro ⟨hA, hB, hb⟩
    exact ⟨hA, ⟨fun c hc hfree => (hb hfree).2 c hc, hB⟩, fun a ha hfree hb' =>
      (hb hb').1 a ha hfree⟩

end Tiling
