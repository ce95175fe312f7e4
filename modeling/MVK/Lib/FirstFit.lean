import Mathlib.Data.List.Range
import Mathlib.Data.List.Sort
import Mathlib.Logic.Function.Basic

/-!
# First fit over numbered slots

Slots `0, …, N - 1`, of which those in a domain can be handed out, and a record of
which are in use.  The free slots are kept as one increasing list: first fit takes
its head, and taking it leaves its tail.

## Main definitions

* `frees N dom used` — the free slots, in order.
* `mark`, `release`, `markAll` — the record after a slot, or a list of them, changes.

## Main results

* `head?_frees_eq_some` — the head is the least free slot.
* `frees_mark` — **taking the head leaves the tail.**
-/

namespace FirstFit

/-- The free slots below `N`, in order. -/
def frees (N : ℕ) (dom used : ℕ → Bool) : List ℕ :=
  (List.range N).filter fun p => dom p && !used p

/-- The record with slot `p` in use. -/
def mark (used : ℕ → Bool) (p : ℕ) : ℕ → Bool := Function.update used p true

/-- The record with slot `p` free. -/
def release (used : ℕ → Bool) (p : ℕ) : ℕ → Bool := Function.update used p false

/-- The record with the slots of `ps` in use. -/
def markAll (used : ℕ → Bool) (ps : List ℕ) : ℕ → Bool := ps.foldl mark used

theorem mark_apply (used : ℕ → Bool) (p q : ℕ) :
    mark used p q = if q = p then true else used q :=
  Function.update_apply used p true q

theorem release_apply (used : ℕ → Bool) (p q : ℕ) :
    release used p q = if q = p then false else used q :=
  Function.update_apply used p false q

/-- Releasing a slot that is free changes nothing. -/
theorem release_of_free {used : ℕ → Bool} {p : ℕ} (h : used p = false) : release used p = used := by
  rw [release, ← h, Function.update_eq_self]

theorem eq_release_iff {used : ℕ → Bool} {p : ℕ} : used = release used p ↔ used p = false := by
  refine ⟨?_, fun h => (release_of_free h).symm⟩
  intro h
  rw [h, release_apply, if_pos rfl]

/-- Releasing one slot is releasing another only if both were free. -/
theorem release_eq_release_iff {used : ℕ → Bool} {p q : ℕ} (hne : q ≠ p) :
    release used q = release used p ↔ used p = false ∧ used q = false := by
  constructor
  · intro h
    have hp := congrFun h p
    have hq := congrFun h q
    rw [release_apply, release_apply, if_neg hne.symm, if_pos rfl] at hp
    rw [release_apply, release_apply, if_pos rfl, if_neg hne] at hq
    exact ⟨hp, hq.symm⟩
  · rintro ⟨hp, hq⟩
    rw [release_of_free hp, release_of_free hq]

theorem markAll_apply (used : ℕ → Bool) (ps : List ℕ) (q : ℕ) :
    markAll used ps q = true ↔ used q = true ∨ q ∈ ps := by
  induction ps generalizing used with
  | nil => simp [markAll]
  | cons p ps ih =>
    rw [markAll, List.foldl_cons, ← markAll, ih, mark_apply, List.mem_cons]
    by_cases hq : q = p
    · simp [hq]
    · simp [hq]

section Frees

variable {N : ℕ} {dom used : ℕ → Bool}

theorem mem_frees {p : ℕ} : p ∈ frees N dom used ↔ p < N ∧ dom p = true ∧ used p = false := by
  simp [frees]

theorem frees_sorted : (frees N dom used).Pairwise (· < ·) :=
  List.pairwise_lt_range.filter _

theorem frees_nodup : (frees N dom used).Nodup :=
  List.nodup_range.filter _

/-- The head of the free slots is the least. -/
theorem head?_frees_eq_some {p : ℕ} : (frees N dom used).head? = some p ↔
    p < N ∧ dom p = true ∧ used p = false ∧ ∀ q, q < p → dom q = true → used q = true := by
  rw [frees, List.head?_filter, List.find?_range_eq_some]
  simp only [Bool.and_eq_true, Bool.not_eq_true', List.mem_range, Bool.not_and, Bool.not_not,
    Bool.or_eq_true]
  constructor
  · rintro ⟨⟨hd, hu⟩, hp, hlt⟩
    refine ⟨hp, hd, hu, ?_⟩
    intro q hq hdq
    rcases hlt q hq with h | h
    · rw [hdq] at h
      exact absurd h (by decide)
    · exact h
  · rintro ⟨hp, hd, hu, hlt⟩
    refine ⟨⟨hd, hu⟩, hp, ?_⟩
    intro q hq
    cases hdq : dom q with
    | false => exact Or.inl rfl
    | true => exact Or.inr (hlt q hq hdq)

theorem frees_eq_nil : frees N dom used = [] ↔ ∀ q, q < N → dom q = true → used q = true := by
  simp [frees, List.filter_eq_nil_iff]

/-- A free list that starts with the least free slot. -/
theorem frees_eq_cons {p : ℕ} (hp : p < N) (hd : dom p = true) (hu : used p = false)
    (hlt : ∀ q, q < p → dom q = true → used q = true) : ∃ ps, frees N dom used = p :: ps := by
  have hhead : (frees N dom used).head? = some p := head?_frees_eq_some.mpr ⟨hp, hd, hu, hlt⟩
  cases hfs : frees N dom used with
  | nil =>
    rw [hfs] at hhead
    exact absurd hhead (by simp)
  | cons q ps =>
    rw [hfs, List.head?_cons, Option.some_inj] at hhead
    exact ⟨ps, by rw [hhead]⟩

/-- Taking a slot removes it from the free ones. -/
theorem frees_mark_eq_filter (p : ℕ) :
    frees N dom (mark used p) = (frees N dom used).filter (· ≠ p) := by
  rw [frees, frees, List.filter_filter]
  refine List.filter_congr ?_
  intro q _
  rw [mark_apply]
  by_cases hq : q = p
  · simp [hq]
  · simp [hq]

/-- **Taking the head leaves the tail.** -/
theorem frees_mark {p : ℕ} {ps : List ℕ} (h : frees N dom used = p :: ps) :
    frees N dom (mark used p) = ps := by
  have hnodup : (p :: ps).Nodup := h ▸ frees_nodup
  -- the list has no duplicates, so the filter drops the head only
  rw [frees_mark_eq_filter, h, List.filter_cons_of_neg (by simp), List.filter_eq_self]
  intro q hq
  have hne : q ≠ p := fun hqp => (List.nodup_cons.mp hnodup).1 (hqp ▸ hq)
  simpa using hne

/-- The free slots below a smaller bound come first. -/
theorem frees_prefix {n : ℕ} (h : n ≤ N) : frees n dom used <+: frees N dom used := by
  obtain ⟨k, rfl⟩ := Nat.exists_eq_add_of_le h
  rw [frees, frees, List.range_add, List.filter_append]
  exact List.prefix_append _ _

/-- The slots before a free slot in the list are the smaller ones. -/
theorem exists_frees_eq_append {p : ℕ} (h : p ∈ frees N dom used) :
    ∃ ps qs, frees N dom used = ps ++ p :: qs ∧ ∀ q ∈ ps, q < p := by
  obtain ⟨ps, qs, hfs⟩ := List.append_of_mem h
  have hsorted : (ps ++ p :: qs).Pairwise (· < ·) := hfs ▸ frees_sorted
  exact ⟨ps, qs, hfs, fun q hq => (List.pairwise_append.mp hsorted).2.2 q hq p List.mem_cons_self⟩

/-- Releasing a slot of the domain makes it free. -/
theorem mem_frees_release {p : ℕ} (hp : p < N) (hd : dom p = true) :
    p ∈ frees N dom (release used p) := by
  refine mem_frees.mpr ⟨hp, hd, ?_⟩
  rw [release_apply, if_pos rfl]

end Frees

end FirstFit
