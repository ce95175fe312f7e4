import Mathlib.Data.Finset.Max
import Mathlib.Tactic.Common

/-!
# Fully nested priorities

Requests compete by their level, the least one first, and a level that is being served lets
only levels before it through.  So the levels in service are those of a stack of handlers,
the innermost one first, and "the first level in service has ended" means the innermost.

## Main definitions

* `first`, `winner` — the first of a set of levels, and the request that gets through.
* `endFirst` — the first level in service has ended.
* `Serves` — the levels in service are those of a stack, in order.

## Main results

* `Serves.enter`, `Serves.leave` — **what gets through goes on the stack, and ending the first
  level takes it off again.**
-/

namespace Preemption

variable {ι : Type*} [LinearOrder ι]

/-- The first of the levels, if there is one. -/
def first (s : Finset ι) : Option ι := if h : s.Nonempty then some (s.min' h) else none

/-- The first of the requests, if it comes before every level in service. -/
def winner (requests service : Finset ι) : Option ι :=
  first (requests.filter fun i => ∀ j ∈ service, i < j)

/-- The first level in service has ended. -/
def endFirst (service : Finset ι) : Finset ι :=
  match first service with
  | some i => service.erase i
  | none => service

section First

variable {s : Finset ι} {i : ι}

theorem first_eq_some : first s = some i ↔ i ∈ s ∧ ∀ j ∈ s, i ≤ j := by
  unfold first
  constructor
  · intro h
    split at h
    · next hne =>
      rw [← Option.some.inj h]
      exact ⟨s.min'_mem hne, fun j hj => s.min'_le j hj⟩
    · cases h
  · rintro ⟨hi, hle⟩
    rw [dif_pos ⟨i, hi⟩]
    exact congrArg some (le_antisymm (s.min'_le i hi) (s.le_min' _ i hle))

theorem first_eq_none : first s = none ↔ s = ∅ := by
  unfold first
  split
  · next hne => exact ⟨fun h => (Option.some_ne_none _ h).elim, fun h => absurd h hne.ne_empty⟩
  · next hnot => exact ⟨fun _ => Finset.not_nonempty_iff_eq_empty.mp hnot, fun _ => rfl⟩

theorem first_isSome : (first s).isSome ↔ s.Nonempty := by
  rw [Option.isSome_iff_ne_none, Ne, first_eq_none, Finset.nonempty_iff_ne_empty]

@[simp] theorem endFirst_empty : endFirst (∅ : Finset ι) = ∅ := rfl

end First

section Winner

variable {requests service : Finset ι} {i : ι}

theorem winner_eq_some : winner requests service = some i ↔
    i ∈ requests ∧ (∀ j ∈ service, i < j) ∧
      ∀ j ∈ requests, (∀ k ∈ service, j < k) → i ≤ j := by
  simp only [winner, first_eq_some, Finset.mem_filter, and_imp, and_assoc]

theorem winner_eq_none : winner requests service = none ↔
    ∀ i ∈ requests, ∃ j ∈ service, j ≤ i := by
  simp only [winner, first_eq_none, Finset.filter_eq_empty_iff, not_forall, not_lt, exists_prop]

/-- With nothing in service, some request gets through. -/
theorem winner_isSome_of_quiet (h : requests.Nonempty) : (winner requests ∅).isSome := by
  rw [winner, first_isSome]
  exact h.imp fun i hi => Finset.mem_filter.mpr ⟨hi, fun j hj => absurd hj (Finset.notMem_empty j)⟩

end Winner

/-- The levels in service are those of the stack `running`, the innermost first. -/
structure Serves (service : Finset ι) (running : List ι) : Prop where
  mem : ∀ i, i ∈ service ↔ i ∈ running
  ordered : running.Pairwise (· < ·)

namespace Serves

variable {service : Finset ι} {running : List ι} {i : ι}

theorem nil : Serves (∅ : Finset ι) [] :=
  ⟨fun _ => ⟨fun h => absurd h (Finset.notMem_empty _), fun h => absurd h List.not_mem_nil⟩, .nil⟩

/-- What comes before everything in service goes on the stack. -/
theorem enter (h : Serves service running) (hi : ∀ j ∈ service, i < j) :
    Serves (insert i service) (i :: running) where
  mem j := by rw [Finset.mem_insert, List.mem_cons, h.mem]
  ordered := .cons (fun j hj => hi j ((h.mem j).mpr hj)) h.ordered

/-- The innermost level is the first one. -/
theorem first_eq (h : Serves service (i :: running)) : first service = some i := by
  refine first_eq_some.mpr ⟨(h.mem i).mpr List.mem_cons_self, fun j hj => ?_⟩
  rcases List.mem_cons.mp ((h.mem j).mp hj) with rfl | hmem
  · exact le_rfl
  · exact (List.rel_of_pairwise_cons h.ordered hmem).le

/-- Ending the first level takes the innermost one off the stack. -/
theorem leave (h : Serves service (i :: running)) : Serves (endFirst service) running := by
  rw [endFirst, h.first_eq]
  refine ⟨fun j => ?_, h.ordered.of_cons⟩
  rw [Finset.mem_erase, h.mem, List.mem_cons]
  constructor
  · rintro ⟨hne, rfl | hmem⟩
    · exact absurd rfl hne
    · exact hmem
  · exact fun hmem => ⟨(List.rel_of_pairwise_cons h.ordered hmem).ne', Or.inr hmem⟩

section Handlers

variable {α : Type*} {f : α → Option ι} {a : α} {as : List α}

/-- A handler goes on the stack at its level. -/
theorem cons_some (h : Serves service (as.filterMap f)) (ha : f a = some i)
    (hi : ∀ j ∈ service, i < j) : Serves (insert i service) ((a :: as).filterMap f) := by
  rw [List.filterMap_cons_some ha]
  exact h.enter hi

/-- A handler without a level is not in service. -/
theorem cons_none (h : Serves service (as.filterMap f)) (ha : f a = none) :
    Serves service ((a :: as).filterMap f) := by
  rwa [List.filterMap_cons_none ha]

end Handlers

theorem eq_empty (h : Serves service []) : service = ∅ :=
  Finset.eq_empty_of_forall_notMem fun i hi => List.not_mem_nil ((h.mem i).mp hi)

/-- With something in service, ending a level that is not on the stack ends one that is. -/
theorem not_endFirst (h : Serves service (i :: running)) :
    ¬ Serves (endFirst service) (i :: running) := by
  intro hsame
  have hmem := (hsame.mem i).mpr List.mem_cons_self
  rw [endFirst, h.first_eq] at hmem
  exact Finset.notMem_erase i service hmem

end Serves

end Preemption
