import Mathlib.Data.List.Basic

/-!
# Doubly linked lists

Nodes with a link to the next and a link to the previous node, and a null link at both
ends.  The list is known by its nodes in order; a node's two links are read off from
what stands before and after it.

## Main definitions

* `Linked next prev nil l` — the links of the nodes `l` are those of a list in that order.

## Main results

* `Linked.splice` — replacing a stretch of the list, whatever the stretch.
* `Linked.unlink`, `Linked.insertAfter`, `Linked.pushFront` — **the three edits.**
-/

variable {α : Type*} {next prev next' prev' : α → α} {nil : α} {l A B : List α}

/-- The nodes `l` are linked both ways, in order, with null links at the ends. -/
structure Linked (next prev : α → α) (nil : α) (l : List α) : Prop where
  nodup : l.Nodup
  ne_nil : ∀ x ∈ l, x ≠ nil
  links : ∀ A x B, l = A ++ x :: B → prev x = A.getLast?.getD nil ∧ next x = B.head?.getD nil

namespace Linked

theorem empty : Linked next prev nil [] where
  nodup := List.nodup_nil
  ne_nil := fun _ hx => absurd hx List.not_mem_nil
  links := fun _ _ _ h => absurd h.symm (by simp)

theorem prev_eq {x : α} (h : Linked next prev nil (A ++ x :: B)) : prev x = A.getLast?.getD nil :=
  (h.links A x B rfl).1

theorem next_eq {x : α} (h : Linked next prev nil (A ++ x :: B)) : next x = B.head?.getD nil :=
  (h.links A x B rfl).2

/-- The links of the nodes are all that counts. -/
theorem congr (h : Linked next prev nil l) (hnext : ∀ x ∈ l, next' x = next x)
    (hprev : ∀ x ∈ l, prev' x = prev x) : Linked next' prev' nil l where
  nodup := h.nodup
  ne_nil := h.ne_nil
  links := by
    rintro A x B rfl
    have hx : x ∈ A ++ x :: B := by simp
    rw [hnext x hx, hprev x hx]
    exact h.links A x B rfl

/-- A node's successor is a later node. -/
theorem next_mem {x : α} (h : Linked next prev nil (A ++ x :: B)) : next x = nil ∨ next x ∈ B := by
  rw [h.next_eq]
  cases B with
  | nil => exact Or.inl rfl
  | cons y B => exact Or.inr List.mem_cons_self

/-- And its predecessor an earlier one. -/
theorem prev_mem {x : α} (h : Linked next prev nil (A ++ x :: B)) : prev x = nil ∨ prev x ∈ A := by
  rw [h.prev_eq]
  cases hlast : A.getLast? with
  | none => exact Or.inl rfl
  | some y => exact Or.inr (List.mem_of_getLast? hlast)

/-- Where a node of `A ++ B` stands. -/
theorem append_eq_append_cons {A₁ B₁ : List α} {x : α} (h : A ++ B = A₁ ++ x :: B₁) :
    (∃ C, A = A₁ ++ x :: C ∧ B₁ = C ++ B) ∨ ∃ C, A₁ = A ++ C ∧ B = C ++ x :: B₁ := by
  rcases List.append_eq_append_iff.mp h with ⟨C, rfl, hB⟩ | ⟨C, rfl, hB⟩
  · exact Or.inr ⟨C, rfl, hB⟩
  · cases C with
    | nil => exact Or.inr ⟨[], by simp, hB.symm⟩
    | cons y C =>
      obtain ⟨rfl, rfl⟩ := List.cons.inj hB
      exact Or.inl ⟨C, rfl, rfl⟩

/-- The predecessor is the last node before. -/
theorem eq_prev_iff {x u : α} (h : Linked next prev nil (A ++ x :: B)) (hu : u ∈ A ++ x :: B) :
    u = prev x ↔ some u = A.getLast? := by
  rw [h.prev_eq]
  cases hlast : A.getLast? with
  | none => simpa using h.ne_nil u hu
  | some y => simp

/-- The successor is the first node behind. -/
theorem eq_next_iff {x u : α} (h : Linked next prev nil (A ++ x :: B)) (hu : u ∈ A ++ x :: B) :
    u = next x ↔ some u = B.head? := by
  rw [h.next_eq]
  cases hhead : B.head? with
  | none => simpa using h.ne_nil u hu
  | some y => simp

/-- A node is not its own neighbour's neighbour on the other side. -/
theorem prev_ne_of_mem {x u : α} (h : Linked next prev nil (A ++ x :: B)) (hu : u ∈ x :: B) :
    u ≠ prev x := by
  intro heq
  have hmem := List.mem_of_getLast? ((h.eq_prev_iff (List.mem_append_right _ hu)).mp heq).symm
  exact (List.nodup_append.mp h.nodup).2.2 u hmem u hu rfl

theorem next_ne_of_mem {x u : α} (h : Linked next prev nil (A ++ x :: B)) (hu : u ∈ A ++ [x]) :
    u ≠ next x := by
  intro heq
  have hmem' : u ∈ A ++ x :: B := by
    rw [List.mem_append, List.mem_singleton] at hu
    rcases hu with hu | rfl
    · exact List.mem_append_left _ hu
    · simp
  have hmem := List.mem_of_head? ((h.eq_next_iff hmem').mp heq).symm
  have hnodup : ((A ++ [x]) ++ B).Nodup := by simpa using h.nodup
  exact (List.nodup_append.mp hnodup).2.2 u hu u hmem rfl

section Edits

variable [DecidableEq α]

/-- **Replacing a stretch** `M` of the list by `M'`: the links inside `M'` are right, the
last node before it and the first after it are linked to it, and no other link changes. -/
theorem splice {M M' : List α} (h : Linked next prev nil (A ++ (M ++ B)))
    (hnodup : (A ++ (M' ++ B)).Nodup) (hne : ∀ x ∈ M', x ≠ nil)
    (hmid : ∀ C x D, M' = C ++ x :: D →
      prev' x = (A ++ C).getLast?.getD nil ∧ next' x = (D ++ B).head?.getD nil)
    (hA : ∀ x ∈ A, prev' x = prev x ∧
      next' x = if some x = A.getLast? then (M' ++ B).head?.getD nil else next x)
    (hB : ∀ x ∈ B, next' x = next x ∧
      prev' x = if some x = B.head? then (A ++ M').getLast?.getD nil else prev x) :
    Linked next' prev' nil (A ++ (M' ++ B)) := by
  refine ⟨hnodup, ?_, ?_⟩
  · intro x hx
    simp only [List.mem_append] at hx
    rcases hx with hx | hx | hx
    · exact h.ne_nil x (by simp [hx])
    · exact hne x hx
    · exact h.ne_nil x (by simp [hx])
  · intro A₁ x B₁ heq
    rcases append_eq_append_cons heq with ⟨C, rfl, rfl⟩ | ⟨C, rfl, hrest⟩
    · -- the node stands before the stretch: its successor changes if it is the last
      obtain ⟨hprev, hnext⟩ := h.links A₁ x (C ++ (M ++ B)) (by simp)
      obtain ⟨hkeep, hseam⟩ := hA x (by simp)
      refine ⟨hkeep.trans hprev, ?_⟩
      cases C with
      | nil => simpa using hseam
      | cons y C =>
        have hlast : some x ≠ (A₁ ++ x :: y :: C).getLast? := by
          intro heq
          have hmem : x ∈ y :: C := List.mem_of_getLast? (by simpa using heq.symm)
          simp only [List.nodup_append, List.nodup_cons] at hnodup
          exact hnodup.1.2.1.1 hmem
        rw [hseam, if_neg hlast, hnext]
        rfl
    · rcases append_eq_append_cons hrest with ⟨D, rfl, rfl⟩ | ⟨D, rfl, rfl⟩
      · exact hmid C x D rfl
      · -- it stands behind: its predecessor changes if it is the first
        obtain ⟨hprev, hnext⟩ := h.links (A ++ (M ++ D)) x B₁ (by simp)
        obtain ⟨hkeep, hseam⟩ := hB x (by simp)
        refine ⟨?_, hkeep.trans hnext⟩
        cases D with
        | nil => simpa using hseam
        | cons y D =>
          have hfirst : some x ≠ (y :: D ++ x :: B₁).head? := by
            intro heq
            obtain rfl : x = y := by simpa using heq
            simp [List.nodup_append] at hnodup
          rw [hseam, if_neg hfirst, hprev]
          simp [List.getLast?_cons]

/-- **Unlinking** a node: its neighbours are linked to each other. -/
theorem unlink {x : α} (h : Linked next prev nil (A ++ x :: B))
    (hnext : ∀ u ∈ A ++ B, next' u = if u = prev x then next x else next u)
    (hprev : ∀ u ∈ A ++ B, prev' u = if u = next x then prev x else prev u) :
    Linked next' prev' nil (A ++ B) := by
  have hsub : (A ++ B).Sublist (A ++ x :: B) := by simp
  refine @splice _ next prev next' prev' nil A B _ [x] [] h (h.nodup.sublist hsub) (by simp)
    (by simp) ?_ ?_
  · intro u hu
    have hmem : u ∈ A ++ x :: B := List.mem_append_left _ hu
    rw [hprev u (List.mem_append_left _ hu), hnext u (List.mem_append_left _ hu),
      if_neg (h.next_ne_of_mem (by simp [hu])), h.next_eq]
    exact ⟨rfl, if_congr (h.eq_prev_iff hmem) rfl rfl⟩
  · intro u hu
    have hmem : u ∈ A ++ x :: B := by simp [hu]
    rw [hprev u (List.mem_append_right _ hu), hnext u (List.mem_append_right _ hu),
      if_neg (h.prev_ne_of_mem (by simp [hu])), h.prev_eq, List.append_nil]
    exact ⟨rfl, if_congr (h.eq_next_iff hmem) rfl rfl⟩

/-- **Linking in** a node behind another. -/
theorem insertAfter {x y : α} (h : Linked next prev nil (A ++ x :: B)) (hy : y ∉ A ++ x :: B)
    (hne : y ≠ nil) (hnexty : next' y = next x) (hprevy : prev' y = x)
    (hnext : ∀ u ∈ A ++ x :: B, next' u = if u = x then y else next u)
    (hprev : ∀ u ∈ A ++ x :: B, prev' u = if u = next x then y else prev u) :
    Linked next' prev' nil (A ++ x :: y :: B) := by
  have hl : A ++ x :: B = (A ++ [x]) ++ ([] ++ B) := by simp
  have hl' : A ++ x :: y :: B = (A ++ [x]) ++ ([y] ++ B) := by simp
  have hnodup : (A ++ x :: y :: B).Nodup := by
    have hperm : (A ++ x :: y :: B).Perm (y :: (A ++ x :: B)) := by
      rw [hl', hl]
      exact List.perm_middle
    exact hperm.nodup_iff.mpr (List.nodup_cons.mpr ⟨hy, h.nodup⟩)
  rw [hl']
  refine @splice _ next prev next' prev' nil (A ++ [x]) B _ [] [y] (hl ▸ h) (hl' ▸ hnodup)
    (by simpa using hne) ?_ ?_ ?_
  · intro C u D hC
    obtain ⟨rfl, rfl, rfl⟩ : C = [] ∧ u = y ∧ D = [] := by
      cases C with
      | nil => simpa [eq_comm] using hC
      | cons _ _ => simp at hC
    exact ⟨by simpa using hprevy, by rw [hnexty, h.next_eq]; rfl⟩
  · intro u hu
    have hmem : u ∈ A ++ x :: B := by
      rw [hl]
      exact List.mem_append_left _ hu
    rw [hprev u hmem, hnext u hmem, if_neg (h.next_ne_of_mem hu)]
    exact ⟨rfl, if_congr (by simp) rfl rfl⟩
  · intro u hu
    have hmem : u ∈ A ++ x :: B := by simp [hu]
    have hux : u ≠ x := by
      rintro rfl
      have hnd := (List.nodup_append.mp h.nodup).2.1
      exact (List.nodup_cons.mp hnd).1 hu
    rw [hprev u hmem, hnext u hmem, if_neg hux]
    exact ⟨rfl, if_congr (h.eq_next_iff hmem) (by simp) rfl⟩

/-- **Linking in** a node at the front. -/
theorem pushFront {y : α} (h : Linked next prev nil l) (hy : y ∉ l) (hne : y ≠ nil)
    (hnexty : next' y = l.head?.getD nil) (hprevy : prev' y = nil)
    (hnext : ∀ u ∈ l, next' u = next u)
    (hprev : ∀ u ∈ l, prev' u = if some u = l.head? then y else prev u) :
    Linked next' prev' nil (y :: l) := by
  refine @splice _ next prev next' prev' nil [] l _ [] [y] h (List.nodup_cons.mpr ⟨hy, h.nodup⟩)
    (by simpa using hne) ?_ (by simp) ?_
  · intro C u D hC
    obtain ⟨rfl, rfl, rfl⟩ : C = [] ∧ u = y ∧ D = [] := by
      cases C with
      | nil => simpa [eq_comm] using hC
      | cons _ _ => simp at hC
    exact ⟨by simpa using hprevy, hnexty⟩
  · intro u hu
    exact ⟨hnext u hu, by simpa using hprev u hu⟩

end Edits

end Linked
