import Mathlib.Data.List.Basic
import Mathlib.Tactic.Common

/-!
# Lines

Text that is written line by line, each line ended by a separator that does not occur in
it, can be taken apart again.

## Main definitions

* `unlines` — the lines, each with the separator after it.

## Main results

* `span_inj` — a word can be told from what follows.
* `unlines_inj` — **the text determines its lines.**
-/

namespace Lines

variable {α : Type*} {sep : α}

/-- The lines, each ended by the separator. -/
def unlines (sep : α) (lines : List (List α)) : List α := lines.flatMap fun line => line ++ [sep]

@[simp] theorem unlines_nil : unlines sep [] = [] := rfl

@[simp] theorem unlines_cons (line : List α) (lines : List (List α)) :
    unlines sep (line :: lines) = line ++ sep :: unlines sep lines := by
  simp [unlines]

/-- A word ends where the first other character stands. -/
theorem span_inj {p : α → Prop} {word word' rest rest' : List α} (hword : ∀ a ∈ word, p a)
    (hword' : ∀ a ∈ word', p a) (hrest : ∀ a ∈ rest.head?, ¬ p a)
    (hrest' : ∀ a ∈ rest'.head?, ¬ p a) (h : word ++ rest = word' ++ rest') : word = word' ∧ rest = rest' := by
  induction word generalizing word' with
  | nil =>
    cases word' with
    | nil => exact ⟨rfl, h⟩
    | cons a word' =>
      rw [List.nil_append, List.cons_append] at h
      exact absurd (hword' a List.mem_cons_self) (hrest a (h ▸ rfl))
  | cons a word ih =>
    cases word' with
    | nil =>
      rw [List.nil_append, List.cons_append] at h
      exact absurd (hword a List.mem_cons_self) (hrest' a (h ▸ rfl))
    | cons b word' =>
      obtain ⟨rfl, htail⟩ := List.cons.inj h
      obtain ⟨rfl, hrest⟩ := ih (fun c hc => hword c (List.mem_cons_of_mem a hc))
        (fun c hc => hword' c (List.mem_cons_of_mem a hc)) htail
      exact ⟨rfl, hrest⟩

/-- The first line ends at the first separator. -/
theorem line_inj {line line' : List α} {rest rest' : List α} (hline : sep ∉ line)
    (hline' : sep ∉ line') (h : line ++ sep :: rest = line' ++ sep :: rest') :
    line = line' ∧ rest = rest' := by
  have hne : ∀ {l : List α}, sep ∉ l → ∀ a ∈ l, a ≠ sep := fun hl a ha heq => hl (heq ▸ ha)
  have hsep : ∀ (l : List α), ∀ a ∈ (sep :: l).head?, ¬ a ≠ sep := by
    intro l a ha hne
    exact hne (Option.some.inj ha).symm
  obtain ⟨hword, hrest⟩ := span_inj (hne hline) (hne hline') (hsep rest) (hsep rest') h
  exact ⟨hword, (List.cons.inj hrest).2⟩

/-- **The text determines its lines.** -/
theorem unlines_inj {lines lines' : List (List α)} (hlines : ∀ line ∈ lines, sep ∉ line)
    (hlines' : ∀ line ∈ lines', sep ∉ line) (h : unlines sep lines = unlines sep lines') :
    lines = lines' := by
  induction lines generalizing lines' with
  | nil =>
    cases lines' with
    | nil => rfl
    | cons line' lines' => simp at h
  | cons line lines ih =>
    cases lines' with
    | nil => simp at h
    | cons line' lines' =>
      rw [unlines_cons, unlines_cons] at h
      obtain ⟨rfl, hrest⟩ :=
        line_inj (hlines line List.mem_cons_self) (hlines' line' List.mem_cons_self) h
      rw [ih (fun l hl => hlines l (List.mem_cons_of_mem _ hl))
        (fun l hl => hlines' l (List.mem_cons_of_mem _ hl)) hrest]

end Lines
