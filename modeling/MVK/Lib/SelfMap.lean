import Mathlib.Logic.Function.Basic

/-!
# Two-level tables mapped into themselves

A memory of frames, each a table of entries, in which one frame (the *root*) is
a directory of tables.  Looking up a pair of indices follows the root's entry to
a table and that table's entry to a result.  One slot `r` of the root points back
to the root: through it the lookup reads the root's own entries, which is how a
program that can only reach looked-up frames edits the tables themselves.

Everything here is over arbitrary frames, indices and entries.

## Main definitions

* `Format` — when an entry is present, and which frame it points to.
* `lookup` — the two-level lookup, returning both entries on the path.
* `setEntry` — writing one entry of one frame.
* `Tree` — the root points to itself at `r`, and its other present slots point
  to tables of their own.

## Main results

* `lookup_self` — through the self slot, a lookup reads the root.
* `lookup_setEntry_leaf` — **a table write changes one lookup.**
* `lookup_setEntry_root` — **installing an empty table changes no lookup**,
  except the one through the self slot that now finds the table.
-/

namespace SelfMap

variable {F I E : Type*}

/-- What the tables' entries mean. -/
structure Format (F E : Type*) where
  /-- The entry is present. -/
  present : E → Bool
  /-- The frame the entry points to. -/
  frame : E → F

/-- The two-level lookup: both entries on the path, when both are present. -/
def lookup (fmt : Format F E) (t : F → I → E) (root : F) (i j : I) : Option (E × E) :=
  if fmt.present (t root i) then
    if fmt.present (t (fmt.frame (t root i)) j) then
      some (t root i, t (fmt.frame (t root i)) j)
    else none
  else none

/-! ### Lookups -/

section Lookup

variable {fmt : Format F E} {t : F → I → E} {root : F} {i j : I}

theorem lookup_of_absent (h : fmt.present (t root i) = false) :
    lookup fmt t root i j = none := by
  simp [lookup, h]

theorem lookup_of_present (h : fmt.present (t root i) = true) :
    lookup fmt t root i j =
      if fmt.present (t (fmt.frame (t root i)) j) then
        some (t root i, t (fmt.frame (t root i)) j)
      else none := by
  simp [lookup, h]

theorem lookup_eq_some {p : E × E} : lookup fmt t root i j = some p ↔
    fmt.present (t root i) = true ∧ fmt.present (t (fmt.frame (t root i)) j) = true ∧
      p = (t root i, t (fmt.frame (t root i)) j) := by
  rw [lookup]
  split
  · next hd =>
    split
    · next hl => simp [hd, hl, eq_comm]
    · next hl => simp [hl]
  · next hd => simp [hd]

/-- A lookup only reads the root's slot and one entry of the table behind it. -/
theorem lookup_congr {t' : F → I → E} (hroot : t' root i = t root i)
    (hleaf : fmt.present (t root i) = true →
      t' (fmt.frame (t root i)) j = t (fmt.frame (t root i)) j) :
    lookup fmt t' root i j = lookup fmt t root i j := by
  unfold lookup
  rw [hroot]
  split
  · next h => rw [hleaf h]
  · rfl

end Lookup

/-! ### The self slot -/

/-- Slot `r` of the root points to the root, and every other present slot to a
table of its own. -/
structure Tree (fmt : Format F E) (t : F → I → E) (root : F) (r : I) : Prop where
  self_present : fmt.present (t root r) = true
  self_frame : fmt.frame (t root r) = root
  frame_ne_root : ∀ i, i ≠ r → fmt.present (t root i) = true → fmt.frame (t root i) ≠ root
  frame_inj : ∀ i i', fmt.present (t root i) = true → fmt.present (t root i') = true →
    fmt.frame (t root i) = fmt.frame (t root i') → i = i'

section Tree

variable {fmt : Format F E} {t : F → I → E} {root : F} {r : I}

/-- **Through the self slot a lookup reads the root.** -/
theorem lookup_self (h : Tree fmt t root r) (i : I) :
    lookup fmt t root r i =
      if fmt.present (t root i) then some (t root r, t root i) else none := by
  rw [lookup_of_present h.self_present, h.self_frame]

end Tree

/-! ### Writing an entry -/

variable [DecidableEq F] [DecidableEq I]

/-- The memory with entry `i` of frame `f` replaced by `e`. -/
def setEntry (t : F → I → E) (f : F) (i : I) (e : E) : F → I → E :=
  Function.update t f (Function.update (t f) i e)

theorem setEntry_apply (t : F → I → E) (f : F) (i : I) (e : E) (g : F) (j : I) :
    setEntry t f i e g j = if g = f ∧ j = i then e else t g j := by
  unfold setEntry
  by_cases hg : g = f
  · subst hg
    by_cases hj : j = i
    · subst hj; simp
    · simp [hj]
  · simp [hg]

@[simp] theorem setEntry_self (t : F → I → E) (f : F) (i : I) (e : E) :
    setEntry t f i e f i = e := by
  simp [setEntry_apply]

theorem setEntry_of_frame_ne (t : F → I → E) {f g : F} (h : g ≠ f) (i j : I) (e : E) :
    setEntry t f i e g j = t g j := by
  simp [setEntry_apply, h]

theorem setEntry_of_index_ne (t : F → I → E) {i j : I} (h : j ≠ i) (f g : F) (e : E) :
    setEntry t f i e g j = t g j := by
  simp [setEntry_apply, h]

section Write

variable {fmt : Format F E} {t : F → I → E} {root : F} {r : I}

/-- **A table write changes one lookup.**  Writing entry `j` of the table behind
slot `i` changes the lookup of `(i, j)` and no other. -/
theorem lookup_setEntry_leaf (h : Tree fmt t root r) {i : I} (hi : i ≠ r)
    (hp : fmt.present (t root i) = true) (j : I) (e : E) (i' j' : I) :
    lookup fmt (setEntry t (fmt.frame (t root i)) j e) root i' j' =
      if i' = i ∧ j' = j then (if fmt.present e then some (t root i, e) else none)
      else lookup fmt t root i' j' := by
  have hroot : ∀ k, setEntry t (fmt.frame (t root i)) j e root k = t root k := fun k =>
    setEntry_of_frame_ne t (h.frame_ne_root i hi hp).symm j k e
  by_cases hij : i' = i ∧ j' = j
  · obtain ⟨rfl, rfl⟩ := hij
    rw [lookup, hroot, setEntry_self]
    simp [hp]
  · rw [if_neg hij]
    refine lookup_congr (hroot i') ?_
    intro hp'
    rw [setEntry_apply, if_neg]
    rintro ⟨hf, hj⟩
    exact hij ⟨h.frame_inj _ _ hp' hp hf, hj⟩

/-- **Installing an empty table changes no lookup**, except that the self slot
now finds the table. -/
theorem lookup_setEntry_root (h : Tree fmt t root r) {i : I} (hi : i ≠ r)
    (habs : fmt.present (t root i) = false) {e : E} (he : fmt.present e = true)
    (hne : fmt.frame e ≠ root) (hempty : ∀ j, fmt.present (t (fmt.frame e) j) = false)
    (i' j' : I) :
    lookup fmt (setEntry t root i e) root i' j' =
      if i' = r ∧ j' = i then some (t root r, e) else lookup fmt t root i' j' := by
  by_cases hr : i' = r
  · -- through the self slot, the lookup reads the slot that was written
    subst hr
    have hself : setEntry t root i e root i' = t root i' :=
      setEntry_of_index_ne t (Ne.symm hi) root root e
    rw [lookup, hself, if_pos h.self_present, h.self_frame, setEntry_apply,
      lookup_self h]
    by_cases hj : j' = i
    · simp [hj, he]
    · simp [hj]
  · rw [if_neg (fun hc => hr hc.1)]
    by_cases hii : i' = i
    · -- the new table is empty
      subst hii
      rw [lookup_of_absent habs, lookup, setEntry_self, if_pos he,
        setEntry_of_frame_ne t hne, hempty]
      simp
    · refine lookup_congr (setEntry_of_index_ne t hii root root e) ?_
      intro hp
      exact setEntry_of_frame_ne t (h.frame_ne_root i' hr hp) i j' e

end Write

end SelfMap
