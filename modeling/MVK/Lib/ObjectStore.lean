import Mathlib.Data.Nat.Notation
import Mathlib.Logic.Function.Basic
import MVK.Lib.Runs

/-!
# Stores of objects

What a program sees of an allocator: objects at addresses, each a row of bytes of which
some are known.  The program makes objects, writes and reads them, changes their lengths
and gives them up.  It owes the store that it only goes to objects it has; the store owes
it that a new object lies apart from the others, and that what is read is what was
written.

## Main definitions

* `Objects` — the objects, by their addresses.
* `ObjectEvent` — what happens to them; `ObjectEvent.after`, the objects after it.
* `ObjectEvent.Asked`, `ObjectEvent.Granted` — the duties of the program and of the store.

## Main results

* `Objects.apart_of_granted` — **objects that are granted one by one lie apart.**
-/

namespace ObjectStore

open Transition

variable {α β : Type*}

/-- Objects by their addresses, as rows of bytes.  A byte that nobody wrote is not known. -/
abbrev Objects (α β : Type*) := α → Option (List (Option β))

/-- What happens to objects. -/
inductive ObjectEvent (α β : Type*)
  | nothing
  /-- A new object. -/
  | alloc (p : α) (bytes : List (Option β))
  | free (p : α)
  /-- The object at `p` moves to `q`, and has `n` bytes from then on. -/
  | resize (p : α) (n : ℕ) (q : α)
  | store (p : α) (i : ℕ) (v : β)
  | load (p : α) (i : ℕ) (v : β)

/-- The first `n` bytes, and unknown ones if there are not that many. -/
def resized (n : ℕ) (bytes : List (Option β)) : List (Option β) :=
  bytes.take n ++ List.replicate (n - bytes.length) none

@[simp] theorem length_resized (n : ℕ) (bytes : List (Option β)) :
    (resized n bytes).length = n := by
  rw [resized, List.length_append, List.length_take, List.length_replicate]
  omega

theorem getElem?_resized {n i : ℕ} {bytes : List (Option β)} {v : β}
    (h : (resized n bytes)[i]? = some (some v)) :
    i < n ∧ i < bytes.length ∧ bytes[i]? = some (some v) := by
  rw [resized] at h
  by_cases hi : i < (bytes.take n).length
  · rw [List.getElem?_append_left hi] at h
    rw [List.length_take] at hi
    rw [List.getElem?_take_of_lt (by omega)] at h
    exact ⟨by omega, by omega, h⟩
  · rw [List.getElem?_append_right (by omega), List.getElem?_replicate] at h
    split at h
    · cases h
    · cases h

variable [DecidableEq α]

namespace ObjectEvent

/-- The objects after an event. -/
def after (objs : Objects α β) : ObjectEvent α β → Objects α β
  | nothing => objs
  | alloc p bytes => Function.update objs p (some bytes)
  | free p => Function.update objs p none
  | resize p n q => Function.update (Function.update objs p none) q ((objs p).map (resized n))
  | store p i v => Function.update objs p ((objs p).map (·.set i (some v)))
  | load _ _ _ => objs

omit [DecidableEq α] in
/-- What the program owes: it goes to objects that are there, and to bytes inside them. -/
def Asked (objs : Objects α β) : ObjectEvent α β → Prop
  | nothing => True
  | alloc _ _ => True
  | free p => ∃ bytes, objs p = some bytes
  | resize p _ _ => ∃ bytes, objs p = some bytes
  | store p i _ => ∃ bytes, objs p = some bytes ∧ i < bytes.length
  | load p i _ => ∃ bytes, objs p = some bytes ∧ i < bytes.length

/-- `n` bytes at `p` lie apart from all objects. -/
def Clear (apart : α → ℕ → α → ℕ → Prop) (objs : Objects α β) (p : α) (n : ℕ) : Prop :=
  objs p = none ∧ ∀ q bytes, objs q = some bytes → apart p n q bytes.length

/-- What the store owes: a new object lies apart from those that are there, and a byte that
is known is read as it was written. -/
def Granted (apart : α → ℕ → α → ℕ → Prop) (objs : Objects α β) : ObjectEvent α β → Prop
  | nothing => True
  | alloc p bytes => Clear apart objs p bytes.length
  | free _ => True
  | resize _ n q => Clear apart objs q n
  | store _ _ _ => True
  | load p i v => ∀ bytes w, objs p = some bytes → bytes[i]? = some (some w) → v = w

end ObjectEvent

/-- No two objects overlap. -/
def Objects.Apart (apart : α → ℕ → α → ℕ → Prop) (objs : Objects α β) : Prop :=
  ∀ p q bytes bytes', p ≠ q → objs p = some bytes → objs q = some bytes' →
    apart p bytes.length q bytes'.length

section Apart

variable {apart : α → ℕ → α → ℕ → Prop} {objs : Objects α β} {p : α}

/-- A new object where there is room for it. -/
theorem Objects.Apart.update (hsymm : ∀ p m q n, apart p m q n → apart q n p m)
    (h : objs.Apart apart) {bytes : List (Option β)}
    (hclear : ObjectEvent.Clear apart objs p bytes.length) :
    Objects.Apart apart (Function.update objs p (some bytes)) := by
  intro q r bq br hne hq hr
  rw [Function.update_apply] at hq hr
  split at hq
  · next hqp =>
    subst hqp
    obtain rfl := Option.some.inj hq
    rw [if_neg hne.symm] at hr
    exact hclear.2 r br hr
  · split at hr
    · next hrp =>
      subst hrp
      obtain rfl := Option.some.inj hr
      exact hsymm _ _ _ _ (hclear.2 q bq hq)
    · exact h q r bq br hne hq hr

/-- Fewer objects. -/
theorem Objects.Apart.erase (h : objs.Apart apart) :
    Objects.Apart apart (Function.update objs p none) := by
  intro q r bq br hne hq hr
  rw [Function.update_apply] at hq hr
  split at hq
  · cases hq
  · split at hr
    · cases hr
    · exact h q r bq br hne hq hr

omit apart in
/-- A store changes no length. -/
theorem length_of_store {q : α} {i : ℕ} {v : β} {bytes : List (Option β)}
    (hq : (ObjectEvent.store p i v).after objs q = some bytes) :
    ∃ bytes', objs q = some bytes' ∧ bytes'.length = bytes.length := by
  rw [ObjectEvent.after, Function.update_apply] at hq
  split at hq
  · next hqp =>
    subst hqp
    obtain ⟨bytes', hbytes', rfl⟩ := Option.map_eq_some_iff.mp hq
    exact ⟨bytes', hbytes', List.length_set.symm⟩
  · exact ⟨bytes, hq, rfl⟩

/-- **One event.** -/
theorem Objects.Apart.after (hsymm : ∀ p m q n, apart p m q n → apart q n p m)
    (h : objs.Apart apart) {e : ObjectEvent α β} (hgrant : e.Granted apart objs) :
    Objects.Apart apart (e.after objs) := by
  cases e with
  | nothing => exact h
  | alloc p bytes => exact h.update hsymm hgrant
  | free p => exact h.erase
  | resize p n q =>
    rw [ObjectEvent.after]
    cases hp : objs p with
    | none => exact h.erase.erase
    | some bytes =>
      refine h.erase.update hsymm ?_
      rw [length_resized]
      refine ⟨?_, ?_⟩
      · rw [Function.update_apply]
        split
        · rfl
        · exact hgrant.1
      · intro r br hr
        rw [Function.update_apply] at hr
        split at hr
        · cases hr
        · exact hgrant.2 r br hr
  | store p i v =>
    intro q r bq br hne hq hr
    obtain ⟨bq', hq', hlq⟩ := length_of_store hq
    obtain ⟨br', hr', hlr⟩ := length_of_store hr
    rw [← hlq, ← hlr]
    exact h q r bq' br' hne hq' hr'
  | load p i v => exact h

/-- **Objects that are granted one by one lie apart.** -/
theorem Objects.apart_of_granted (hsymm : ∀ p m q n, apart p m q n → apart q n p m)
    {es : List (ObjectEvent α β)} (h : Along ObjectEvent.after (ObjectEvent.Granted apart) objs es)
    (hobjs : objs.Apart apart) : Objects.Apart apart (es.foldl ObjectEvent.after objs) :=
  h.foldl (fun _ _ hgrant hinv => hinv.after hsymm hgrant) hobjs

end Apart

end ObjectStore
