import MVK.Liballoc

/-!
# Tags after an edit

What each edit of the allocator leaves to be read in the fields of the tags it knows of,
what else it changes, and the heads of the lists behind it.  An edit goes by links that
may be null; where they are not, they lead to tags that are spaced.

## Main definitions

* `Edits ts s s'` — `s'` is `s` but for the tags at `ts` and the heads of the lists.

## Main results

* `get_removeTag`, `get_insertTag`, `get_meltLeft`, `get_carve` — **the fields after an
  edit**.
-/

namespace MVK

namespace Allocator

variable {σ : Type*} {s : Allocator σ} {ts : List Word} {t u : Word} {f g : TagField}

/-! ### Fields after an edit -/

@[simp] theorem set_freePages (v : Word) : (s.set t f v).freePages = s.freePages := rfl

@[simp] theorem set_completePages (v : Word) : (s.set t f v).completePages = s.completePages := rfl

@[simp] theorem get_setFreePages (i v : Word) : (s.setFreePages i v).get t f = s.get t f := rfl

@[simp] theorem get_setCompletePages (i v : Word) :
    (s.setCompletePages i v).get t f = s.get t f := rfl

@[simp] theorem setFreePages_set (i v w : Word) :
    (s.setFreePages i v).set t f w = (s.set t f w).setFreePages i v := rfl

@[simp] theorem setFreePages_freePages (i v : Word) :
    (s.setFreePages i v).freePages = Function.update s.freePages i v := rfl

theorem get_set (hts : Spaced ts) (ht : t ∈ ts) (hu : u ∈ ts) (v : Word) :
    (s.set t f v).get u g = if u = t ∧ g = f then v else s.get u g :=
  field_setField hts ht hu s.mem f g v

/-- A store behind a link that may be null. -/
theorem get_guarded (hts : Spaced ts) (ht : t = 0 ∨ t ∈ ts) (hu : u ∈ ts) (v : Word) :
    (if t ≠ 0 then s.set t f v else s).get u g = if u = t ∧ g = f then v else s.get u g := by
  split
  · next hne => exact get_set hts (ht.resolve_left hne) hu v
  · next heq =>
    have hut : u ≠ t := fun hut => heq (hut ▸ (hts.fit u hu).1)
    rw [if_neg fun h => hut h.1]

theorem freePages_guarded (c : Prop) [Decidable c] (v : Word) :
    (if c then s.set t f v else s).freePages = s.freePages := by
  split <;> rfl

/-- `s'` is `s` but for the tags at `ts` and the heads of the lists. -/
structure Edits (ts : List Word) (s s' : Allocator σ) : Prop where
  mem : OnlyTags ts s.mem s'.mem
  pages : s'.pages = s.pages
  flags : s'.flags = s.flags
  completePages : s'.completePages = s.completePages
  initialized : s'.initialized = s.initialized

namespace Edits

variable {s' s'' : Allocator σ} {us : List Word}

theorem refl (ts : List Word) (s : Allocator σ) : Edits ts s s :=
  ⟨.refl ts s.mem, rfl, rfl, rfl, rfl⟩

theorem trans (h : Edits ts s s') (h' : Edits ts s' s'') : Edits ts s s'' :=
  ⟨h.mem.trans h'.mem, h'.pages.trans h.pages, h'.flags.trans h.flags,
    h'.completePages.trans h.completePages, h'.initialized.trans h.initialized⟩

theorem mono (h : Edits ts s s') (hsub : ts ⊆ us) : Edits us s s' :=
  { h with mem := h.mem.mono hsub }

theorem set (h : Edits ts s s') (hts : Spaced ts) (ht : t ∈ ts) (v : Word) :
    Edits ts s (s'.set t f v) :=
  h.trans ⟨onlyTags_setField hts ht s'.mem f v, rfl, rfl, rfl, rfl⟩

theorem guarded (h : Edits ts s s') (hts : Spaced ts) (ht : t = 0 ∨ t ∈ ts) (v : Word) :
    Edits ts s (if t ≠ 0 then s'.set t f v else s') := by
  split
  · next hne => exact h.set hts (ht.resolve_left hne) v
  · exact h

theorem setFreePages (h : Edits ts s s') (i v : Word) : Edits ts s (s'.setFreePages i v) :=
  h.trans ⟨.refl ts _, rfl, rfl, rfl, rfl⟩

end Edits

section RemoveTag

variable (hts : Spaced ts) (ht : t ∈ ts) (hprev : s.get t .prev = 0 ∨ s.get t .prev ∈ ts)
  (hnext : s.get t .next = 0 ∨ s.get t .next ∈ ts) (hpt : t ≠ s.get t .prev)

include hts ht hprev hnext hpt

theorem get_removeTag (hu : u ∈ ts) :
    (s.removeTag t).get u f =
      if u = t ∧ f = .index then -1
      else if u = t ∧ f = .prev then 0
      else if u = t ∧ f = .next then 0
      else if u = s.get t .next ∧ f = .prev then s.get t .prev
      else if u = s.get t .prev ∧ f = .next then s.get t .next
      else s.get u f := by
  have hhead : ∀ u f, (if s.freePages (s.get t .index) = t then
      s.setFreePages (s.get t .index) (s.get t .next) else s).get u f = s.get u f := by
    intro u f
    split <;> rfl
  simp only [removeTag, hhead, get_set hts ht hu, get_guarded hts hprev ht,
    get_guarded hts hprev hu, get_guarded hts hnext hu, hpt, false_and, if_false]

theorem edits_removeTag : Edits ts s (s.removeTag t) := by
  have hhead : ∀ u f, (if s.freePages (s.get t .index) = t then
      s.setFreePages (s.get t .index) (s.get t .next) else s).get u f = s.get u f := by
    intro u f
    split <;> rfl
  have h0 : Edits ts s (if s.freePages (s.get t .index) = t then
      s.setFreePages (s.get t .index) (s.get t .next) else s) := by
    split
    · exact (Edits.refl ts s).setFreePages _ _
    · exact .refl ts s
  simp only [removeTag, hhead, get_guarded hts hprev ht, hpt, false_and, if_false]
  exact ((((h0.guarded hts hprev _).guarded hts hnext _).set hts ht _).set hts ht _).set hts ht _

omit hts ht hprev hnext hpt in
theorem freePages_removeTag :
    (s.removeTag t).freePages = if s.freePages (s.get t .index) = t then
      Function.update s.freePages (s.get t .index) (s.get t .next) else s.freePages := by
  simp only [removeTag, set_freePages, freePages_guarded]
  split <;> rfl

end RemoveTag

section InsertTag

variable {i : Word}

/-- The list that `insert_tag` takes. -/
def realIndex (s : Allocator σ) (tag index : Word) : Word :=
  if index.slt 0 then clampExp (getexp (s.get tag .realSize - tagSize)) else index

theorem insertTag_eq :
    s.insertTag t i =
      (if s.freePages (s.realIndex t i) ≠ 0 then
        ((s.set t .index (s.realIndex t i)).set (s.freePages (s.realIndex t i)) .prev t).set t .next
          (s.freePages (s.realIndex t i))
      else s.set t .index (s.realIndex t i)).setFreePages (s.realIndex t i) t :=
  rfl

theorem freePages_insertTag :
    (s.insertTag t i).freePages = Function.update s.freePages (s.realIndex t i) t := by
  rw [insertTag_eq, setFreePages_freePages]
  split <;> rfl

theorem insertTag_setCompletePages (j n : Word) :
    (s.setCompletePages j n).insertTag t i = (s.insertTag t i).setCompletePages j n := by
  have hreal : (s.setCompletePages j n).realIndex t i = s.realIndex t i := rfl
  have hfree : (s.setCompletePages j n).freePages = s.freePages := rfl
  rw [insertTag_eq, insertTag_eq, hreal, hfree]
  split <;> rfl

variable (hts : Spaced ts) (ht : t ∈ ts)
  (hhead : s.freePages (s.realIndex t i) = 0 ∨ s.freePages (s.realIndex t i) ∈ ts)

include hts ht hhead

theorem get_insertTag (hu : u ∈ ts) :
    (s.insertTag t i).get u f =
      if u = t ∧ f = .next ∧ s.freePages (s.realIndex t i) ≠ 0 then s.freePages (s.realIndex t i)
      else if u = s.freePages (s.realIndex t i) ∧ f = .prev then t
      else if u = t ∧ f = .index then s.realIndex t i
      else s.get u f := by
  have hu0 := (hts.fit u hu).1
  rw [insertTag_eq, get_setFreePages]
  rcases hhead with hhead | hhead
  · simp only [hhead, hu0, ne_eq, not_true_eq_false, and_false, false_and, if_false,
      get_set hts ht hu]
  · have hne := (hts.fit _ hhead).1
    rw [if_pos hne]
    simp only [get_set hts ht hu, get_set hts hhead hu]
    exact if_congr (by simp only [hne, ne_eq, not_false_eq_true, and_true]) rfl rfl

theorem edits_insertTag : Edits ts s (s.insertTag t i) := by
  rw [insertTag_eq]
  have h0 : Edits ts s (s.set t .index (s.realIndex t i)) := (Edits.refl ts s).set hts ht _
  refine Edits.setFreePages ?_ _ _
  split
  · next hne => exact (h0.set hts (hhead.resolve_left hne) _).set hts ht _
  · exact h0

end InsertTag

section MeltLeft

variable (hts : Spaced ts) (ht : t ∈ ts) (hleft : s.get t .splitLeft ∈ ts)
  (hright : s.get t .splitRight = 0 ∨ s.get t .splitRight ∈ ts) (hlt : t ≠ s.get t .splitLeft)

include hts ht hleft hright hlt

theorem get_meltLeft (hu : u ∈ ts) :
    (s.meltLeft t).2.get u f =
      if u = s.get t .splitRight ∧ f = .splitLeft then s.get t .splitLeft
      else if u = s.get t .splitLeft ∧ f = .splitRight then s.get t .splitRight
      else if u = s.get t .splitLeft ∧ f = .realSize then
        s.get (s.get t .splitLeft) .realSize + s.get t .realSize
      else s.get u f := by
  simp only [meltLeft, get_guarded hts hright hu, get_set hts hleft hu, get_set hts hleft ht, hlt,
    false_and, if_false]

theorem edits_meltLeft : Edits ts s (s.meltLeft t).2 := by
  simp only [meltLeft, get_set hts hleft ht, hlt, false_and, if_false]
  exact (((Edits.refl ts s).set hts hleft _).set hts hleft _).guarded hts hright _

omit hts ht hleft hright hlt in
theorem freePages_meltLeft : (s.meltLeft t).2.freePages = s.freePages := by
  simp only [meltLeft, freePages_guarded, set_freePages]

end MeltLeft

/-- What is left of `absorb_right` once the block to the right is in no list of free blocks
is `melt_left` of that block. -/
theorem absorbRight_eq (h : (s.removeTag (s.get t .splitRight)).get (s.get t .splitRight) .splitLeft
    = t) :
    s.absorbRight t =
      (s.removeTag (s.get t .splitRight)).meltLeft (s.get t .splitRight) := by
  simp only [meltLeft, h]
  rfl

section NewTag

/-- What `allocate_new_tag` writes at the start of a region. -/
def freshTag (s : Allocator σ) (t size realSize : Word) : Allocator σ :=
  (((((((s.set t .magic liballocMagic).set t .size size).set t .realSize realSize).set t .index
    (-1)).set t .next 0).set t .prev 0).set t .splitLeft 0).set t .splitRight 0

theorem allocateNewTag_eq (src : PageSource σ) (size : Word) :
    s.allocateNewTag src size =
      match src.liballocAlloc (pagesFor size) s.pages s.mem with
      | none => none
      | some (tag, pages, mem) =>
        if tag = 0 then some (0, { s with pages, mem })
        else some (tag, { s with pages, mem }.freshTag tag size (pagesFor size * lPageSize)) :=
  rfl

variable (hts : Spaced ts) (ht : t ∈ ts)

include hts ht

theorem get_freshTag (hu : u ∈ ts) (size realSize : Word) :
    (s.freshTag t size realSize).get u f =
      if u = t then
        match f with
        | .magic => liballocMagic
        | .size => size
        | .realSize => realSize
        | .index => -1
        | _ => 0
      else s.get u f := by
  simp only [freshTag, get_set hts ht hu]
  by_cases hut : u = t
  · simp only [hut, true_and, if_true]
    cases f <;> rfl
  · simp only [hut, false_and, if_false]

theorem edits_freshTag (size realSize : Word) : Edits ts s (s.freshTag t size realSize) :=
  ((((((((Edits.refl ts s).set hts ht _).set hts ht _).set hts ht _).set hts ht _).set hts ht
    _).set hts ht _).set hts ht _).set hts ht _

end NewTag

section SplitTag

/-- The tag that `split_tag` makes. -/
def newTag (s : Allocator σ) (t : Word) : Word := t + tagSize + s.get t .size

/-- What `split_tag` leaves for it. -/
def remainder (s : Allocator σ) (t : Word) : Word := s.get t .realSize - tagSize - s.get t .size

/-- `split_tag` up to `insert_tag`. -/
def carve (s : Allocator σ) (t : Word) : Allocator σ :=
  let s' := s.set (s.newTag t) .magic liballocMagic
  let s' := s'.set (s.newTag t) .realSize (s.remainder t)
  let s' := s'.set (s.newTag t) .next 0
  let s' := s'.set (s.newTag t) .prev 0
  let s' := s'.set (s.newTag t) .splitLeft t
  let s' := s'.set (s.newTag t) .splitRight (s'.get t .splitRight)
  let s' :=
    if s'.get (s.newTag t) .splitRight ≠ 0 then
      s'.set (s'.get (s.newTag t) .splitRight) .splitLeft (s.newTag t)
    else s'
  let s' := s'.set t .splitRight (s.newTag t)
  s'.set t .realSize (s'.get t .realSize - s'.get (s.newTag t) .realSize)

theorem splitTag_eq : s.splitTag t = (s.newTag t, (s.carve t).insertTag (s.newTag t) (-1)) := rfl

theorem freePages_carve : (s.carve t).freePages = s.freePages := by
  simp only [carve, set_freePages, freePages_guarded]

/-- The last store to a field counts. -/
theorem set_set (v w : Word) : (s.set t f v).set t f w = s.set t f w := by
  have hmem : setField (setField s.mem t f v) t f w = setField s.mem t f w := by
    funext a
    rw [setField, setField, setField, write32, write32, write32]
    split_ifs <;> rfl
  rw [set, set, set, hmem]

/-- `insert_tag` does not look at the index it overwrites. -/
theorem insertTag_set_index (hts : Spaced ts) (ht : t ∈ ts) (i v : Word) :
    (s.set t .index v).insertTag t i = s.insertTag t i := by
  have hreal : (s.set t .index v).realIndex t i = s.realIndex t i := by
    simp only [realIndex, get_set hts ht ht, reduceCtorEq, and_false, if_false]
  rw [insertTag_eq, insertTag_eq, hreal, set_freePages, set_set]

variable (hts : Spaced (s.newTag t :: ts)) (ht : t ∈ ts)
  (hright : s.get t .splitRight = 0 ∨ s.get t .splitRight ∈ ts)

include hts ht hright

theorem get_carve (hu : u ∈ s.newTag t :: ts) :
    (s.carve t).get u f =
      if u = t ∧ f = .realSize then s.get t .realSize - s.remainder t
      else if u = t ∧ f = .splitRight then s.newTag t
      else if u = s.get t .splitRight ∧ f = .splitLeft then s.newTag t
      else if u = s.newTag t ∧ f = .splitRight then s.get t .splitRight
      else if u = s.newTag t ∧ f = .splitLeft then t
      else if u = s.newTag t ∧ f = .prev then 0
      else if u = s.newTag t ∧ f = .next then 0
      else if u = s.newTag t ∧ f = .realSize then s.remainder t
      else if u = s.newTag t ∧ f = .magic then liballocMagic
      else s.get u f := by
  have hn : s.newTag t ∈ s.newTag t :: ts := List.mem_cons_self
  have ht' : t ∈ s.newTag t :: ts := List.mem_cons_of_mem _ ht
  have hright' : s.get t .splitRight = 0 ∨ s.get t .splitRight ∈ s.newTag t :: ts :=
    hright.imp_right (List.mem_cons_of_mem _)
  have htn : t ≠ s.newTag t := fun h => (List.nodup_cons.mp hts.nodup).1 (h ▸ ht)
  simp only [carve, get_set hts hn ht', get_set hts hn hn, get_set hts hn hu, get_set hts ht' ht',
    get_set hts ht' hn, get_set hts ht' hu, get_guarded hts hright' ht', get_guarded hts hright' hn,
    get_guarded hts hright' hu, htn, htn.symm, reduceCtorEq, and_self, and_false, false_and,
    if_true, if_false]

theorem edits_carve : Edits (s.newTag t :: ts) s (s.carve t) := by
  have hn : s.newTag t ∈ s.newTag t :: ts := List.mem_cons_self
  have ht' : t ∈ s.newTag t :: ts := List.mem_cons_of_mem _ ht
  have hright' : s.get t .splitRight = 0 ∨ s.get t .splitRight ∈ s.newTag t :: ts :=
    hright.imp_right (List.mem_cons_of_mem _)
  have htn : t ≠ s.newTag t := fun h => (List.nodup_cons.mp hts.nodup).1 (h ▸ ht)
  have h0 := ((((((Edits.refl _ s).set hts hn liballocMagic (f := .magic)).set hts hn
    (s.remainder t) (f := .realSize)).set hts hn 0 (f := .next)).set hts hn 0 (f := .prev)).set
    hts hn t (f := .splitLeft)).set hts hn (s.get t .splitRight) (f := .splitRight)
  simp only [carve, get_set hts hn ht', get_set hts hn hn, htn, reduceCtorEq, and_self, and_false,
    if_true, if_false]
  exact (((h0.guarded hts hright' _).set hts ht' _).set hts ht' _)

end SplitTag

section Control

variable {i v : Word}

/-- What the edits of tags and lists leave: the flags, and whether the lists were emptied. -/
def control (s : Allocator σ) : FlagState × Word := (s.flags, s.initialized)

@[simp] theorem control_set : (s.set t f v).control = s.control := rfl

@[simp] theorem control_setFreePages : (s.setFreePages i v).control = s.control := rfl

@[simp] theorem control_setCompletePages : (s.setCompletePages i v).control = s.control := rfl

@[simp] theorem control_insertTag : (s.insertTag t i).control = s.control := by
  simp only [insertTag, control_setFreePages, apply_ite control, control_set, ite_self]

@[simp] theorem control_removeTag : (s.removeTag t).control = s.control := by
  simp only [removeTag, control_setFreePages, apply_ite control, control_set, ite_self]

@[simp] theorem control_meltLeft : (s.meltLeft t).2.control = s.control := by
  simp only [meltLeft, apply_ite control, control_set, ite_self]

@[simp] theorem control_absorbRight : (s.absorbRight t).2.control = s.control := by
  simp only [absorbRight, apply_ite control, control_set, control_removeTag, ite_self]

@[simp] theorem control_splitTag : (s.splitTag t).2.control = s.control := by
  simp only [splitTag, apply_ite control, control_set, control_insertTag, ite_self]

@[simp] theorem control_freshTag (size realSize : Word) :
    (s.freshTag t size realSize).control = s.control := rfl

@[simp] theorem control_unlock : s.unlock.control = (s.unlock.flags, s.initialized) := rfl

theorem unlock_control {s' : Allocator σ} (h : s'.control = s.control) :
    s'.unlock.control = s.unlock.control := by
  obtain ⟨hflags, hinit⟩ := Prod.mk.inj h
  rw [control_unlock, control_unlock, unlock, unlock, hflags, hinit]

theorem control_useTag (size : Word) : (s.useTag t size).2.control = s.unlock.control := by
  refine unlock_control ?_
  simp only [apply_ite control, control_splitTag, control_set, ite_self]

end Control

end Allocator

end MVK
