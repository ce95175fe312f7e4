import MVK.Lib.Linked
import MVK.TagEdits

/-!
# The lists that tags are in

A tag is in two doubly linked lists at most: the row of blocks of its region, and the
list of free blocks that its index names.  Each edit of the allocator is read here as
what it does to the rows and to the lists.

## Main definitions

* `HeapBlock` — a tag, with those of its fields that are not links.
* `TagLists s rows bins` — the tags in memory are those of `rows`, linked as `rows` and
  `bins` say.

## Main results

* `TagLists.removeTag`, `TagLists.insertTag`, `TagLists.meltLeft`, `TagLists.splitTag` —
  **what the edits do to the lists.**
-/

namespace MVK

open Allocator

/-- A tag, and what it says of its block. -/
@[ext] structure HeapBlock where
  tag : Word
  size : Word
  realSize : Word
  index : Word
  deriving DecidableEq

/-- The tags of some blocks. -/
abbrev tagsOf (bs : List HeapBlock) : List Word := bs.map HeapBlock.tag

variable {σ : Type*} {s s' : Allocator σ} {rows rest : List (List HeapBlock)} {A B : List HeapBlock}
  {b c : HeapBlock} {bins : Word → List Word} {i j t u : Word}

/-- The fields of the tag in memory are those of the block. -/
structure BlockAt (s : Allocator σ) (b : HeapBlock) : Prop where
  magic : s.get b.tag .magic = liballocMagic
  size : s.get b.tag .size = b.size
  realSize : s.get b.tag .realSize = b.realSize
  index : s.get b.tag .index = b.index

/-- The tags in memory are those of `rows`.  Each row is linked, each list of `bins` is
linked, and a block is in the list of its index, if that is not -1, and in no other. -/
structure TagLists (s : Allocator σ) (rows : List (List HeapBlock)) (bins : Word → List Word) :
    Prop where
  spaced : Spaced (tagsOf rows.flatten)
  blockAt : ∀ b ∈ rows.flatten, BlockAt s b
  row : ∀ row ∈ rows, Linked (s.get · .splitRight) (s.get · .splitLeft) 0 (tagsOf row)
  bin : ∀ i, Linked (s.get · .next) (s.get · .prev) 0 (bins i)
  head : ∀ i, i < maxExp → s.freePages i = (bins i).head?.getD 0
  listed : ∀ b ∈ rows.flatten, ∀ i, b.tag ∈ bins i ↔ b.index = i ∧ i ≠ -1
  tag_of_bin : ∀ i, ∀ t ∈ bins i, t ∈ tagsOf rows.flatten
  loose : ∀ b ∈ rows.flatten, b.index = -1 → s.get b.tag .next = 0 ∧ s.get b.tag .prev = 0

namespace TagLists

/-- The order of the rows does not matter. -/
theorem perm {rows' : List (List HeapBlock)} (h : TagLists s rows bins) (hp : rows.Perm rows') :
    TagLists s rows' bins := by
  have hflat := hp.flatten
  have hmem : ∀ b, b ∈ rows'.flatten → b ∈ rows.flatten := fun b => hflat.mem_iff.mpr
  exact {
    spaced := h.spaced.perm (hflat.map _)
    blockAt := fun b hb => h.blockAt b (hmem b hb)
    row := fun row hrow => h.row row (hp.mem_iff.mpr hrow)
    bin := h.bin
    head := h.head
    listed := fun b hb => h.listed b (hmem b hb)
    tag_of_bin := fun i t ht => (hflat.map _).mem_iff.mp (h.tag_of_bin i t ht)
    loose := fun b hb => h.loose b (hmem b hb) }

/-- A tag is that of one block. -/
theorem eq_of_tag (h : TagLists s rows bins) (hb : b ∈ rows.flatten) (hc : c ∈ rows.flatten)
    (htag : b.tag = c.tag) : b = c :=
  List.inj_on_of_nodup_map h.spaced.nodup hb hc htag

/-- A tag is in one list. -/
theorem bin_unique (h : TagLists s rows bins) (hi : t ∈ bins i) (hj : t ∈ bins j) : i = j := by
  obtain ⟨b, hb, rfl⟩ := List.mem_map.mp (h.tag_of_bin i t hi)
  exact ((h.listed b hb i).mp hi).1.symm.trans ((h.listed b hb j).mp hj).1

theorem tag_mem (hb : b ∈ rows.flatten) : b.tag ∈ tagsOf rows.flatten :=
  List.mem_map_of_mem hb

theorem tagsOf_subset {row : List HeapBlock} (hrow : row ∈ rows) :
    tagsOf row ⊆ tagsOf rows.flatten :=
  List.map_subset _ fun _ hb => List.mem_flatten_of_mem hrow hb

/-- The neighbours of a tag in its list of free blocks. -/
theorem bin_neighbours (h : TagLists s rows bins) (ht : t ∈ bins i) :
    (s.get t .prev = 0 ∨ s.get t .prev ∈ bins i) ∧ (s.get t .next = 0 ∨ s.get t .next ∈ bins i) ∧
      t ≠ s.get t .prev ∧ t ≠ s.get t .next := by
  obtain ⟨P, Q, hPQ⟩ := List.append_of_mem ht
  have hlink := h.bin i
  rw [hPQ] at hlink ⊢
  refine ⟨hlink.prev_mem.imp_right (List.mem_append_left _),
    hlink.next_mem.imp_right fun hm => by simp [hm], ?_, ?_⟩
  · exact hlink.prev_ne_of_mem List.mem_cons_self
  · exact hlink.next_ne_of_mem (by simp)

/-- And in its row. -/
theorem row_neighbours (h : TagLists s ((A ++ b :: B) :: rest) bins) :
    s.get b.tag .splitLeft = (A.getLast?.map HeapBlock.tag).getD 0 ∧
      s.get b.tag .splitRight = (B.head?.map HeapBlock.tag).getD 0 := by
  have hlink := h.row (A ++ b :: B) List.mem_cons_self
  rw [tagsOf, List.map_append, List.map_cons] at hlink
  exact ⟨by simpa using hlink.prev_eq, by simpa using hlink.next_eq⟩

/-- Only the first block of a row has no left neighbour. -/
theorem splitLeft_eq_zero_iff (h : TagLists s ((A ++ b :: B) :: rest) bins) :
    s.get b.tag .splitLeft = 0 ↔ A = [] := by
  rw [h.row_neighbours.1]
  rcases List.eq_nil_or_concat A with rfl | ⟨A', l, rfl⟩
  · simp
  · have hl := (h.spaced.fit l.tag (tag_mem (by simp))).1
    simpa using hl

/-- And only the last no right one. -/
theorem splitRight_eq_zero_iff (h : TagLists s ((A ++ b :: B) :: rest) bins) :
    s.get b.tag .splitRight = 0 ↔ B = [] := by
  rw [h.row_neighbours.2]
  cases B with
  | nil => simp
  | cons r B =>
    have hr := (h.spaced.fit r.tag (tag_mem (by simp))).1
    simpa using hr

/-- The blocks of the rows, with one of them in view. -/
theorem mem_flatten_focus : c ∈ ((A ++ b :: B) :: rest).flatten ↔
    c = b ∨ c ∈ A ∨ c ∈ B ∨ c ∈ rest.flatten := by
  simp only [List.flatten_cons, List.mem_append, List.mem_cons]
  tauto

/-- The others keep their tags to themselves. -/
theorem tag_ne (h : TagLists s ((A ++ b :: B) :: rest) bins)
    (hc : c ∈ A ∨ c ∈ B ∨ c ∈ rest.flatten) : c.tag ≠ b.tag := by
  have hperm : (tagsOf ((A ++ b :: B) :: rest).flatten).Perm
      (b.tag :: tagsOf (A ++ B ++ rest.flatten)) := by
    simp only [tagsOf, List.flatten_cons, List.append_assoc, List.map_append, List.map_cons,
      List.cons_append]
    exact List.perm_middle
  intro heq
  refine (List.nodup_cons.mp (hperm.nodup_iff.mp h.spaced.nodup)).1 (heq ▸ List.mem_map_of_mem ?_)
  simpa [or_assoc] using hc

/-- An edit of one block that leaves its tag, its place in the row and the other blocks. -/
theorem relist {b' : HeapBlock} {bins' : Word → List Word}
    (h : TagLists s ((A ++ b :: B) :: rest) bins) (htag : b'.tag = b.tag)
    (hkeep : ∀ u ∈ tagsOf ((A ++ b :: B) :: rest).flatten,
      (s'.get u .splitRight = s.get u .splitRight ∧ s'.get u .splitLeft = s.get u .splitLeft) ∧
      (u ≠ b.tag → s'.get u .magic = s.get u .magic ∧ s'.get u .size = s.get u .size ∧
        s'.get u .realSize = s.get u .realSize ∧ s'.get u .index = s.get u .index ∧
        ((∀ i, u ∉ bins i) → s'.get u .next = s.get u .next ∧ s'.get u .prev = s.get u .prev)))
    (hblock : BlockAt s' b')
    (hbin : ∀ i, Linked (s'.get · .next) (s'.get · .prev) 0 (bins' i))
    (hhead : ∀ i, i < maxExp → s'.freePages i = (bins' i).head?.getD 0)
    (hlisted : ∀ i, b.tag ∈ bins' i ↔ b'.index = i ∧ i ≠ -1)
    (hlists : ∀ i u, u ≠ b.tag → (u ∈ bins' i ↔ u ∈ bins i))
    (hloose : b'.index = -1 → s'.get b.tag .next = 0 ∧ s'.get b.tag .prev = 0) :
    TagLists s' ((A ++ b' :: B) :: rest) bins' := by
  have htags : tagsOf (A ++ b' :: B) = tagsOf (A ++ b :: B) := by
    simp [tagsOf, htag]
  have hflat :
      tagsOf ((A ++ b' :: B) :: rest).flatten = tagsOf ((A ++ b :: B) :: rest).flatten := by
    simp [tagsOf, htag]
  have hother : ∀ c, c ∈ A ∨ c ∈ B ∨ c ∈ rest.flatten →
      c ∈ ((A ++ b :: B) :: rest).flatten ∧ c.tag ≠ b.tag := fun c hc =>
    ⟨mem_flatten_focus.mpr (Or.inr hc), h.tag_ne hc⟩
  refine ⟨hflat ▸ h.spaced, ?_, ?_, hbin, hhead, ?_, ?_, ?_⟩
  · intro c hc
    rcases mem_flatten_focus.mp hc with rfl | hc
    · exact hblock
    · obtain ⟨hmem, hne⟩ := hother c hc
      obtain ⟨h1, h2, h3, h4, -⟩ := (hkeep c.tag (tag_mem hmem)).2 hne
      have hat := h.blockAt c hmem
      exact ⟨h1.trans hat.magic, h2.trans hat.size, h3.trans hat.realSize, h4.trans hat.index⟩
  · have hrows : ∀ row ∈ (A ++ b :: B) :: rest,
        Linked (s'.get · .splitRight) (s'.get · .splitLeft) 0 (tagsOf row) := fun row hr =>
      (h.row row hr).congr (fun u hu => (hkeep u (tagsOf_subset hr hu)).1.1)
        fun u hu => (hkeep u (tagsOf_subset hr hu)).1.2
    intro row hr
    rcases List.mem_cons.mp hr with rfl | hr
    · rw [htags]
      exact hrows _ List.mem_cons_self
    · exact hrows row (List.mem_cons_of_mem _ hr)
  · intro c hc i
    rcases mem_flatten_focus.mp hc with rfl | hc
    · rw [htag]
      exact hlisted i
    · obtain ⟨hmem, hne⟩ := hother c hc
      exact (hlists i c.tag hne).trans (h.listed c hmem i)
  · intro i u hu
    rw [hflat]
    by_cases hub : u = b.tag
    · rw [hub]
      exact tag_mem (mem_flatten_focus.mpr (Or.inl rfl))
    · exact h.tag_of_bin i u ((hlists i u hub).mp hu)
  · intro c hc hindex
    rcases mem_flatten_focus.mp hc with rfl | hc
    · rw [htag]
      exact hloose hindex
    · obtain ⟨hmem, hne⟩ := hother c hc
      have hout : ∀ i, c.tag ∉ bins i := by
        intro i hi
        obtain ⟨rfl, hi⟩ := (h.listed c hmem i).mp hi
        exact hi hindex
      obtain ⟨hnext, hprev⟩ := ((hkeep c.tag (tag_mem hmem)).2 hne).2.2.2.2 hout
      rw [hnext, hprev]
      exact h.loose c hmem hindex

/-- **`remove_tag`** takes a free block out of its list. -/
theorem removeTag (h : TagLists s ((A ++ b :: B) :: rest) bins) (hfree : b.index ≠ -1)
    (hi : b.index < maxExp) :
    TagLists (s.removeTag b.tag) ((A ++ { b with index := -1 } :: B) :: rest)
      (Function.update bins b.index ((bins b.index).erase b.tag)) := by
  have hb : b ∈ ((A ++ b :: B) :: rest).flatten := mem_flatten_focus.mpr (Or.inl rfl)
  have ht : b.tag ∈ bins b.index := (h.listed b hb _).mpr ⟨rfl, hfree⟩
  have hat := h.blockAt b hb
  have hmem := h.tag_of_bin
  obtain ⟨hprev, hnext, hpt, hnt⟩ := h.bin_neighbours ht
  have hget := fun u f hu => @get_removeTag σ s _ b.tag u f h.spaced (tag_mem hb)
    (hprev.imp_right (hmem _ _)) (hnext.imp_right (hmem _ _)) hpt hu
  have hgetb := fun f => hget b.tag f (tag_mem hb)
  -- the list without the block
  obtain ⟨P, Q, hPQ⟩ := List.append_of_mem ht
  have hlink := hPQ ▸ h.bin b.index
  have hnodup : (b.tag :: (P ++ Q)).Nodup := List.perm_middle.nodup_iff.mp hlink.nodup
  have herase : (bins b.index).erase b.tag = P ++ Q := by
    have hP : b.tag ∉ P := fun hin => (List.nodup_cons.mp hnodup).1 (List.mem_append_left _ hin)
    rw [hPQ, List.erase_append_right _ hP, List.erase_cons_head]
  have hPQmem : ∀ u ∈ P ++ Q, u ∈ tagsOf ((A ++ b :: B) :: rest).flatten ∧ u ≠ b.tag := by
    intro u hu
    have hbin : u ∈ bins b.index :=
      hPQ ▸ List.perm_middle.symm.mem_iff.mp (List.mem_cons_of_mem _ hu)
    refine ⟨hmem _ _ hbin, ?_⟩
    rintro rfl
    exact (List.nodup_cons.mp hnodup).1 hu
  -- what is in no list, or in another one, is no neighbour of the block
  have hapart : ∀ u, u ≠ 0 → u ∉ bins b.index →
      u ≠ b.tag ∧ u ≠ s.get b.tag .prev ∧ u ≠ s.get b.tag .next := by
    intro u hu0 hu
    have hne : ∀ v, v = 0 ∨ v ∈ bins b.index → u ≠ v := by
      rintro v (rfl | hv) rfl
      · exact hu0 rfl
      · exact hu hv
    exact ⟨hne _ (Or.inr ht), hne _ hprev, hne _ hnext⟩
  refine h.relist rfl ?_ ⟨?_, ?_, ?_, ?_⟩ ?_ ?_ ?_ ?_ ?_
  · intro u hu
    refine ⟨⟨?_, ?_⟩, fun hne => ⟨?_, ?_, ?_, ?_, fun hout => ?_⟩⟩
    · simp only [hget u _ hu, reduceCtorEq, and_false, if_false]
    · simp only [hget u _ hu, reduceCtorEq, and_false, if_false]
    · simp only [hget u _ hu, reduceCtorEq, and_false, if_false]
    · simp only [hget u _ hu, reduceCtorEq, and_false, if_false]
    · simp only [hget u _ hu, reduceCtorEq, and_false, if_false]
    · simp only [hget u _ hu, hne, reduceCtorEq, and_false, false_and, if_false]
    · obtain ⟨h1, h2, h3⟩ := hapart u (h.spaced.fit u hu).1 (hout _)
      simp only [hget u _ hu, h1, h2, h3, false_and, if_false, and_self]
  · simp only [hgetb, reduceCtorEq, and_false, if_false, hat.magic]
  · simp only [hgetb, reduceCtorEq, and_false, if_false, hat.size]
  · simp only [hgetb, reduceCtorEq, and_false, if_false, hat.realSize]
  · simp only [hgetb, and_self, if_true]
  · intro j
    by_cases hj : j = b.index
    · subst hj
      rw [Function.update_self, herase]
      refine hlink.unlink ?_ ?_
      · intro u hu
        obtain ⟨hin, hne⟩ := hPQmem u hu
        simp only [hget u _ hin, hne, reduceCtorEq, and_true, and_false, if_false]
      · intro u hu
        obtain ⟨hin, hne⟩ := hPQmem u hu
        simp only [hget u _ hin, hne, reduceCtorEq, and_true, and_false, if_false]
    · rw [Function.update_of_ne hj]
      have hother : ∀ u ∈ bins j, u ≠ b.tag ∧ u ≠ s.get b.tag .prev ∧ u ≠ s.get b.tag .next :=
        fun u hu => hapart u ((h.bin j).ne_nil u hu) fun hin => hj (h.bin_unique hu hin)
      refine (h.bin j).congr ?_ ?_
      · intro u hu
        obtain ⟨h1, h2, h3⟩ := hother u hu
        simp only [hget u _ (hmem _ _ hu), h1, h2, h3, false_and, if_false]
      · intro u hu
        obtain ⟨h1, h2, h3⟩ := hother u hu
        simp only [hget u _ (hmem _ _ hu), h1, h2, h3, false_and, if_false]
  · intro j hj
    rw [freePages_removeTag, hat.index, h.head _ hi]
    by_cases hji : j = b.index
    · subst hji
      rw [Function.update_self, herase, hPQ]
      cases P with
      | nil =>
        rw [List.nil_append, List.head?_cons, Option.getD_some, if_pos rfl, Function.update_self]
        exact hlink.next_eq
      | cons p P =>
        have hne : p ≠ b.tag := (hPQmem p List.mem_cons_self).2
        rw [List.cons_append, List.head?_cons, Option.getD_some, if_neg hne, h.head _ hj, hPQ]
        rfl
    · rw [Function.update_of_ne hji, ← h.head j hj]
      split
      · exact Function.update_of_ne hji ..
      · rfl
  · intro j
    refine ⟨fun hin => ?_, fun hj => absurd hj.1.symm hj.2⟩
    by_cases hj : j = b.index
    · subst hj
      rw [Function.update_self] at hin
      exact absurd hin ((h.bin b.index).nodup.not_mem_erase)
    · rw [Function.update_of_ne hj] at hin
      exact absurd (h.bin_unique hin ht) hj
  · intro j u hu
    by_cases hj : j = b.index
    · subst hj
      rw [Function.update_self]
      exact List.mem_erase_of_ne hu
    · rw [Function.update_of_ne hj]
  · intro _
    simp only [hgetb, reduceCtorEq, and_true, and_false, if_true, if_false, and_self]

theorem edits_removeTag (h : TagLists s rows bins) (ht : t ∈ bins i) :
    Edits (tagsOf rows.flatten) s (s.removeTag t) := by
  obtain ⟨hprev, hnext, hpt, -⟩ := h.bin_neighbours ht
  exact Allocator.edits_removeTag h.spaced (h.tag_of_bin i t ht)
    (hprev.imp_right (h.tag_of_bin i _)) (hnext.imp_right (h.tag_of_bin i _)) hpt

/-- A block of index -1 is in no list. -/
theorem notMem_bin (h : TagLists s rows bins) (hb : b ∈ rows.flatten) (hindex : b.index = -1)
    (i : Word) : b.tag ∉ bins i := by
  intro hin
  obtain ⟨rfl, hne⟩ := (h.listed b hb i).mp hin
  exact hne hindex

/-- The head of a list is null or in it. -/
theorem head_mem (h : TagLists s rows bins) (hi : i < maxExp) :
    s.freePages i = 0 ∨ s.freePages i ∈ bins i := by
  rw [h.head i hi]
  cases bins i with
  | nil => exact Or.inl rfl
  | cons t l => exact Or.inr List.mem_cons_self

theorem ne_neg_one_of_lt (hi : i < maxExp) : i ≠ -1 := by
  rintro rfl
  exact absurd hi (by decide)

/-- **`insert_tag`** puts a block in front of a list. -/
theorem insertTag (h : TagLists s ((A ++ b :: B) :: rest) bins) (hused : b.index = -1)
    (hi : s.realIndex b.tag i < maxExp) :
    TagLists (s.insertTag b.tag i) ((A ++ { b with index := s.realIndex b.tag i } :: B) :: rest)
      (Function.update bins (s.realIndex b.tag i) (b.tag :: bins (s.realIndex b.tag i))) := by
  have hb : b ∈ ((A ++ b :: B) :: rest).flatten := mem_flatten_focus.mpr (Or.inl rfl)
  have hat := h.blockAt b hb
  have hout := h.notMem_bin hb hused
  obtain ⟨hnext, hprev⟩ := h.loose b hb hused
  have hhead := h.head_mem hi
  have hget := fun u f hu => @get_insertTag σ s _ b.tag u f i h.spaced (tag_mem hb)
    (hhead.imp_right (h.tag_of_bin _ _)) hu
  have hgetb := fun f => hget b.tag f (tag_mem hb)
  have hheadne : ∀ u, u ≠ 0 → u ∉ bins (s.realIndex b.tag i) →
      u ≠ s.freePages (s.realIndex b.tag i) := by
    rintro u hu0 hu rfl
    exact hhead.elim hu0 hu
  have htne := hheadne b.tag (h.spaced.fit _ (tag_mem hb)).1 (hout _)
  refine h.relist rfl ?_ ⟨?_, ?_, ?_, ?_⟩ ?_ ?_ ?_ ?_ ?_
  · intro u hu
    refine ⟨⟨?_, ?_⟩, fun hne => ⟨?_, ?_, ?_, ?_, fun hlist => ?_⟩⟩
    · simp only [hget u _ hu, reduceCtorEq, false_and, and_false, if_false]
    · simp only [hget u _ hu, reduceCtorEq, false_and, and_false, if_false]
    · simp only [hget u _ hu, reduceCtorEq, false_and, and_false, if_false]
    · simp only [hget u _ hu, reduceCtorEq, false_and, and_false, if_false]
    · simp only [hget u _ hu, reduceCtorEq, false_and, and_false, if_false]
    · simp only [hget u _ hu, hne, reduceCtorEq, false_and, and_false, if_false]
    · have hne' := hheadne u (h.spaced.fit u hu).1 (hlist _)
      simp only [hget u _ hu, hne, hne', false_and, if_false, and_self]
  · simp only [hgetb, reduceCtorEq, false_and, and_false, if_false, hat.magic]
  · simp only [hgetb, reduceCtorEq, false_and, and_false, if_false, hat.size]
  · simp only [hgetb, reduceCtorEq, false_and, and_false, if_false, hat.realSize]
  · simp only [hgetb, reduceCtorEq, false_and, and_false, and_self, if_false, if_true]
  · intro j
    by_cases hj : j = s.realIndex b.tag i
    · subst hj
      rw [Function.update_self]
      have hne : ∀ u ∈ bins (s.realIndex b.tag i), u ≠ b.tag := fun u hu hub => hout _ (hub ▸ hu)
      refine (h.bin _).pushFront (hout _) (h.spaced.fit _ (tag_mem hb)).1 ?_ ?_ ?_ ?_
      · rw [← h.head _ hi, hgetb]
        by_cases h0 : s.freePages (s.realIndex b.tag i) = 0
        · simp only [h0, hnext, ne_eq, not_true_eq_false, reduceCtorEq, and_false, if_false]
        · rw [if_pos ⟨rfl, rfl, h0⟩]
      · simp only [hgetb, htne, reduceCtorEq, false_and, and_false, if_false, hprev]
      · intro u hu
        simp only [hget u _ (h.tag_of_bin _ _ hu), hne u hu, reduceCtorEq, false_and, and_false,
          if_false]
      · intro u hu
        simp only [hget u _ (h.tag_of_bin _ _ hu), hne u hu, reduceCtorEq, false_and, and_false,
          and_true, if_false]
        refine if_congr ?_ rfl rfl
        rw [h.head _ hi]
        cases (bins (s.realIndex b.tag i)).head? with
        | none => simpa using (h.bin _).ne_nil u hu
        | some v => simp
    · rw [Function.update_of_ne hj]
      have hne : ∀ u ∈ bins j, u ≠ b.tag ∧ u ≠ s.freePages (s.realIndex b.tag i) := fun u hu =>
        ⟨fun hub => hout j (hub ▸ hu),
          hheadne u ((h.bin j).ne_nil u hu) fun hin => hj (h.bin_unique hu hin)⟩
      refine (h.bin j).congr ?_ ?_
      · intro u hu
        simp only [hget u _ (h.tag_of_bin _ _ hu), hne u hu, reduceCtorEq, false_and, and_false,
          if_false]
      · intro u hu
        obtain ⟨h1, h2⟩ := hne u hu
        simp only [hget u _ (h.tag_of_bin _ _ hu), h1, h2, false_and, if_false]
  · intro j hj
    rw [freePages_insertTag]
    by_cases hji : j = s.realIndex b.tag i
    · subst hji
      rw [Function.update_self, Function.update_self]
      rfl
    · rw [Function.update_of_ne hji, Function.update_of_ne hji, h.head j hj]
  · intro j
    by_cases hj : j = s.realIndex b.tag i
    · subst hj
      rw [Function.update_self]
      exact ⟨fun _ => ⟨rfl, ne_neg_one_of_lt hi⟩, fun _ => List.mem_cons_self⟩
    · rw [Function.update_of_ne hj]
      exact ⟨fun hin => absurd hin (hout j), fun hj' => absurd hj'.1.symm hj⟩
  · intro j u hu
    by_cases hj : j = s.realIndex b.tag i
    · subst hj
      rw [Function.update_self, List.mem_cons]
      exact or_iff_right hu
    · rw [Function.update_of_ne hj]
  · intro hindex
    exact absurd hindex (ne_neg_one_of_lt hi)

theorem edits_insertTag (h : TagLists s rows bins) (hb : b ∈ rows.flatten)
    (hi : s.realIndex b.tag i < maxExp) :
    Edits (tagsOf rows.flatten) s (s.insertTag b.tag i) :=
  Allocator.edits_insertTag h.spaced (tag_mem hb) ((h.head_mem hi).imp_right (h.tag_of_bin _ _))

/-- A row keeps its tags to itself. -/
theorem row_ne {row row' : List HeapBlock} (h : TagLists s (row :: rest) bins) (hrow' : row' ∈ rest)
    (hu : u ∈ tagsOf row') (ht : t ∈ tagsOf row) : u ≠ t := by
  have hnodup := h.spaced.nodup
  rw [tagsOf, List.flatten_cons, List.map_append] at hnodup
  rintro rfl
  exact (List.nodup_append.mp hnodup).2.2 _ ht _ (tagsOf_subset hrow' hu) rfl

/-- The block to the right of a block, if there is one. -/
theorem splitRight_mem (h : TagLists s ((A ++ b :: B) :: rest) bins) :
    s.get b.tag .splitRight = 0 ∨ s.get b.tag .splitRight ∈ tagsOf B := by
  rw [h.row_neighbours.2]
  cases B with
  | nil => exact Or.inl rfl
  | cons c B => exact Or.inr List.mem_cons_self

/-- The links that `melt_left` goes by. -/
theorem meltLeft_links {l : HeapBlock} (h : TagLists s ((A ++ l :: b :: B) :: rest) bins) :
    s.get b.tag .splitLeft = l.tag ∧
      (s.get b.tag .splitRight = 0 ∨ s.get b.tag .splitRight ∈ tagsOf B) ∧ b.tag ≠ l.tag := by
  have hrow : A ++ l :: b :: B = (A ++ [l]) ++ b :: B := by simp
  have hleft := (hrow ▸ h).row_neighbours.1
  rw [List.getLast?_append, List.getLast?_singleton, Option.some_or, Option.map_some,
    Option.getD_some] at hleft
  exact ⟨hleft, (hrow ▸ h).splitRight_mem,
    fun heq => (hrow ▸ h).tag_ne (c := l) (Or.inl (by simp)) heq.symm⟩

/-- **`melt_left`** joins a block to the one on its left. -/
theorem meltLeft {l : HeapBlock} (h : TagLists s ((A ++ l :: b :: B) :: rest) bins)
    (hused : b.index = -1) :
    (s.meltLeft b.tag).1 = l.tag ∧
      TagLists (s.meltLeft b.tag).2
        ((A ++ { l with realSize := l.realSize + b.realSize } :: B) :: rest) bins := by
  have hrow : A ++ l :: b :: B = (A ++ [l]) ++ b :: B := by simp
  have hb : b ∈ ((A ++ l :: b :: B) :: rest).flatten := by simp
  have hl : l ∈ ((A ++ l :: b :: B) :: rest).flatten := by simp
  have hout := h.notMem_bin hb hused
  obtain ⟨hleft, hright', hlb⟩ := h.meltLeft_links
  have hBsub : tagsOf B ⊆ tagsOf (A ++ l :: b :: B) := List.map_subset _ fun c hc => by
    simp [hc]
  have hget := fun u f hu => @get_meltLeft σ s _ b.tag u f h.spaced (tag_mem hb)
    (hleft ▸ tag_mem hl) (hright'.imp_right fun hm => tagsOf_subset List.mem_cons_self (hBsub hm))
    (hleft ▸ hlb) hu
  rw [hleft] at hget
  refine ⟨hleft, ?_⟩
  -- the tags that are left
  have hsub : (((A ++ { l with realSize := l.realSize + b.realSize } :: B) :: rest).flatten.map
      HeapBlock.tag).Sublist (tagsOf ((A ++ l :: b :: B) :: rest).flatten) := by
    simp only [tagsOf, List.flatten_cons, List.map_append, List.map_cons, List.append_assoc]
    simp
  have hmem : ∀ c, c ∈ A ∨ c ∈ B ∨ c ∈ rest.flatten →
      c ∈ ((A ++ l :: b :: B) :: rest).flatten ∧ c.tag ≠ l.tag := by
    intro c hc
    have hl : TagLists s ((A ++ l :: (b :: B)) :: rest) bins := h
    exact ⟨by simp only [List.flatten_cons, List.mem_append, List.mem_cons]; tauto,
      hl.tag_ne (hc.imp_right (Or.imp_left (List.mem_cons_of_mem _)))⟩
  refine ⟨h.spaced.sublist hsub, ?_, ?_, ?_, ?_, ?_, ?_, ?_⟩
  · intro c hc
    rcases mem_flatten_focus.mp hc with rfl | hc
    · have hat := h.blockAt l hl
      have hgetl := fun f => hget l.tag f (tag_mem hl)
      refine ⟨?_, ?_, ?_, ?_⟩
      · simp only [hgetl, reduceCtorEq, and_false, if_false, hat.magic]
      · simp only [hgetl, reduceCtorEq, and_false, if_false, hat.size]
      · simp only [hgetl, reduceCtorEq, and_false, if_false, and_self, if_true, hat.realSize,
          (h.blockAt b hb).realSize]
      · simp only [hgetl, reduceCtorEq, and_false, if_false, hat.index]
    · obtain ⟨hc, hne⟩ := hmem c hc
      have hat := h.blockAt c hc
      have hgetc := fun f => hget c.tag f (tag_mem hc)
      refine ⟨?_, ?_, ?_, ?_⟩
      · simp only [hgetc, reduceCtorEq, and_false, if_false, hat.magic]
      · simp only [hgetc, reduceCtorEq, and_false, if_false, hat.size]
      · simp only [hgetc, hne, reduceCtorEq, and_false, false_and, if_false, hat.realSize]
      · simp only [hgetc, reduceCtorEq, and_false, if_false, hat.index]
  · intro row hr
    rcases List.mem_cons.mp hr with rfl | hr
    · have hlink := h.row _ List.mem_cons_self
      have hin : ∀ u ∈ tagsOf (A ++ [l]) ++ tagsOf B,
          u ∈ tagsOf ((A ++ l :: b :: B) :: rest).flatten := by
        intro u hu
        refine tagsOf_subset List.mem_cons_self ?_
        simp only [tagsOf, List.map_append, List.map_cons, List.mem_append, List.mem_cons] at hu ⊢
        tauto
      have htags : tagsOf (A ++ { l with realSize := l.realSize + b.realSize } :: B) =
          tagsOf (A ++ [l]) ++ tagsOf B := by simp
      rw [hrow, tagsOf, List.map_append, List.map_cons] at hlink
      rw [htags]
      refine hlink.unlink ?_ ?_
      · intro u hu
        simp only [hget u _ (hin u hu), hleft, reduceCtorEq, and_false, and_true, if_false]
      · intro u hu
        simp only [hget u _ (hin u hu), hleft, reduceCtorEq, and_false, and_true, if_false]
    · have hin : ∀ u ∈ tagsOf row, u ∈ tagsOf ((A ++ l :: b :: B) :: rest).flatten := fun u hu =>
        tagsOf_subset (List.mem_cons_of_mem _ hr) hu
      have hne : ∀ u ∈ tagsOf row, u ≠ l.tag ∧ u ≠ s.get b.tag .splitRight := by
        intro u hu
        refine ⟨h.row_ne hr hu (by simp), ?_⟩
        rcases hright' with h0 | hB
        · rw [h0]
          exact (h.spaced.fit u (hin u hu)).1
        · exact h.row_ne hr hu (hBsub hB)
      refine (h.row row (List.mem_cons_of_mem _ hr)).congr ?_ ?_
      · intro u hu
        simp only [hget u _ (hin u hu), hne u hu, false_and, if_false]
      · intro u hu
        simp only [hget u _ (hin u hu), hne u hu, false_and, if_false]
  · intro i
    refine (h.bin i).congr ?_ ?_
    · intro u hu
      simp only [hget u _ (h.tag_of_bin i u hu), reduceCtorEq, and_false, if_false]
    · intro u hu
      simp only [hget u _ (h.tag_of_bin i u hu), reduceCtorEq, and_false, if_false]
  · intro i hi
    rw [freePages_meltLeft]
    exact h.head i hi
  · intro c hc i
    rcases mem_flatten_focus.mp hc with rfl | hc
    · exact h.listed l hl i
    · exact h.listed c (hmem c hc).1 i
  · intro i u hu
    obtain ⟨c, hc, rfl⟩ := List.mem_map.mp (h.tag_of_bin i u hu)
    have hcb : c ≠ b := by
      rintro rfl
      exact hout i hu
    have hc' : c = l ∨ c ∈ A ∨ c ∈ B ∨ c ∈ rest.flatten := by
      simp only [List.flatten_cons, List.mem_append, List.mem_cons] at hc
      tauto
    rcases hc' with rfl | hc'
    · exact List.mem_map.mpr ⟨_, mem_flatten_focus.mpr (Or.inl rfl), rfl⟩
    · exact tag_mem (mem_flatten_focus.mpr (Or.inr hc'))
  · intro c hc hindex
    have hloose : ∀ c ∈ ((A ++ l :: b :: B) :: rest).flatten, c.index = -1 →
        (s.meltLeft b.tag).2.get c.tag .next = 0 ∧ (s.meltLeft b.tag).2.get c.tag .prev = 0 := by
      intro c hc hindex
      simp only [hget c.tag _ (tag_mem hc), reduceCtorEq, and_false, if_false]
      exact h.loose c hc hindex
    rcases mem_flatten_focus.mp hc with rfl | hc
    · exact hloose l hl hindex
    · exact hloose c (hmem c hc).1 hindex

theorem edits_meltLeft {l : HeapBlock} (h : TagLists s ((A ++ l :: b :: B) :: rest) bins) :
    Edits (tagsOf ((A ++ l :: b :: B) :: rest).flatten) s (s.meltLeft b.tag).2 := by
  obtain ⟨hleft, hright, hlb⟩ := h.meltLeft_links
  have hl : l.tag ∈ tagsOf ((A ++ l :: b :: B) :: rest).flatten := tag_mem (by simp)
  have hB : ∀ t ∈ tagsOf B, t ∈ tagsOf ((A ++ l :: b :: B) :: rest).flatten := fun t ht =>
    tagsOf_subset List.mem_cons_self (List.map_subset _ (fun c hc => by simp [hc]) ht)
  exact Allocator.edits_meltLeft h.spaced (tag_mem (by simp)) (hleft ▸ hl)
    (hright.imp_right (hB _)) (hleft ▸ hlb)

/-- `split_tag` up to `insert_tag`, with the new block in no list yet. -/
theorem carve (h : TagLists s ((A ++ b :: B) :: rest) bins)
    (hspaced : Spaced (s.newTag b.tag :: tagsOf ((A ++ b :: B) :: rest).flatten)) :
    TagLists ((s.carve b.tag).set (s.newTag b.tag) .index (-1))
      ((A ++ { b with realSize := b.realSize - s.remainder b.tag } ::
        ⟨s.newTag b.tag, s.get (s.newTag b.tag) .size, s.remainder b.tag, -1⟩ :: B) :: rest)
      bins := by
  have hb : b ∈ ((A ++ b :: B) :: rest).flatten := mem_flatten_focus.mpr (Or.inl rfl)
  have hat := h.blockAt b hb
  have hn : s.newTag b.tag ∈ s.newTag b.tag :: tagsOf ((A ++ b :: B) :: rest).flatten :=
    List.mem_cons_self
  have hnotMem : s.newTag b.tag ∉ tagsOf ((A ++ b :: B) :: rest).flatten :=
    (List.nodup_cons.mp hspaced.nodup).1
  have hright' := h.splitRight_mem
  have hBsub : tagsOf B ⊆ tagsOf (A ++ b :: B) := List.map_subset _ fun c hc => by
    simp [hc]
  have hcarve := fun u f hu => @get_carve σ s _ b.tag u f hspaced (tag_mem hb)
    (hright'.imp_right fun hm => tagsOf_subset List.mem_cons_self (hBsub hm)) hu
  have hold : ∀ u ∈ tagsOf ((A ++ b :: B) :: rest).flatten, ∀ f,
      ((s.carve b.tag).set (s.newTag b.tag) .index (-1)).get u f =
        if u = b.tag ∧ f = .realSize then s.get b.tag .realSize - s.remainder b.tag
        else if u = b.tag ∧ f = .splitRight then s.newTag b.tag
        else if u = s.get b.tag .splitRight ∧ f = .splitLeft then s.newTag b.tag
        else s.get u f := by
    intro u hu f
    have hu' := List.mem_cons_of_mem (s.newTag b.tag) hu
    have hun : u ≠ s.newTag b.tag := fun heq => hnotMem (heq ▸ hu)
    simp only [get_set hspaced hn hu', hcarve u f hu', hun, false_and, if_false]
  have hnb : s.newTag b.tag ≠ b.tag := by
    intro heq
    rw [heq] at hnotMem
    exact hnotMem (tag_mem hb)
  have hnr : s.newTag b.tag ≠ s.get b.tag .splitRight := by
    intro heq
    rcases hright' with h0 | hB
    · exact (hspaced.fit _ hn).1 (heq.trans h0)
    · rw [heq] at hnotMem
      exact hnotMem (tagsOf_subset List.mem_cons_self (hBsub hB))
  have hnew : ∀ f, ((s.carve b.tag).set (s.newTag b.tag) .index (-1)).get (s.newTag b.tag) f =
      if f = .index then -1 else if f = .splitRight then s.get b.tag .splitRight
      else if f = .splitLeft then b.tag else if f = .prev then 0 else if f = .next then 0
      else if f = .realSize then s.remainder b.tag else if f = .magic then liballocMagic
      else s.get (s.newTag b.tag) f := by
    intro f
    simp only [get_set hspaced hn hn, hcarve _ f hn, hnb, hnr, true_and, false_and, if_false]
  have hmem : ∀ c, c ∈ A ∨ c ∈ B ∨ c ∈ rest.flatten →
      c ∈ ((A ++ b :: B) :: rest).flatten ∧ c.tag ≠ b.tag := fun c hc =>
    ⟨mem_flatten_focus.mpr (Or.inr hc), h.tag_ne hc⟩
  have hcases : ∀ c ∈ ((A ++ { b with realSize := b.realSize - s.remainder b.tag } ::
      ⟨s.newTag b.tag, s.get (s.newTag b.tag) .size, s.remainder b.tag, -1⟩ :: B) :: rest).flatten,
      c = { b with realSize := b.realSize - s.remainder b.tag } ∨
      c = ⟨s.newTag b.tag, s.get (s.newTag b.tag) .size, s.remainder b.tag, -1⟩ ∨
      (c ∈ A ∨ c ∈ B ∨ c ∈ rest.flatten) := by
    intro c hc
    simp only [List.flatten_cons, List.mem_append, List.mem_cons] at hc
    tauto
  refine ⟨?_, ?_, ?_, ?_, ?_, ?_, ?_, ?_⟩
  · refine hspaced.perm ?_
    have hperm := (@List.perm_middle _ (s.newTag b.tag) (tagsOf A ++ [b.tag])
      (tagsOf B ++ tagsOf rest.flatten)).symm
    simpa [tagsOf] using hperm
  · intro c hc
    rcases hcases c hc with rfl | rfl | hc
    · have hgetb := hold b.tag (tag_mem hb)
      refine ⟨?_, ?_, ?_, ?_⟩
      · simp only [hgetb, reduceCtorEq, and_false, if_false, hat.magic]
      · simp only [hgetb, reduceCtorEq, and_false, if_false, hat.size]
      · simp only [hgetb, and_self, if_true, hat.realSize]
      · simp only [hgetb, reduceCtorEq, and_false, if_false, hat.index]
    · refine ⟨?_, ?_, ?_, ?_⟩
      · simp only [hnew, reduceCtorEq, if_false, if_true]
      · simp only [hnew, reduceCtorEq, if_false]
      · simp only [hnew, reduceCtorEq, if_false, if_true]
      · simp only [hnew, if_true]
    · obtain ⟨hc, hne⟩ := hmem c hc
      have hat := h.blockAt c hc
      have hgetc := hold c.tag (tag_mem hc)
      refine ⟨?_, ?_, ?_, ?_⟩
      · simp only [hgetc, reduceCtorEq, and_false, if_false, hat.magic]
      · simp only [hgetc, reduceCtorEq, and_false, if_false, hat.size]
      · simp only [hgetc, hne, reduceCtorEq, and_false, false_and, if_false, hat.realSize]
      · simp only [hgetc, reduceCtorEq, and_false, if_false, hat.index]
  · intro row hr
    rcases List.mem_cons.mp hr with rfl | hr
    · have hlink := h.row _ List.mem_cons_self
      have hin : ∀ u ∈ tagsOf A ++ b.tag :: tagsOf B,
          u ∈ tagsOf ((A ++ b :: B) :: rest).flatten := by
        intro u hu
        refine tagsOf_subset List.mem_cons_self ?_
        simpa [tagsOf] using hu
      rw [tagsOf, List.map_append, List.map_cons] at hlink
      rw [tagsOf, List.map_append, List.map_cons, List.map_cons]
      refine hlink.insertAfter ?_ (hspaced.fit _ hn).1 ?_ ?_ ?_ ?_
      · exact fun hu => hnotMem (hin _ hu)
      · simp only [hnew, reduceCtorEq, if_false, if_true]
      · simp only [hnew, reduceCtorEq, if_false, if_true]
      · intro u hu
        simp only [hold u (hin u hu), reduceCtorEq, and_false, and_true, if_false]
      · intro u hu
        simp only [hold u (hin u hu), reduceCtorEq, and_false, and_true, if_false]
    · have hin : ∀ u ∈ tagsOf row, u ∈ tagsOf ((A ++ b :: B) :: rest).flatten := fun u hu =>
        tagsOf_subset (List.mem_cons_of_mem _ hr) hu
      have hne : ∀ u ∈ tagsOf row, u ≠ b.tag ∧ u ≠ s.get b.tag .splitRight := by
        intro u hu
        refine ⟨h.row_ne hr hu (by simp), ?_⟩
        rcases hright' with h0 | hB
        · rw [h0]
          exact (h.spaced.fit u (hin u hu)).1
        · exact h.row_ne hr hu (hBsub hB)
      refine (h.row row (List.mem_cons_of_mem _ hr)).congr ?_ ?_
      · intro u hu
        simp only [hold u (hin u hu), hne u hu, false_and, if_false]
      · intro u hu
        simp only [hold u (hin u hu), hne u hu, false_and, if_false]
  · intro i
    refine (h.bin i).congr ?_ ?_
    · intro u hu
      simp only [hold u (h.tag_of_bin i u hu), reduceCtorEq, and_false, if_false]
    · intro u hu
      simp only [hold u (h.tag_of_bin i u hu), reduceCtorEq, and_false, if_false]
  · intro i hi
    rw [set_freePages, freePages_carve]
    exact h.head i hi
  · intro c hc i
    rcases hcases c hc with rfl | rfl | hc
    · exact h.listed b hb i
    · exact ⟨fun hin => absurd (h.tag_of_bin i _ hin) hnotMem, fun hi => absurd hi.1.symm hi.2⟩
    · exact h.listed c (hmem c hc).1 i
  · intro i u hu
    have hmem := h.tag_of_bin i u hu
    simp only [tagsOf, List.flatten_cons, List.map_append, List.map_cons, List.mem_append,
      List.mem_cons] at hmem ⊢
    tauto
  · intro c hc hindex
    have hloose : ∀ c ∈ ((A ++ b :: B) :: rest).flatten, c.index = -1 →
        ((s.carve b.tag).set (s.newTag b.tag) .index (-1)).get c.tag .next = 0 ∧
          ((s.carve b.tag).set (s.newTag b.tag) .index (-1)).get c.tag .prev = 0 := by
      intro c hc hindex
      simp only [hold c.tag (tag_mem hc), reduceCtorEq, and_false, if_false]
      exact h.loose c hc hindex
    rcases hcases c hc with rfl | rfl | hc
    · exact hloose b hb hindex
    · simp only [hnew, reduceCtorEq, if_false, if_true, and_self]
    · exact hloose c (hmem c hc).1 hindex

/-- **`split_tag`** cuts a free block off the end of a block. -/
theorem splitTag (h : TagLists s ((A ++ b :: B) :: rest) bins)
    (hspaced : Spaced (s.newTag b.tag :: tagsOf ((A ++ b :: B) :: rest).flatten))
    (hi : clampExp (getexp (s.remainder b.tag - tagSize)) < maxExp) :
    let i := clampExp (getexp (s.remainder b.tag - tagSize))
    TagLists (s.splitTag b.tag).2
      ((A ++ { b with realSize := b.realSize - s.remainder b.tag } ::
        ⟨s.newTag b.tag, s.get (s.newTag b.tag) .size, s.remainder b.tag, i⟩ :: B) :: rest)
      (Function.update bins i (s.newTag b.tag :: bins i)) := by
  have hcarve := h.carve hspaced
  have hrow : ∀ n : HeapBlock, A ++ { b with realSize := b.realSize - s.remainder b.tag } :: n :: B =
      (A ++ [{ b with realSize := b.realSize - s.remainder b.tag }]) ++ n :: B := by
    intro n
    simp
  rw [hrow] at hcarve
  have hn := hcarve.blockAt _ (mem_flatten_focus.mpr (Or.inl rfl))
  have hreal : ((s.carve b.tag).set (s.newTag b.tag) .index (-1)).realIndex (s.newTag b.tag) (-1) =
      clampExp (getexp (s.remainder b.tag - tagSize)) := by
    rw [realIndex, if_pos (by decide), hn.realSize]
  have hinsert := @TagLists.insertTag σ _ _ _ _ _ _ (-1) hcarve rfl (hreal.symm ▸ hi)
  rw [hreal] at hinsert
  intro i
  rw [splitTag_eq, hrow, ← insertTag_set_index hspaced List.mem_cons_self (-1) (-1)]
  exact hinsert

theorem edits_splitTag (h : TagLists s ((A ++ b :: B) :: rest) bins)
    (hspaced : Spaced (s.newTag b.tag :: tagsOf ((A ++ b :: B) :: rest).flatten))
    (hi : clampExp (getexp (s.remainder b.tag - tagSize)) < maxExp) :
    Edits (s.newTag b.tag :: tagsOf ((A ++ b :: B) :: rest).flatten) s (s.splitTag b.tag).2 := by
  have hb : b ∈ ((A ++ b :: B) :: rest).flatten := mem_flatten_focus.mpr (Or.inl rfl)
  have hn : s.newTag b.tag ∈ s.newTag b.tag :: tagsOf ((A ++ b :: B) :: rest).flatten :=
    List.mem_cons_self
  have hright : s.get b.tag .splitRight = 0 ∨
      s.get b.tag .splitRight ∈ tagsOf ((A ++ b :: B) :: rest).flatten :=
    h.splitRight_mem.imp_right fun ht =>
      tagsOf_subset List.mem_cons_self (List.map_subset _ (fun c hc => by simp [hc]) ht)
  have hcarve := h.carve hspaced
  have hnew : (⟨s.newTag b.tag, s.get (s.newTag b.tag) .size, s.remainder b.tag, -1⟩ : HeapBlock) ∈
      ((A ++ { b with realSize := b.realSize - s.remainder b.tag } ::
        ⟨s.newTag b.tag, s.get (s.newTag b.tag) .size, s.remainder b.tag, -1⟩ :: B) ::
          rest).flatten := by simp
  have hreal : ((s.carve b.tag).set (s.newTag b.tag) .index (-1)).realIndex (s.newTag b.tag) (-1) <
      maxExp := by
    rw [realIndex, if_pos (by decide), (hcarve.blockAt _ hnew).realSize]
    exact hi
  have hcarved := (edits_carve hspaced (tag_mem hb) hright).set hspaced hn (-1) (f := .index)
  have hinsert := hcarve.edits_insertTag hnew hreal
  rw [splitTag_eq, ← insertTag_set_index hspaced hn (-1) (-1)]
  refine hcarved.trans (hinsert.mono ?_)
  intro t ht
  have hperm := (@List.perm_middle _ (s.newTag b.tag) (tagsOf A ++ [b.tag])
    (tagsOf B ++ tagsOf rest.flatten)).mem_iff (a := t)
  simpa [tagsOf] using hperm.mp (by simpa [tagsOf] using ht)

/-- The fields of the tags, and the heads of the lists, are all that counts. -/
theorem congr (h : TagLists s rows bins)
    (hget : ∀ t ∈ tagsOf rows.flatten, ∀ f, s'.get t f = s.get t f)
    (hhead : ∀ i, i < maxExp → s'.freePages i = s.freePages i) : TagLists s' rows bins where
  spaced := h.spaced
  blockAt := fun b hb => by
    have hat := h.blockAt b hb
    have hgetb := hget b.tag (tag_mem hb)
    exact ⟨(hgetb _).trans hat.magic, (hgetb _).trans hat.size, (hgetb _).trans hat.realSize,
      (hgetb _).trans hat.index⟩
  row := fun row hrow => (h.row row hrow).congr (fun t ht => hget t (tagsOf_subset hrow ht) _)
    fun t ht => hget t (tagsOf_subset hrow ht) _
  bin := fun i => (h.bin i).congr (fun t ht => hget t (h.tag_of_bin i t ht) _)
    fun t ht => hget t (h.tag_of_bin i t ht) _
  head := fun i hi => (hhead i hi).trans (h.head i hi)
  listed := h.listed
  tag_of_bin := h.tag_of_bin
  loose := fun b hb hindex => by
    rw [hget b.tag (tag_mem hb), hget b.tag (tag_mem hb)]
    exact h.loose b hb hindex

/-- A store to the size of a block. -/
theorem setSize (h : TagLists s ((A ++ b :: B) :: rest) bins) (v : Word) :
    TagLists (s.set b.tag .size v) ((A ++ { b with size := v } :: B) :: rest) bins := by
  have hb : b ∈ ((A ++ b :: B) :: rest).flatten := mem_flatten_focus.mpr (Or.inl rfl)
  have hat := h.blockAt b hb
  have hget := fun u hu f => @get_set σ s _ b.tag u .size f h.spaced (tag_mem hb) hu v
  have hgetb := hget b.tag (tag_mem hb)
  refine h.relist rfl ?_ ⟨?_, ?_, ?_, ?_⟩ ?_ h.head (h.listed b hb) (fun _ _ _ => Iff.rfl) ?_
  · intro u hu
    refine ⟨⟨?_, ?_⟩, fun hne => ⟨?_, ?_, ?_, ?_, fun _ => ⟨?_, ?_⟩⟩⟩
    · simp only [hget u hu, reduceCtorEq, and_false, if_false]
    · simp only [hget u hu, reduceCtorEq, and_false, if_false]
    · simp only [hget u hu, reduceCtorEq, and_false, if_false]
    · simp only [hget u hu, hne, false_and, if_false]
    · simp only [hget u hu, reduceCtorEq, and_false, if_false]
    · simp only [hget u hu, reduceCtorEq, and_false, if_false]
    · simp only [hget u hu, reduceCtorEq, and_false, if_false]
    · simp only [hget u hu, reduceCtorEq, and_false, if_false]
  · simp only [hgetb, reduceCtorEq, and_false, if_false, hat.magic]
  · simp only [hgetb, and_self, if_true]
  · simp only [hgetb, reduceCtorEq, and_false, if_false, hat.realSize]
  · simp only [hgetb, reduceCtorEq, and_false, if_false, hat.index]
  · intro i
    refine (h.bin i).congr ?_ ?_
    · intro u hu
      simp only [hget u (h.tag_of_bin i u hu), reduceCtorEq, and_false, if_false]
    · intro u hu
      simp only [hget u (h.tag_of_bin i u hu), reduceCtorEq, and_false, if_false]
  · intro hindex
    simp only [hgetb, reduceCtorEq, and_false, if_false]
    exact h.loose b hb hindex

/-- **A new region** starts with one block, in no list. -/
theorem freshTag (h : TagLists s rows bins) (hspaced : Spaced (t :: tagsOf rows.flatten))
    (size realSize : Word) :
    TagLists (s.freshTag t size realSize) ([⟨t, size, realSize, -1⟩] :: rows) bins := by
  have ht : t ∈ t :: tagsOf rows.flatten := List.mem_cons_self
  have hnotMem : t ∉ tagsOf rows.flatten := (List.nodup_cons.mp hspaced.nodup).1
  have hgett := fun f => @get_freshTag σ s _ t t f hspaced ht ht size realSize
  have hget : ∀ u ∈ tagsOf rows.flatten, ∀ f,
      (s.freshTag t size realSize).get u f = s.get u f := by
    intro u hu f
    have hne : u ≠ t := by
      rintro rfl
      exact hnotMem hu
    rw [get_freshTag hspaced ht (List.mem_cons_of_mem _ hu), if_neg hne]
  have hold : TagLists (s.freshTag t size realSize) rows bins := h.congr hget fun _ _ => rfl
  have hcases : ∀ c ∈ ([⟨t, size, realSize, -1⟩] :: rows).flatten,
      c = ⟨t, size, realSize, -1⟩ ∨ c ∈ rows.flatten := by
    intro c hc
    simpa using hc
  refine ⟨hspaced, ?_, ?_, hold.bin, hold.head, ?_, ?_, ?_⟩
  · intro c hc
    rcases hcases c hc with rfl | hc
    · exact ⟨by rw [hgett, if_pos rfl], by rw [hgett, if_pos rfl], by rw [hgett, if_pos rfl],
        by rw [hgett, if_pos rfl]⟩
    · exact hold.blockAt c hc
  · intro row hr
    rcases List.mem_cons.mp hr with rfl | hr
    · refine ⟨by simp, by simpa using (hspaced.fit t ht).1, ?_⟩
      intro P u Q hPQ
      obtain ⟨rfl, rfl, rfl⟩ : P = [] ∧ u = t ∧ Q = [] := by
        cases P with
        | nil => simpa [eq_comm] using hPQ
        | cons _ _ => simp at hPQ
      exact ⟨by rw [hgett, if_pos rfl]; rfl, by rw [hgett, if_pos rfl]; rfl⟩
    · exact hold.row row hr
  · intro c hc i
    rcases hcases c hc with rfl | hc
    · exact ⟨fun hin => absurd (h.tag_of_bin i _ hin) hnotMem, fun hi => absurd hi.1.symm hi.2⟩
    · exact hold.listed c hc i
  · intro i u hu
    exact List.mem_cons_of_mem _ (h.tag_of_bin i u hu)
  · intro c hc hindex
    rcases hcases c hc with rfl | hc
    · exact ⟨by rw [hgett, if_pos rfl], by rw [hgett, if_pos rfl]⟩
    · exact hold.loose c hc hindex

/-- A region that leaves. -/
theorem dropRow (h : TagLists s ([b] :: rest) bins) (hused : b.index = -1) :
    TagLists s rest bins where
  spaced := h.spaced.sublist (by simp [tagsOf])
  blockAt := fun c hc => h.blockAt c (by simp [hc])
  row := fun row hrow => h.row row (List.mem_cons_of_mem _ hrow)
  bin := h.bin
  head := h.head
  listed := fun c hc => h.listed c (by simp [hc])
  tag_of_bin := fun i t ht => by
    have hout := h.notMem_bin (b := b) (by simp) hused i
    have hmem := h.tag_of_bin i t ht
    rw [tagsOf, List.flatten_cons, List.map_append, List.map_singleton, List.mem_append,
      List.mem_singleton] at hmem
    refine hmem.resolve_left ?_
    rintro rfl
    exact hout ht
  loose := fun c hc => h.loose c (by simp [hc])

end TagLists

end MVK
