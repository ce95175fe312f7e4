import Mathlib.Data.List.Pairwise
import MVK.Stack

/-!
# Boundary tags

The C library's heap keeps a `struct boundary_tag` of eight words in front of every
block.  The tags lie in the same memory as what the program stores in its blocks, at any
address, aligned or not; what keeps them apart is that no two of them are less than
their size from each other.

## Main definitions

* `TagField`, `field`, `setField` — the fields of a tag.
* `Spaced` — tags that do not overlap.
* `OnlyTags` — a memory that differs from another in tags alone.

## Main results

* `field_setField` — **a store to a field changes that field and no other.**
-/

namespace MVK

/-! ### Words -/

/-- A store leaves the bytes outside its word. -/
theorem write32_of_lt (mem : Memory) {a b : Word} (w : Word) (ha : a.toNat + 4 ≤ 2 ^ 32)
    (h : b.toNat < a.toNat ∨ a.toNat + 4 ≤ b.toNat) : write32 mem a w b = mem b := by
  have hne : ∀ k : Word, k.toNat < 4 → b ≠ a + k := by
    rintro k hk rfl
    rw [BitVec.toNat_add] at h
    omega
  have h0 : b ≠ a := by simpa using hne 0 (by decide)
  rw [write32, if_neg h0, if_neg (hne 1 (by decide)), if_neg (hne 2 (by decide)),
    if_neg (hne 3 (by decide))]

/-- And the words that do not meet it. -/
theorem read32_write32_of_lt (mem : Memory) {a b : Word} (w : Word) (ha : a.toNat + 4 ≤ 2 ^ 32)
    (hb : b.toNat + 4 ≤ 2 ^ 32) (h : b.toNat + 4 ≤ a.toNat ∨ a.toNat + 4 ≤ b.toNat) :
    read32 (write32 mem a w) b = read32 mem b := by
  have hbyte : ∀ k : Word, k.toNat < 4 → write32 mem a w (b + k) = mem (b + k) := by
    intro k hk
    refine write32_of_lt mem w ha ?_
    rw [BitVec.toNat_add]
    omega
  have h0 : write32 mem a w b = mem b := by simpa using hbyte 0 (by decide)
  rw [read32, read32, h0, hbyte 1 (by decide), hbyte 2 (by decide), hbyte 3 (by decide)]

/-! ### Tags -/

/-- The fields of `struct boundary_tag`. -/
inductive TagField
  | magic
  | size
  | realSize
  | index
  | splitLeft
  | splitRight
  | next
  | prev
  deriving DecidableEq

/-- Where a field lies in its tag. -/
def TagField.offset : TagField → Word
  | magic => 0
  | size => 4
  | realSize => 8
  | index => 12
  | splitLeft => 16
  | splitRight => 20
  | next => 24
  | prev => 28

/-- `sizeof(struct boundary_tag)`. -/
def tagSize : Word := 32

/-- `tag->f`. -/
def field (mem : Memory) (tag : Word) (f : TagField) : Word := read32 mem (tag + f.offset)

/-- `tag->f = v`. -/
def setField (mem : Memory) (tag : Word) (f : TagField) (v : Word) : Memory :=
  write32 mem (tag + f.offset) v

theorem TagField.offset_lt (f : TagField) : f.offset.toNat + 4 ≤ 32 := by
  cases f <;> decide

theorem TagField.offset_apart {f g : TagField} (h : f ≠ g) :
    f.offset.toNat + 4 ≤ g.offset.toNat ∨ g.offset.toNat + 4 ≤ f.offset.toNat := by
  cases f <;> cases g <;> first | exact absurd rfl h | decide

theorem toNat_add_offset {t : Word} (ht : t.toNat + 32 ≤ 2 ^ 32) (f : TagField) :
    (t + f.offset).toNat = t.toNat + f.offset.toNat := by
  have hf := f.offset_lt
  rw [BitVec.toNat_add, Nat.mod_eq_of_lt (by omega)]

/-- Two tags do not overlap. -/
def Apart (t u : Word) : Prop := t.toNat + 32 ≤ u.toNat ∨ u.toNat + 32 ≤ t.toNat

instance : Std.Symm Apart where
  symm _ _ h := Or.symm h

theorem Apart.ne {t u : Word} (h : Apart t u) : t ≠ u := by
  rintro rfl
  rw [Apart] at h
  omega

/-- The tags at `ts` lie in memory without overlap, and none at the null address. -/
structure Spaced (ts : List Word) : Prop where
  apart : ts.Pairwise Apart
  fit : ∀ t ∈ ts, t ≠ 0 ∧ t.toNat + 32 ≤ 2 ^ 32

namespace Spaced

variable {ts us : List Word} {t u : Word}

theorem nodup (h : Spaced ts) : ts.Nodup := h.apart.imp Apart.ne

theorem perm (h : Spaced ts) (hp : ts.Perm us) : Spaced us where
  apart := (hp.pairwise_iff fun h => symm_of Apart h).mp h.apart
  fit := fun t ht => h.fit t (hp.mem_iff.mpr ht)

theorem sublist (h : Spaced us) (hs : ts.Sublist us) : Spaced ts where
  apart := h.apart.sublist hs
  fit := fun t ht => h.fit t (hs.mem ht)

theorem apart_of_ne (h : Spaced ts) (ht : t ∈ ts) (hu : u ∈ ts) (hne : t ≠ u) : Apart t u :=
  h.apart.forall ht hu hne

end Spaced

/-- **A store to a field** of a tag changes that field of that tag and no other. -/
theorem field_setField {ts : List Word} (hts : Spaced ts) {t u : Word} (ht : t ∈ ts) (hu : u ∈ ts)
    (mem : Memory) (f g : TagField) (v : Word) :
    field (setField mem t f v) u g = if u = t ∧ g = f then v else field mem u g := by
  have hfit := (hts.fit t ht).2
  have hfit' := (hts.fit u hu).2
  have hf := f.offset_lt
  have hg := g.offset_lt
  have hat := toNat_add_offset hfit f
  have hau := toNat_add_offset hfit' g
  split
  · next heq =>
    obtain ⟨rfl, rfl⟩ := heq
    exact read32_write32_same ..
  · next hne =>
    refine read32_write32_of_lt mem v (by omega) (by omega) ?_
    by_cases hut : u = t
    · subst hut
      have hoff := TagField.offset_apart (f := g) (g := f) fun hgf => hne ⟨rfl, hgf⟩
      omega
    · have hap := hts.apart_of_ne hu ht hut
      rw [Apart] at hap
      omega

/-- The byte at `a` belongs to the tag at `t`. -/
def InTag (t a : Word) : Prop := t.toNat ≤ a.toNat ∧ a.toNat < t.toNat + 32

/-- A tag is what its bytes say. -/
theorem field_congr {mem mem' : Memory} {t : Word} (ht : t.toNat + 32 ≤ 2 ^ 32)
    (h : ∀ a, InTag t a → mem' a = mem a) (f : TagField) : field mem' t f = field mem t f := by
  have hf := f.offset_lt
  have hbyte : ∀ k : Word, k.toNat < 4 → mem' (t + f.offset + k) = mem (t + f.offset + k) := by
    intro k hk
    have hat : (t + f.offset + k).toNat = t.toNat + f.offset.toNat + k.toNat := by
      rw [BitVec.toNat_add, toNat_add_offset ht]
      exact Nat.mod_eq_of_lt (by omega)
    exact h _ ⟨by omega, by omega⟩
  have h0 : mem' (t + f.offset) = mem (t + f.offset) := by simpa using hbyte 0 (by decide)
  rw [field, field, read32, read32, h0, hbyte 1 (by decide), hbyte 2 (by decide),
    hbyte 3 (by decide)]

/-- The two memories differ in the tags at `ts` alone. -/
def OnlyTags (ts : List Word) (mem mem' : Memory) : Prop :=
  ∀ a, (∀ t ∈ ts, ¬ InTag t a) → mem' a = mem a

namespace OnlyTags

variable {ts us : List Word} {mem mem' mem'' : Memory}

theorem refl (ts : List Word) (mem : Memory) : OnlyTags ts mem mem := fun _ _ => rfl

theorem trans (h : OnlyTags ts mem mem') (h' : OnlyTags ts mem' mem'') : OnlyTags ts mem mem'' :=
  fun a ha => (h' a ha).trans (h a ha)

theorem mono (h : OnlyTags ts mem mem') (hsub : ts ⊆ us) : OnlyTags us mem mem' :=
  fun a ha => h a fun t ht => ha t (hsub ht)

end OnlyTags

theorem onlyTags_setField {ts : List Word} (hts : Spaced ts) {t : Word} (ht : t ∈ ts)
    (mem : Memory) (f : TagField) (v : Word) : OnlyTags ts mem (setField mem t f v) := by
  intro a ha
  have hfit := (hts.fit t ht).2
  have hf := f.offset_lt
  have hat := toNat_add_offset hfit f
  have hout := ha t ht
  rw [InTag] at hout
  exact write32_of_lt mem v (by omega) (by omega)

end MVK
