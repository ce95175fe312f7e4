import MVK.Lib.Tiling
import MVK.TagLists

/-!
# Regions of pages, cut into blocks

What the allocator's heap is, apart from how it is kept in memory: regions that do not
overlap, each covered by its blocks in order; a block is used and has room for what was
asked for, or it is free and its index is the exponent of what it can hold; and no two
neighbours are free.

A call of the allocator works on one block at a time.  While it does, the region is open
at that block: the blocks to the left and to the right are in order, and nothing is said
of the block itself.

## Main definitions

* `HeapBlock.Sound`, `Region` — blocks and regions in order.
* `OpenRow` — a region that is open at a block.

## Main results

* `getexp_bounds` — `getexp` is the exponent of a size.
* `OpenRow.meltLeft`, `OpenRow.absorbRight`, `OpenRow.cut` — the moves on an open region.
* `OpenRow.close` — **when a region may be closed.**
-/

namespace MVK

open Tiling Allocator

/-! ### Exponents -/

theorem toNat_one_shiftLeft {n : ℕ} (hn : n < 32) : ((1 : Word) <<< n).toNat = 2 ^ n := by
  have hlt : 2 ^ n < 2 ^ 32 := Nat.pow_lt_pow_right (by decide) hn
  rw [BitVec.toNat_shiftLeft, Nat.shiftLeft_eq, toNat_one_word, one_mul, Nat.mod_eq_of_lt hlt]

/-- The loop stops at the first power of two beyond the size. -/
theorem getexpLoop_spec {size shift : Word} {n : ℕ} (hn : shift.toNat + n = 32)
    (hpos : 0 < shift.toNat) (hle : 2 ^ (shift.toNat - 1) ≤ size.toNat) :
    2 ^ ((getexpLoop size n shift).toNat - 1) ≤ size.toNat ∧
      size.toNat < 2 ^ (getexpLoop size n shift).toNat ∧
      shift.toNat ≤ (getexpLoop size n shift).toNat ∧ (getexpLoop size n shift).toNat ≤ 32 := by
  induction n generalizing shift with
  | zero =>
    have hshift : shift.toNat = 32 := hn
    rw [getexpLoop, hshift]
    rw [hshift] at hle
    exact ⟨hle, size.isLt, le_rfl, le_rfl⟩
  | succ n ih =>
    have hpow := @toNat_one_shiftLeft shift.toNat (by omega)
    rw [getexpLoop]
    split
    · next hgt =>
      have hlt : size.toNat < 2 ^ shift.toNat := hpow ▸ BitVec.lt_def.mp hgt
      exact ⟨hle, hlt, le_rfl, by omega⟩
    · next hgt =>
      have hge : 2 ^ shift.toNat ≤ size.toNat := hpow ▸ Nat.le_of_not_lt fun hlt => hgt hlt
      have hnext : (shift + 1).toNat = shift.toNat + 1 := by
        rw [BitVec.toNat_add, toNat_one_word]
        omega
      have hloop := @ih (shift + 1) (by omega) (by omega) (by rwa [hnext])
      rw [hnext] at hloop
      exact ⟨hloop.1, hloop.2.1, by omega, hloop.2.2.2⟩

/-- **What `getexp` says it does.** -/
theorem getexp_bounds {size : Word} (h : 256 ≤ size.toNat) :
    8 ≤ (getexp size).toNat ∧ (getexp size).toNat < 32 ∧
      2 ^ (getexp size).toNat ≤ size.toNat ∧ size.toNat < 2 ^ ((getexp size).toNat + 1) := by
  have hsmall : ¬ size < (1 : Word) <<< minExp.toNat := by
    rw [BitVec.lt_def]
    exact Nat.not_lt.mpr h
  obtain ⟨hle, hlt, hge, hmax⟩ := @getexpLoop_spec size minExp (maxExp - minExp).toNat rfl
    (by decide) (Nat.le_trans (by decide) h)
  have hmin : minExp.toNat = 8 := rfl
  have hsub : (getexp size).toNat =
      (getexpLoop size (maxExp - minExp).toNat minExp).toNat - 1 := by
    rw [getexp, if_neg hsmall, BitVec.toNat_sub, toNat_one_word]
    omega
  -- the size is 2 ^ 8 at least, so the loop goes past the first shift
  have hpast : 8 < (getexpLoop size (maxExp - minExp).toNat minExp).toNat :=
    (Nat.pow_lt_pow_iff_right (by decide)).mp (lt_of_le_of_lt h hlt)
  rw [hsub]
  refine ⟨by omega, by omega, hle, ?_⟩
  rwa [Nat.sub_add_cancel (by omega)]

theorem getexp_of_lt {size : Word} (h : size.toNat < 256) : getexp size = -1 :=
  if_pos (BitVec.lt_def.mpr h)

/-- The list of a size, which is one of the lists 8 to 31. -/
theorem toNat_clampExp_getexp (size : Word) :
    8 ≤ (clampExp (getexp size)).toNat ∧ (clampExp (getexp size)).toNat < 32 := by
  rw [clampExp]
  split
  · decide
  · next hslt =>
    by_cases hsmall : size.toNat < 256
    · rw [getexp_of_lt hsmall] at hslt
      exact absurd (by decide) hslt
    · obtain ⟨hge, hlt, -⟩ := getexp_bounds (Nat.le_of_not_lt hsmall)
      exact ⟨hge, hlt⟩

theorem clampExp_getexp_lt (size : Word) : clampExp (getexp size) < maxExp :=
  BitVec.lt_def.mpr (toNat_clampExp_getexp size).2

/-- A word below `2 ^ 31` is not negative. -/
theorem slt_zero_of_lt {w : Word} (h : w.toNat < 2 ^ 31) : w.slt 0 = false := by
  have hmsb : w.msb = false := by
    rw [BitVec.msb_eq_false_iff_two_mul_lt]
    omega
  exact BitVec.slt_zero_eq_msb.trans hmsb

/-! ### Blocks and regions -/

namespace HeapBlock

/-- Free blocks are in a list. -/
def Free (b : HeapBlock) : Prop := b.index ≠ -1

instance : DecidablePred Free := fun b => inferInstanceAs (Decidable (b.index ≠ -1))

/-- The bytes of a block, its tag included. -/
def start (b : HeapBlock) : ℕ := b.tag.toNat

def length (b : HeapBlock) : ℕ := b.realSize.toNat

/-- A used block has room for what was asked for; a free one is in the list for what it
can hold. -/
structure Sound (b : HeapBlock) : Prop where
  tag_fits : 32 ≤ b.length
  room : ¬ b.Free → b.size.toNat + 32 ≤ b.length
  index_eq : b.Free → b.index = clampExp (getexp (b.realSize - tagSize))

/-- The test that the code makes of an index. -/
theorem Sound.slt_iff {b : HeapBlock} (h : b.Sound) : b.index.slt 0 = true ↔ ¬ b.Free := by
  by_cases hfree : b.Free
  · have hlt := (toNat_clampExp_getexp (b.realSize - tagSize)).2
    rw [h.index_eq hfree, slt_zero_of_lt (by omega)]
    simp only [hfree, Bool.false_eq_true, not_true_eq_false]
  · have hindex : b.index = -1 := of_not_not hfree
    rw [hindex]
    simp only [hfree, not_false_eq_true, iff_true]
    decide

end HeapBlock

/-- Pages in a row, as the page source hands them out. -/
@[ext] structure PageRange where
  base : Word
  pages : Word
  deriving DecidableEq

namespace PageRange

def start (p : PageRange) : ℕ := p.base.toNat

def stop (p : PageRange) : ℕ := p.base.toNat + 4096 * p.pages.toNat

/-- Two ranges have no page in common. -/
def Apart (p q : PageRange) : Prop := p.stop ≤ q.start ∨ q.stop ≤ p.start

instance : Std.Symm Apart where
  symm _ _ h := Or.symm h

/-- The bytes of the range are the same in both memories. -/
def Keeps (p : PageRange) (mem mem' : Memory) : Prop :=
  ∀ a : Word, p.start ≤ a.toNat → a.toNat < p.stop → mem' a = mem a

end PageRange

/-- A region of pages, covered by its blocks. -/
structure Region extends PageRange where
  blocks : List HeapBlock
  base_ne_zero : base ≠ 0
  minimum : 16 ≤ pages.toNat
  fits : toPageRange.stop ≤ 2 ^ 32
  tiles : Tiles HeapBlock.start HeapBlock.length toPageRange.start blocks toPageRange.stop
  coalesced : Coalesced HeapBlock.Free blocks
  sound : ∀ b ∈ blocks, b.Sound

/-- A region that is open at the block `m`, which is neither free nor in order. -/
structure OpenRow (p : PageRange) (A : List HeapBlock) (m : HeapBlock) (B : List HeapBlock) :
    Prop where
  base_ne_zero : p.base ≠ 0
  minimum : 16 ≤ p.pages.toNat
  fits : p.stop ≤ 2 ^ 32
  tiles : Tiles HeapBlock.start HeapBlock.length p.start (A ++ m :: B) p.stop
  left : Coalesced HeapBlock.Free A
  right : Coalesced HeapBlock.Free B
  sound : ∀ b, b ∈ A ∨ b ∈ B → b.Sound
  tag_fits : 32 ≤ m.length
  detached : m.index = -1

/-- **Opening** a region at one of its blocks. -/
theorem Region.openRow (R : Region) {A B : List HeapBlock} {b : HeapBlock}
    (hR : R.blocks = A ++ b :: B) (size : Word) :
    OpenRow R.toPageRange A { b with size, index := -1 } B := by
  have htiles := tiles_focus.mp (hR ▸ R.tiles)
  obtain ⟨hA, hB, -⟩ := coalesced_focus.mp (hR ▸ R.coalesced)
  exact {
    base_ne_zero := R.base_ne_zero
    minimum := R.minimum
    fits := R.fits
    tiles := tiles_focus.mpr htiles
    left := hA
    right := hB
    sound := fun c hc => R.sound c (by rw [hR]; simp; tauto)
    tag_fits := (R.sound b (by rw [hR]; simp)).tag_fits
    detached := rfl }

namespace OpenRow

variable {p : PageRange} {A B : List HeapBlock} {m l r : HeapBlock}

/-- A block of an open region does not reach past the end of memory. -/
theorem bounds (h : OpenRow p A m B) {b : HeapBlock} (hb : b ∈ A ++ m :: B) :
    p.start ≤ b.start ∧ b.start + b.length ≤ p.stop :=
  h.tiles.bounds hb

/-- **Closing** a region: the open block is made sound, and if it is free, its neighbours
are not. -/
def close (h : OpenRow p A m B) (b : HeapBlock) (htag : b.tag = m.tag)
    (hreal : b.realSize = m.realSize) (hsound : b.Sound)
    (hnear : b.Free → (∀ a ∈ A.getLast?, ¬ a.Free) ∧ ∀ c ∈ B.head?, ¬ c.Free) : Region where
  toPageRange := p
  blocks := A ++ b :: B
  base_ne_zero := h.base_ne_zero
  minimum := h.minimum
  fits := h.fits
  tiles := by
    have htiles := tiles_focus.mp h.tiles
    refine tiles_focus.mpr ?_
    rwa [HeapBlock.start, HeapBlock.length, htag, hreal]
  coalesced := coalesced_focus.mpr ⟨h.left, h.right, hnear⟩
  sound := by
    intro c hc
    rw [List.mem_append, List.mem_cons] at hc
    rcases hc with hc | rfl | hc
    · exact h.sound c (Or.inl hc)
    · exact hsound
    · exact h.sound c (Or.inr hc)

/-- Two neighbours of a tiling as one block. -/
theorem tiles_merge {lo hi : ℕ} {x y z : HeapBlock} (hlo : 0 < lo) (hhi : hi ≤ 2 ^ 32)
    (h : Tiles HeapBlock.start HeapBlock.length lo (A ++ x :: y :: B) hi) (htag : z.tag = x.tag)
    (hreal : z.realSize = x.realSize + y.realSize) :
    z.length = x.length + y.length ∧
      Tiles HeapBlock.start HeapBlock.length lo (A ++ z :: B) hi := by
  obtain ⟨hA, hy, hB⟩ := tiles_focus.mp h
  have hlow := hA.le
  have hhigh := hB.le
  -- the sum of the two lengths does not wrap
  have hlength : z.length = x.length + y.length := by
    rw [HeapBlock.length, hreal, BitVec.toNat_add]
    exact Nat.mod_eq_of_lt (by change x.length + y.length < 2 ^ 32; omega)
  refine ⟨hlength, tiles_focus.mpr ?_⟩
  rw [HeapBlock.start, htag, hlength, ← Nat.add_assoc]
  exact ⟨hA, hB⟩

theorem base_pos (h : OpenRow p A m B) : 0 < p.start :=
  Nat.pos_of_ne_zero fun h0 => h.base_ne_zero (BitVec.eq_of_toNat_eq h0)

/-- **Melting** the open block into the one on its left. -/
theorem meltLeft (h : OpenRow p (A ++ [l]) m B) :
    OpenRow p A { l with realSize := l.realSize + m.realSize, index := -1 } B := by
  have htiles := h.tiles
  rw [List.append_assoc, List.singleton_append] at htiles
  have hl := (h.sound l (Or.inl (by simp))).tag_fits
  obtain ⟨hlength, hmerge⟩ := @tiles_merge A B _ _ l m
    { l with realSize := l.realSize + m.realSize, index := -1 } h.base_pos h.fits htiles rfl rfl
  exact {
    base_ne_zero := h.base_ne_zero
    minimum := h.minimum
    fits := h.fits
    tiles := hmerge
    left := (coalesced_focus.mp h.left).1
    right := h.right
    sound := fun b hb => h.sound b (hb.imp_left (List.mem_append_left _))
    tag_fits := by rw [hlength]; omega
    detached := rfl }

/-- **Absorbing** the block on the right. -/
theorem absorbRight (h : OpenRow p A m (r :: B)) :
    OpenRow p A { m with realSize := m.realSize + r.realSize } B := by
  have hm := h.tag_fits
  obtain ⟨hlength, hmerge⟩ := @tiles_merge A B _ _ m r
    { m with realSize := m.realSize + r.realSize } h.base_pos h.fits h.tiles rfl rfl
  exact {
    base_ne_zero := h.base_ne_zero
    minimum := h.minimum
    fits := h.fits
    tiles := hmerge
    left := h.left
    right := (@coalesced_focus _ HeapBlock.Free r [] B).mp h.right |>.2.1
    sound := fun b hb => h.sound b (hb.imp_right (List.mem_cons_of_mem _))
    tag_fits := by rw [hlength]; omega
    detached := h.detached }

/-- **Cutting** the open block in two: the first part is in order, and the region is open at
the second. -/
theorem cut (h : OpenRow p A m B) {m' n : HeapBlock} (htag : m'.tag = m.tag)
    (hsound : m'.Sound) (hused : ¬ m'.Free) (hstart : n.start = m.start + m'.length)
    (hlength : m'.length + n.length = m.length) (hn : 32 ≤ n.length) (hindex : n.index = -1) :
    OpenRow p (A ++ [m']) n B where
  base_ne_zero := h.base_ne_zero
  minimum := h.minimum
  fits := h.fits
  tiles := by
    obtain ⟨hA, hB⟩ := tiles_focus.mp h.tiles
    have hm' : m'.start = m.start := by rw [HeapBlock.start, HeapBlock.start, htag]
    rw [List.append_assoc, List.singleton_append, tiles_focus, tiles_cons, hm', hstart]
    refine ⟨hA, rfl, ?_⟩
    rwa [Nat.add_assoc, hlength]
  left := coalesced_focus.mpr ⟨h.left, .nil, fun hfree => absurd hfree hused⟩
  right := h.right
  sound := by
    intro b hb
    rw [List.mem_append, List.mem_singleton] at hb
    rcases hb with (hb | rfl) | hb
    · exact h.sound b (Or.inl hb)
    · exact hsound
    · exact h.sound b (Or.inr hb)
  tag_fits := hn
  detached := hindex

end OpenRow

/-! ### Rows in memory -/

/-- Rows of blocks, each in a range of pages of its own. -/
structure Laid (rows : List (PageRange × List HeapBlock)) : Prop where
  base_pos : ∀ x ∈ rows, 0 < x.1.start
  fits : ∀ x ∈ rows, x.1.stop ≤ 2 ^ 32
  tiles : ∀ x ∈ rows, Tiles HeapBlock.start HeapBlock.length x.1.start x.2 x.1.stop
  tag_fits : ∀ x ∈ rows, ∀ b ∈ x.2, 32 ≤ b.length
  apart : rows.Pairwise fun x y => x.1.Apart y.1

/-- Two blocks have no byte in common. -/
def HeapBlock.Apart (b c : HeapBlock) : Prop :=
  b.start + b.length ≤ c.start ∨ c.start + c.length ≤ b.start

instance : Std.Symm HeapBlock.Apart where
  symm _ _ h := Or.symm h

/-- The bytes of a block behind its tag. -/
def HeapBlock.Interior (b : HeapBlock) (a : Word) : Prop :=
  b.start + 32 ≤ a.toNat ∧ a.toNat < b.start + b.length

/-- The blocks of some rows. -/
abbrev blocksOf (rows : List (PageRange × List HeapBlock)) : List HeapBlock :=
  (rows.map Prod.snd).flatten

namespace Laid

variable {rows : List (PageRange × List HeapBlock)} {b c : HeapBlock} {a : Word}

theorem exists_row (hb : b ∈ blocksOf rows) : ∃ x ∈ rows, b ∈ x.2 := by
  obtain ⟨row, hrow, hb⟩ := List.mem_flatten.mp hb
  obtain ⟨x, hx, rfl⟩ := List.mem_map.mp hrow
  exact ⟨x, hx, hb⟩

theorem bounds (h : Laid rows) {x : PageRange × List HeapBlock} (hx : x ∈ rows) (hb : b ∈ x.2) :
    x.1.start ≤ b.start ∧ b.start + b.length ≤ x.1.stop :=
  (h.tiles x hx).bounds hb

/-- **No two blocks overlap.** -/
theorem pairwise (h : Laid rows) : (blocksOf rows).Pairwise HeapBlock.Apart := by
  induction rows with
  | nil => exact .nil
  | cons x rows ih =>
    obtain ⟨hx, hrows⟩ := List.pairwise_cons.mp h.apart
    have hrest : Laid rows := ⟨fun y hy => h.base_pos y (List.mem_cons_of_mem _ hy),
      fun y hy => h.fits y (List.mem_cons_of_mem _ hy),
      fun y hy => h.tiles y (List.mem_cons_of_mem _ hy),
      fun y hy => h.tag_fits y (List.mem_cons_of_mem _ hy), hrows⟩
    rw [blocksOf, List.map_cons, List.flatten_cons, List.pairwise_append]
    refine ⟨((h.tiles x List.mem_cons_self).pairwise).imp Or.inl, ih hrest, ?_⟩
    intro b hb c hc
    obtain ⟨y, hy, hc⟩ := exists_row hc
    have hbx := h.bounds List.mem_cons_self hb
    have hcy := h.bounds (List.mem_cons_of_mem _ hy) hc
    rcases hx y hy with hle | hle
    · exact Or.inl (by omega)
    · exact Or.inr (by omega)

theorem tag_fits_of_mem (h : Laid rows) (hb : b ∈ blocksOf rows) : 32 ≤ b.length := by
  obtain ⟨x, hx, hb⟩ := exists_row hb
  exact h.tag_fits x hx b hb

theorem start_pos (h : Laid rows) (hb : b ∈ blocksOf rows) :
    0 < b.start ∧ b.start + b.length ≤ 2 ^ 32 := by
  obtain ⟨x, hx, hb⟩ := exists_row hb
  have hbx := h.bounds hx hb
  have hpos := h.base_pos x hx
  have hfits := h.fits x hx
  omega

/-- The tags of blocks that do not overlap are spaced. -/
theorem spaced (h : Laid rows) : Spaced (tagsOf (blocksOf rows)) where
  apart := by
    rw [tagsOf, List.pairwise_map]
    refine h.pairwise.imp_of_mem ?_
    intro b c hb hc hbc
    have hb := h.tag_fits_of_mem hb
    have hc := h.tag_fits_of_mem hc
    exact hbc.imp (fun hle => by change b.start + 32 ≤ c.start; omega)
      fun hle => by change c.start + 32 ≤ b.start; omega
  fit := by
    intro t ht
    obtain ⟨b, hb, rfl⟩ := List.mem_map.mp ht
    obtain ⟨hpos, hfits⟩ := h.start_pos hb
    have hlen := h.tag_fits_of_mem hb
    refine ⟨?_, ?_⟩
    · intro h0
      rw [HeapBlock.start, h0] at hpos
      exact absurd hpos (by decide)
    · change b.start + 32 ≤ 2 ^ 32
      omega

/-- The inside of a block is clear of all tags. -/
theorem not_inTag (h : Laid rows) (hc : c ∈ blocksOf rows) (ha : c.Interior a) :
    ∀ t ∈ tagsOf (blocksOf rows), ¬ InTag t a := by
  intro t ht hin
  obtain ⟨b, hb, rfl⟩ := List.mem_map.mp ht
  have hlen := h.tag_fits_of_mem hb
  rw [InTag] at hin
  change b.start ≤ a.toNat ∧ a.toNat < b.start + 32 at hin
  rw [HeapBlock.Interior] at ha
  by_cases hbc : b = c
  · subst hbc
    omega
  · rcases h.pairwise.forall hb hc hbc with hle | hle
    · omega
    · omega

/-- An edit of tags leaves the inside of every block. -/
theorem interior (h : Laid rows) {mem mem' : Memory}
    (hmem : OnlyTags (tagsOf (blocksOf rows)) mem mem') (hc : c ∈ blocksOf rows)
    (ha : c.Interior a) : mem' a = mem a :=
  hmem a (h.not_inTag hc ha)

end Laid

/-- Regions that do not overlap. -/
theorem laid_regions {regions : List Region}
    (hapart : regions.Pairwise fun R R' => R.toPageRange.Apart R'.toPageRange) :
    Laid (regions.map fun R => (R.toPageRange, R.blocks)) where
  base_pos := by
    intro x hx
    obtain ⟨R, -, rfl⟩ := List.mem_map.mp hx
    exact Nat.pos_of_ne_zero fun h0 => R.base_ne_zero (BitVec.eq_of_toNat_eq h0)
  fits := by
    intro x hx
    obtain ⟨R, -, rfl⟩ := List.mem_map.mp hx
    exact R.fits
  tiles := by
    intro x hx
    obtain ⟨R, -, rfl⟩ := List.mem_map.mp hx
    exact R.tiles
  tag_fits := by
    intro x hx b hb
    obtain ⟨R, -, rfl⟩ := List.mem_map.mp hx
    exact (R.sound b hb).tag_fits
  apart := List.pairwise_map.mpr hapart

/-- And an open region beside them. -/
theorem OpenRow.laid {p : PageRange} {A B : List HeapBlock} {m : HeapBlock}
    {rows : List (PageRange × List HeapBlock)} (h : OpenRow p A m B) (hrows : Laid rows)
    (hapart : ∀ x ∈ rows, p.Apart x.1) : Laid ((p, A ++ m :: B) :: rows) where
  base_pos := by
    intro x hx
    rcases List.mem_cons.mp hx with rfl | hx
    · exact h.base_pos
    · exact hrows.base_pos x hx
  fits := by
    intro x hx
    rcases List.mem_cons.mp hx with rfl | hx
    · exact h.fits
    · exact hrows.fits x hx
  tiles := by
    intro x hx
    rcases List.mem_cons.mp hx with rfl | hx
    · exact h.tiles
    · exact hrows.tiles x hx
  tag_fits := by
    intro x hx b hb
    rcases List.mem_cons.mp hx with rfl | hx
    · rw [List.mem_append, List.mem_cons] at hb
      rcases hb with hb | rfl | hb
      · exact (h.sound b (Or.inl hb)).tag_fits
      · exact h.tag_fits
      · exact (h.sound b (Or.inr hb)).tag_fits
    · exact hrows.tag_fits x hx b hb
  apart := List.pairwise_cons.mpr ⟨hapart, hrows.apart⟩

end MVK
