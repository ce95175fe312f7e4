import MVK.Lib.FirstFit
import MVK.Paging

/-!
# The page bitmap

`page_bitmap` keeps one bit a page: page `p` of the region is bit `31 - p % 32` of
word `p / 32`.  `alloc_page` looks for the first clear bit of the words in order,
from bit 31 down to bit 1; bit 0 is never looked at, so page `32 * w + 31` is never
handed out.  `free_page` computes its bit differently: from the page number of the
address, in groups of 64, with a 64-bit mask and-ed into a 32-bit word.

## Main definitions

* `used bm p` — the bit of page `p`.
* `freeSlots bm` — the pages the scan may still hand out, in order.
* `setPageBit`, `clearPageBit` — the two updates of the bitmap.
* `clearedSlot q` — the page whose bit `free_page` clears for page number `q`.

## Main results

* `scanBitmap_eq` — **the scan finds the first free slot.**
* `used_setPageBit`, `used_clearPageBit` — what the two updates do to the bits.
-/

namespace MVK

open FirstFit

/-- The bit of page `p`. -/
def used (page_bitmap : ℕ → Word) (p : ℕ) : Bool :=
  (page_bitmap (p / 32)).getLsbD (31 - p % 32)

/-- The bits of the bitmap. -/
def slotCount : ℕ := 32 * pageBitmapSize

theorem slotCount_eq : slotCount = 785408 := rfl

/-- The scan looks at the bit of page `p`. -/
def scanned (p : ℕ) : Bool := p % 32 != 31

@[simp] theorem scanned_eq_true {p : ℕ} : scanned p = true ↔ p % 32 ≠ 31 := by
  simp [scanned]

/-- The pages the scan may still hand out, in order. -/
def freeSlots (page_bitmap : ℕ → Word) : List ℕ := frees slotCount scanned (used page_bitmap)

theorem mem_freeSlots {bm : ℕ → Word} {p : ℕ} :
    p ∈ freeSlots bm ↔ p < 785407 ∧ p % 32 ≠ 31 ∧ used bm p = false := by
  rw [freeSlots, mem_frees, slotCount_eq, scanned_eq_true]
  exact ⟨fun h => ⟨by omega, h.2⟩, fun h => ⟨by omega, h.2⟩⟩

/-- What is known of the page that comes next. -/
theorem of_freeSlots_cons {bm : ℕ → Word} {p : ℕ} {ps : List ℕ} (h : freeSlots bm = p :: ps) :
    p < 785407 ∧ p % 32 ≠ 31 ∧ used bm p = false := by
  have hmem : p ∈ freeSlots bm := by
    rw [h]
    exact List.mem_cons_self
  exact mem_freeSlots.mp hmem

/-! ### The scan -/

/-- The test `(word >> bit_index) & 0b1`, as the bit it reads. -/
theorem ushiftRight_and_one_eq_zero (word : Word) (b : ℕ) :
    word >>> b &&& 0b1 = 0 ↔ word.getLsbD b = false := by
  have h := and_present_eq_zero_iff (word >>> b)
  rwa [BitVec.getLsbD_ushiftRight, Nat.add_zero] at h

theorem scanWord_eq_some {word : Word} {n b : ℕ} (h : scanWord word n = some b) :
    0 < b ∧ b ≤ n ∧ word.getLsbD b = false ∧
      ∀ c, b < c → c ≤ n → word.getLsbD c = true := by
  induction n with
  | zero => exact absurd h (by simp [scanWord])
  | succ n ih =>
    rw [scanWord] at h
    split at h
    · next hbit =>
      -- bit `n + 1` is clear: the scan stops here
      obtain rfl := Option.some.inj h
      exact ⟨by omega, le_rfl, (ushiftRight_and_one_eq_zero _ _).mp hbit, by omega⟩
    · next hbit =>
      obtain ⟨hpos, hle, hclear, hset⟩ := ih h
      refine ⟨hpos, by omega, hclear, ?_⟩
      intro c hc hcn
      rcases Nat.lt_or_ge n c with hlt | hge
      · rw [ushiftRight_and_one_eq_zero, Bool.not_eq_false] at hbit
        rwa [show c = n + 1 by omega]
      · exact hset c hc hge

theorem scanWord_eq_none {word : Word} {n : ℕ} (h : scanWord word n = none) :
    ∀ b, 0 < b → b ≤ n → word.getLsbD b = true := by
  induction n with
  | zero => omega
  | succ n ih =>
    rw [scanWord] at h
    split at h
    · exact absurd h (by simp)
    · next hbit =>
      intro b hb hbn
      rcases Nat.lt_or_ge n b with hlt | hge
      · rw [ushiftRight_and_one_eq_zero, Bool.not_eq_false] at hbit
        rwa [show b = n + 1 by omega]
      · exact ih h b hb hge

/-- The test against `UINT32_MAX` only skips words in which the scan finds nothing. -/
theorem scanBitmap_succ (bm : ℕ → Word) (n i : ℕ) : scanBitmap bm (n + 1) i =
    match scanWord (bm i) 31 with
    | some b => some (i, b)
    | none => scanBitmap bm n (i + 1) := by
  rw [scanBitmap]
  split
  · rfl
  · next hones =>
    rw [not_not.mp hones, show scanWord 0xFFFFFFFF 31 = none by decide]

/-- What a find of the scan says about the words from `i` on. -/
theorem scanBitmap_eq_some {bm : ℕ → Word} {n i w b : ℕ} (h : scanBitmap bm n i = some (w, b)) :
    i ≤ w ∧ w < i + n ∧ 0 < b ∧ b ≤ 31 ∧ (bm w).getLsbD b = false ∧
      (∀ c, b < c → c ≤ 31 → (bm w).getLsbD c = true) ∧
      ∀ x, i ≤ x → x < w → ∀ c, 0 < c → c ≤ 31 → (bm x).getLsbD c = true := by
  induction n generalizing i with
  | zero => exact absurd h (by simp [scanBitmap])
  | succ n ih =>
    rw [scanBitmap_succ] at h
    cases hw : scanWord (bm i) 31 with
    | some b' =>
      rw [hw] at h
      obtain ⟨rfl, rfl⟩ := Prod.mk.inj (Option.some.inj h)
      obtain ⟨hpos, hle, hclear, hset⟩ := scanWord_eq_some hw
      exact ⟨le_rfl, by omega, hpos, hle, hclear, hset, by omega⟩
    | none =>
      rw [hw] at h
      obtain ⟨hle, hlt, hpos, hb, hclear, hset, hbefore⟩ := ih h
      refine ⟨by omega, by omega, hpos, hb, hclear, hset, ?_⟩
      intro x hix hxw c hc hc31
      rcases Nat.eq_or_lt_of_le hix with rfl | hlt'
      · exact scanWord_eq_none hw c hc hc31
      · exact hbefore x hlt' hxw c hc hc31

theorem scanBitmap_eq_none {bm : ℕ → Word} {n i : ℕ} (h : scanBitmap bm n i = none) :
    ∀ x, i ≤ x → x < i + n → ∀ c, 0 < c → c ≤ 31 → (bm x).getLsbD c = true := by
  induction n generalizing i with
  | zero => omega
  | succ n ih =>
    rw [scanBitmap_succ] at h
    cases hw : scanWord (bm i) 31 with
    | some b =>
      rw [hw] at h
      exact absurd h (by simp)
    | none =>
      rw [hw] at h
      intro x hix hxn c hc hc31
      rcases Nat.eq_or_lt_of_le hix with rfl | hlt
      · exact scanWord_eq_none hw c hc hc31
      · exact ih h x hlt (by omega) c hc hc31

/-- **The scan finds the first free slot.** -/
theorem scanBitmap_eq (bm : ℕ → Word) :
    scanBitmap bm pageBitmapSize 0 = (freeSlots bm).head?.map fun p => (p / 32, 31 - p % 32) := by
  cases h : scanBitmap bm pageBitmapSize 0 with
  | none =>
    have hfull := scanBitmap_eq_none h
    have hnil : freeSlots bm = [] := by
      refine frees_eq_nil.mpr ?_
      intro p hp hs
      rw [slotCount_eq] at hp
      rw [scanned_eq_true] at hs
      exact hfull (p / 32) (by omega) (by rw [pageBitmapSize_eq]; omega) _ (by omega) (by omega)
    rw [hnil]
    rfl
  | some wb =>
    obtain ⟨w, b⟩ := wb
    obtain ⟨-, hlt, hpos, hb, hclear, hset, hbefore⟩ := scanBitmap_eq_some h
    rw [pageBitmapSize_eq] at hlt
    have hw : (32 * w + (31 - b)) / 32 = w := by omega
    have hm : 31 - (32 * w + (31 - b)) % 32 = b := by omega
    have hhead : (freeSlots bm).head? = some (32 * w + (31 - b)) := by
      have hlt' : 32 * w + (31 - b) < slotCount := by
        rw [slotCount_eq]
        omega
      refine head?_frees_eq_some.mpr ⟨hlt', ?_, ?_, ?_⟩
      · rw [scanned_eq_true]
        omega
      · rw [used, hw, hm, hclear]
      · intro q hq hs
        rw [scanned_eq_true] at hs
        -- an earlier page lies in an earlier word, or at a higher bit of the same word
        rcases Nat.lt_or_ge (q / 32) w with hqw | hqw
        · exact hbefore _ (by omega) hqw _ (by omega) (by omega)
        · rw [used, show q / 32 = w by omega]
          exact hset _ (by omega) (by omega)
    rw [hhead, Option.map_some, hw, hm]

/-- The first 32 slots of an empty bitmap: bit 0 of its first word is passed over. -/
def firstSlots : List ℕ := List.range 31 ++ [32]

theorem freeSlots_zero {bm : ℕ → Word} (h : bm = fun _ => 0) :
    ∃ qs, freeSlots bm = firstSlots ++ qs := by
  have hprefix : frees 33 scanned (used fun _ => 0) <+: freeSlots fun _ => 0 :=
    frees_prefix (by rw [slotCount_eq]; omega)
  obtain ⟨qs, hqs⟩ := hprefix
  exact ⟨qs, by rw [h, ← hqs]; rfl⟩

/-! ### Setting a bit -/

/-- The update `page_bitmap[p / 32] |= 1 << (31 - p % 32)`. -/
def setPageBit (page_bitmap : ℕ → Word) (p : ℕ) : ℕ → Word :=
  Function.update page_bitmap (p / 32) (page_bitmap (p / 32) ||| (1 : Word) <<< (31 - p % 32))

/-- Two pages share a bit only when they are the same. -/
theorem slot_eq_iff (p q : ℕ) : (q / 32 = p / 32 ∧ 31 - q % 32 = 31 - p % 32) ↔ q = p := by
  omega

theorem getLsbD_one_shiftLeft {n : ℕ} (k i : ℕ) (hi : i < n) :
    ((1 : BitVec n) <<< k).getLsbD i = decide (i = k) := by
  have hn : 0 < n := by omega
  rw [BitVec.getLsbD_shiftLeft, show (1 : BitVec n) = 1#n from rfl, BitVec.getLsbD_one]
  rcases Nat.lt_trichotomy i k with h | rfl | h
  · simp [h, Nat.ne_of_lt h]
  · simp [hi, hn]
  · simp [Nat.ne_of_gt h]
    omega

/-- **Setting a bit marks one page.** -/
theorem used_setPageBit (bm : ℕ → Word) (p : ℕ) : used (setPageBit bm p) = mark (used bm) p := by
  funext q
  rw [mark_apply, used, setPageBit, Function.update_apply]
  by_cases hw : q / 32 = p / 32
  · rw [if_pos hw, BitVec.getLsbD_or, getLsbD_one_shiftLeft _ _ (by omega)]
    by_cases hq : q = p
    · rw [if_pos hq, hq]; simp
    · rw [if_neg hq, decide_eq_false (fun hb => hq ((slot_eq_iff p q).mp ⟨hw, hb⟩)),
        Bool.or_false, used, hw]
  · rw [if_neg hw, if_neg (fun hq => hw (by rw [hq])), used]

/-! ### Clearing a bit -/

/-- The update of `free_page` for page number `q`. -/
def clearPageBit (page_bitmap : ℕ → Word) (q : ℕ) : ℕ → Word :=
  Function.update page_bitmap (q / 64)
    (((page_bitmap (q / 64)).setWidth 64 &&& ~~~((1 : BitVec 64) <<< (63 - q % 64))).setWidth 32)

/-- The page whose bit `free_page` clears for page number `q`.  When `63 - q % 64` is
past the word, the truncated mask is all ones and clears nothing. -/
def clearedSlot (q : ℕ) : Option ℕ :=
  if 32 ≤ q % 64 then some (32 * (q / 64) + (q % 64 - 32)) else none

/-- **What clearing does**: one page, or nothing. -/
theorem used_clearPageBit (bm : ℕ → Word) (q : ℕ) :
    used (clearPageBit bm q) = (clearedSlot q).elim (used bm) (release (used bm)) := by
  have hbit : ∀ p, used (clearPageBit bm q) p =
      if p / 32 = q / 64 ∧ 31 - p % 32 = 63 - q % 64 then false else used bm p := by
    intro p
    rw [used, clearPageBit, Function.update_apply]
    by_cases hw : p / 32 = q / 64
    · rw [if_pos hw, BitVec.getLsbD_setWidth, BitVec.getLsbD_and, BitVec.getLsbD_not,
        getLsbD_one_shiftLeft _ _ (by omega), BitVec.getLsbD_setWidth]
      by_cases hb : 31 - p % 32 = 63 - q % 64
      · rw [if_pos ⟨hw, hb⟩, decide_eq_true hb]
        simp
      · rw [if_neg (fun hc => hb hc.2), decide_eq_false hb, used, hw,
          decide_eq_true (show 31 - p % 32 < 32 by omega),
          decide_eq_true (show 31 - p % 32 < 64 by omega)]
        simp
    · rw [if_neg hw, if_neg (fun hc => hw hc.1), used]
  -- `63 - q % 64` is a bit of the word exactly when `q % 64` is at least 32
  funext p
  rw [hbit, clearedSlot]
  by_cases hq : 32 ≤ q % 64
  · rw [if_pos hq, Option.elim_some, release_apply]
    by_cases hp : p = 32 * (q / 64) + (q % 64 - 32)
    · rw [if_pos hp, if_pos (by omega)]
    · rw [if_neg hp, if_neg (by omega)]
  · rw [if_neg hq, Option.elim_none, if_neg (by omega)]

end MVK
