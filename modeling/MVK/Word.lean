import Mathlib.Data.BitVec
import Mathlib.Tactic.NormNum

/-!
# Words, pages and frames

The 32-bit words of the machine, how a virtual address splits into a directory
index, a table index and an offset, and how a table entry splits into a frame and
its flag bits.  The program computes with masks and shifts; here each mask and
shift it uses is read once as a field of the word.

## Main definitions

* `pageOf`, `wordOf`, `offsetOf` — the fields of an address.
* `frameOf` — the frame of an entry or of a physical address.
* `pdEntryAddr`, `ptEntryAddr` — where the tables are seen through slot 1023.
* `pageFlagPresent`, … — the flag bits of an entry.
-/

namespace MVK

/-- A machine word: `uint32_t`, `unsigned long`, `size_t` or a pointer on i686. -/
abbrev Word := BitVec 32

/-- `uint8_t`, or a `char`. -/
abbrev Byte := BitVec 8

/-- A physical page frame number. -/
abbrev Frame := BitVec 20

/-- An index into a table of 1024 words. -/
abbrev Index := BitVec 10

/-- A virtual page, as its directory index and its table index. -/
abbrev Page := Index × Index

def pageSize : Word := 4096

def pageFlagPresent : Word := 0b00000001

def pageFlagWritable : Word := 0b00000010

def pageFlagUser : Word := 0b00000100

/-- The page of a virtual address: bits 31–22 and bits 21–12. -/
def pageOf (v : Word) : Page := (v.extractLsb' 22 10, v.extractLsb' 12 10)

/-- The frame of a physical address, or of a table entry: bits 31–12. -/
def frameOf (w : Word) : Frame := w.extractLsb' 12 20

/-- The index of a word in its frame: bits 11–2. -/
def wordOf (w : Word) : Index := w.extractLsb' 2 10

/-- The offset of an address in its page: bits 11–0. -/
def offsetOf (w : Word) : BitVec 12 := w.extractLsb' 0 12

@[simp] theorem toNat_zero_word : (0 : Word).toNat = 0 := rfl

@[simp] theorem toNat_one_word : (1 : Word).toNat = 1 := rfl

/-! ### Fields as arithmetic -/

theorem toNat_pageOf_fst (v : Word) : (pageOf v).1.toNat = v.toNat / 4194304 := by
  have h := v.isLt
  simp only [pageOf, BitVec.extractLsb'_toNat, Nat.shiftRight_eq_div_pow]
  omega

theorem toNat_pageOf_snd (v : Word) : (pageOf v).2.toNat = v.toNat / 4096 % 1024 := by
  simp only [pageOf, BitVec.extractLsb'_toNat, Nat.shiftRight_eq_div_pow]

theorem toNat_frameOf (w : Word) : (frameOf w).toNat = w.toNat / 4096 := by
  have h := w.isLt
  simp only [frameOf, BitVec.extractLsb'_toNat, Nat.shiftRight_eq_div_pow]
  omega

theorem toNat_wordOf (w : Word) : (wordOf w).toNat = w.toNat / 4 % 1024 := by
  simp only [wordOf, BitVec.extractLsb'_toNat, Nat.shiftRight_eq_div_pow]

theorem toNat_offsetOf (w : Word) : (offsetOf w).toNat = w.toNat % 4096 := by
  simp only [offsetOf, BitVec.extractLsb'_toNat, Nat.shiftRight_eq_div_pow]
  omega

/-- Two addresses lie in the same page when they agree above the offset. -/
theorem pageOf_eq_iff (v w : Word) : pageOf v = pageOf w ↔ v.toNat / 4096 = w.toNat / 4096 := by
  have hv := v.isLt
  have hw := w.isLt
  rw [Prod.ext_iff, ← BitVec.toNat_inj, ← BitVec.toNat_inj, toNat_pageOf_fst,
    toNat_pageOf_fst, toNat_pageOf_snd, toNat_pageOf_snd]
  omega

theorem pageOf_eq_of_toNat {v : Word} {i j : Index}
    (h : v.toNat / 4096 = i.toNat * 1024 + j.toNat) : pageOf v = (i, j) := by
  have hv := v.isLt
  have hj := j.isLt
  refine Prod.ext (BitVec.eq_of_toNat_eq ?_) (BitVec.eq_of_toNat_eq ?_)
  · rw [toNat_pageOf_fst]; dsimp only; omega
  · rw [toNat_pageOf_snd]; dsimp only; omega

/-! ### Masks and shifts -/

/-- Keeping the low `k` bits is the remainder. -/
theorem toNat_and_mask {k : ℕ} (hk : k ≤ 32) (w : Word) :
    (w &&& BitVec.ofNat 32 (2 ^ k - 1)).toNat = w.toNat % 2 ^ k := by
  have hpow : 2 ^ k ≤ 2 ^ 32 := Nat.pow_le_pow_right (by decide) hk
  have hpos : 0 < 2 ^ k := Nat.two_pow_pos k
  rw [BitVec.toNat_and, BitVec.toNat_ofNat, Nat.mod_eq_of_lt (by omega),
    Nat.and_two_pow_sub_one_eq_mod]

/-- Clearing the low `k` bits rounds down. -/
theorem toNat_and_not_mask {k : ℕ} (hk : k ≤ 32) (w : Word) :
    (w &&& ~~~BitVec.ofNat 32 (2 ^ k - 1)).toNat = w.toNat / 2 ^ k * 2 ^ k := by
  obtain ⟨m, hm⟩ : ∃ m, m = BitVec.ofNat 32 (2 ^ k - 1) := ⟨_, rfl⟩
  have hsplit : (w &&& ~~~m) ||| (w &&& m) = w := by
    rw [← BitVec.and_or_distrib_left, BitVec.or_comm, BitVec.or_not_self, BitVec.and_allOnes]
  have hdisj : (w &&& ~~~m) &&& (w &&& m) = 0#32 := by
    rw [BitVec.and_assoc, BitVec.and_comm (~~~m), BitVec.and_assoc, BitVec.and_not_self]
    simp
  -- the two parts are disjoint, so or-ing them is adding them
  have hadd := congrArg BitVec.toNat
    ((BitVec.add_eq_or_of_and_eq_zero _ _ hdisj).trans hsplit)
  have hle : (w &&& ~~~m).toNat ≤ w.toNat := by
    rw [BitVec.toNat_and]; exact Nat.and_le_left
  have hw := w.isLt
  have hmod := Nat.div_add_mod' w.toNat (2 ^ k)
  have hmask : (w &&& m).toNat = w.toNat % 2 ^ k := by rw [hm, toNat_and_mask hk]
  rw [BitVec.toNat_add, hmask] at hadd
  rw [← hm]
  omega

theorem toNat_and_fff (w : Word) : (w &&& 0xFFF#32).toNat = w.toNat % 4096 :=
  toNat_and_mask (k := 12) (by decide) w

theorem toNat_and_not_fff (w : Word) : (w &&& ~~~0xFFF#32).toNat = w.toNat / 4096 * 4096 :=
  toNat_and_not_mask (k := 12) (by decide) w

theorem pageOf_and_not_fff (v : Word) : pageOf (v &&& ~~~0xFFF#32) = pageOf v := by
  rw [pageOf_eq_iff, toNat_and_not_fff]
  omega

theorem frameOf_and_not_fff (w : Word) : frameOf (w &&& ~~~0xFFF#32) = frameOf w := by
  apply BitVec.eq_of_toNat_eq
  rw [toNat_frameOf, toNat_frameOf, toNat_and_not_fff]
  omega

/-- The physical address that `getPhysicalAddress` adds up. -/
theorem and_not_fff_add_and_fff (e v : Word) :
    (e &&& ~~~0xFFF#32) + (v &&& 0xFFF#32) = (frameOf e ++ offsetOf v : BitVec (20 + 12)) := by
  apply BitVec.eq_of_toNat_eq
  have he := e.isLt
  have hv : (offsetOf v).toNat < 2 ^ 12 := (offsetOf v).isLt
  rw [BitVec.toNat_add, toNat_and_not_fff, toNat_and_fff, BitVec.toNat_append,
    ← Nat.shiftLeft_add_eq_or_of_lt hv, Nat.shiftLeft_eq, toNat_frameOf, toNat_offsetOf]
  omega

theorem frameOf_append_offset (f : Frame) (o : BitVec 12) :
    frameOf (f ++ o : BitVec (20 + 12)) = f := by
  rw [frameOf, BitVec.extractLsb'_append_eq_left]

theorem toNat_ushiftRight_22 (v : Word) : (v >>> 22).toNat = (pageOf v).1.toNat := by
  rw [BitVec.toNat_ushiftRight, Nat.shiftRight_eq_div_pow, toNat_pageOf_fst]

theorem toNat_ushiftRight_12_and (v : Word) :
    (v >>> 12 &&& 0x03FF#32).toNat = (pageOf v).2.toNat := by
  rw [BitVec.toNat_and, BitVec.toNat_ushiftRight, Nat.shiftRight_eq_div_pow, toNat_pageOf_snd]
  exact Nat.and_two_pow_sub_one_eq_mod _ 10

/-! ### The tables seen through slot 1023 -/

/-- Where `pd[i]` is: `pd = (unsigned long*)0xFFFFF000`. -/
def pdEntryAddr (i : Word) : Word := 0xFFFFF000#32 + 4#32 * i

/-- Where `pt[j]` is: `pt = ((unsigned long*)0xFFC00000) + (1024 * i)`. -/
def ptEntryAddr (i j : Word) : Word := 0xFFC00000#32 + 4#32 * (1024#32 * i) + 4#32 * j

theorem toNat_pdEntryAddr {i : Word} (hi : i.toNat < 1024) :
    (pdEntryAddr i).toNat = 4294963200 + 4 * i.toNat := by
  rw [pdEntryAddr, BitVec.toNat_add, BitVec.toNat_mul]
  norm_num
  omega

theorem toNat_ptEntryAddr {i j : Word} (hi : i.toNat < 1024) (hj : j.toNat < 1024) :
    (ptEntryAddr i j).toNat = 4290772992 + 4096 * i.toNat + 4 * j.toNat := by
  rw [ptEntryAddr, BitVec.toNat_add, BitVec.toNat_add, BitVec.toNat_mul, BitVec.toNat_mul,
    BitVec.toNat_mul]
  norm_num
  omega

theorem pageOf_pdEntryAddr {i : Word} (hi : i.toNat < 1024) :
    pageOf (pdEntryAddr i) = (1023#10, 1023#10) := by
  apply pageOf_eq_of_toNat
  rw [toNat_pdEntryAddr hi, BitVec.toNat_ofNat]
  omega

theorem wordOf_pdEntryAddr {i : Word} {k : Index} (hi : i.toNat = k.toNat) :
    wordOf (pdEntryAddr i) = k := by
  have hk := k.isLt
  apply BitVec.eq_of_toNat_eq
  rw [toNat_wordOf, toNat_pdEntryAddr (by omega)]
  omega

theorem pageOf_ptEntryAddr {i j : Word} {k : Index} (hi : i.toNat = k.toNat)
    (hj : j.toNat < 1024) : pageOf (ptEntryAddr i j) = (1023#10, k) := by
  have hk := k.isLt
  apply pageOf_eq_of_toNat
  rw [toNat_ptEntryAddr (by omega) hj, BitVec.toNat_ofNat]
  omega

theorem wordOf_ptEntryAddr {i j : Word} {k : Index} (hi : i.toNat < 1024)
    (hj : j.toNat = k.toNat) : wordOf (ptEntryAddr i j) = k := by
  have hk := k.isLt
  apply BitVec.eq_of_toNat_eq
  rw [toNat_wordOf, toNat_ptEntryAddr hi (by omega)]
  omega

/-! ### Entries -/

theorem frameOf_or (e f : Word) : frameOf (e ||| f) = frameOf e ||| frameOf f := by
  rw [frameOf, frameOf, frameOf, BitVec.extractLsb'_or]

/-- Flag bits do not reach the frame. -/
theorem frameOf_or_flags {e f : Word} (hf : f.toNat < 4096) : frameOf (e ||| f) = frameOf e := by
  have h0 : frameOf f = 0#20 := by
    apply BitVec.eq_of_toNat_eq
    rw [toNat_frameOf, BitVec.toNat_ofNat]
    omega
  rw [frameOf_or, h0, BitVec.or_zero]

/-- The test `e & PAGE_FLAG_PRESENT`, as the bit it reads. -/
theorem and_present_eq_zero_iff (e : Word) : e &&& pageFlagPresent = 0 ↔ e.getLsbD 0 = false := by
  constructor
  · intro h
    have hbit := congrArg (fun w : Word => w.getLsbD 0) h
    simpa [pageFlagPresent] using hbit
  · intro h
    apply BitVec.eq_of_getLsbD_eq
    intro i hi
    rcases Nat.eq_zero_or_pos i with rfl | hpos
    · rw [BitVec.getLsbD_and, h, Bool.false_and]
      rfl
    · have hne : (1#32).getLsbD i = false := by
        rw [BitVec.getLsbD_one]
        simp
        omega
      rw [BitVec.getLsbD_and, show pageFlagPresent = 1#32 from rfl, hne, Bool.and_false]
      simp

end MVK
