import MVK.Liballoc

/-!
# The allocator's own `memset` and `memcpy`

`liballoc_memcpy` copies by words while it can, where `memcpy` copies by bytes.  The words
are read whole before they are written, so the two differ when the destination lies one,
two or three bytes behind the source, and never otherwise.

## Main results

* `liballoc_memcpy_eq_iff` — **exactly when copying by words is copying by bytes.**
* `liballoc_memcpy_contract` — what C promises of `memcpy`, its return value included.
* `memsetLoop_spec` — what `liballoc_memset` leaves.
-/

namespace MVK

open Allocator

/-! ### Copying by words -/

/-- The bytes of a word that is read. -/
theorem extract_read32 (mem : Memory) (a : Word) :
    (read32 mem a).extractLsb' 0 8 = mem a ∧ (read32 mem a).extractLsb' 8 8 = mem (a + 1) ∧
      (read32 mem a).extractLsb' 16 8 = mem (a + 2) ∧
      (read32 mem a).extractLsb' 24 8 = mem (a + 3) := by
  refine ⟨?_, ?_, ?_, ?_⟩
  all_goals
    ext i hi
    simp only [read32, BitVec.getElem_extractLsb', BitVec.getLsbD_append]
    repeat' split
    all_goals first
      | omega
      | rw [BitVec.getLsbD_eq_getElem (by omega)]
        congr 1
        omega

/-- A word that is copied, byte by byte. -/
theorem write32_read32 (mem : Memory) (dest src b : Word) :
    write32 mem dest (read32 mem src) b =
      if b = dest then mem src else if b = dest + 1 then mem (src + 1)
      else if b = dest + 2 then mem (src + 2) else if b = dest + 3 then mem (src + 3)
      else mem b := by
  obtain ⟨h0, h1, h2, h3⟩ := extract_read32 mem src
  simp only [write32, h0, h1, h2, h3]

/-- **Four bytes are a word**, unless the later ones are overwritten by the earlier. -/
theorem memcpyLoop_four {dest src : Word} (h1 : dest - src ≠ 1) (h2 : dest - src ≠ 2)
    (h3 : dest - src ≠ 3) (n : ℕ) (mem : Memory) :
    (memcpyLoop (n + 4) dest src mem).2 =
      (memcpyLoop n (dest + 4) (src + 4) (write32 mem dest (read32 mem src))).2 := by
  have hd1 : src + 1 ≠ dest := by rintro rfl; exact h1 (by bv_omega)
  have hd2 : src + 2 ≠ dest := by rintro rfl; exact h2 (by bv_omega)
  have hd3 : src + 3 ≠ dest := by rintro rfl; exact h3 (by bv_omega)
  have hd12 : src + 2 ≠ dest + 1 := by bv_omega
  have hd13 : src + 3 ≠ dest + 1 := by bv_omega
  have hd23 : src + 3 ≠ dest + 2 := by bv_omega
  have hmem : Function.update (Function.update (Function.update (Function.update mem dest (mem src))
      (dest + 1) (mem (src + 1))) (dest + 2) (mem (src + 2))) (dest + 3) (mem (src + 3)) =
        write32 mem dest (read32 mem src) := by
    funext b
    rw [write32_read32]
    by_cases hb0 : b = dest
    · simp [hb0]
    by_cases hb1 : b = dest + 1
    · simp [hb1]
    by_cases hb2 : b = dest + 2
    · simp [hb2]
    simp only [Function.update_apply, hb0, hb1, hb2, if_false]
  have hadd : ∀ a : Word, a + 1 + 1 = a + 2 ∧ a + 2 + 1 = a + 3 ∧ a + 3 + 1 = a + 4 := by
    intro a
    refine ⟨?_, ?_, ?_⟩ <;> bv_omega
  rw [← hmem]
  simp only [memcpyLoop, hadd]
  rw [Function.update_of_ne hd1, Function.update_of_ne hd12, Function.update_of_ne hd2,
    Function.update_of_ne hd23, Function.update_of_ne hd13, Function.update_of_ne hd3]

/-- Copying by words, where it is copying by bytes. -/
theorem memcpyWords_eq {dest src : Word} (h1 : dest - src ≠ 1) (h2 : dest - src ≠ 2)
    (h3 : dest - src ≠ 3) (n : ℕ) (mem : Memory) :
    memcpyWords n dest src mem = (memcpyLoop n dest src mem).2 := by
  induction n, dest, src, mem using memcpyWords.induct with
  | case1 n dest src mem ih =>
    have hsub : dest + 4 - (src + 4) = dest - src := by bv_omega
    rw [memcpyWords, ih (hsub ▸ h1) (hsub ▸ h2) (hsub ▸ h3), memcpyLoop_four h1 h2 h3]
  | case2 n dest src mem hn => rw [memcpyWords.eq_2 _ _ _ _ hn]

/-- A few bytes are not copied by words. -/
theorem memcpyWords_of_lt {n : ℕ} (hn : n < 4) (dest src : Word) (mem : Memory) :
    memcpyWords n dest src mem = (memcpyLoop n dest src mem).2 :=
  memcpyWords.eq_2 _ _ _ _ fun m hm => by omega

/-- The bytes outside the destination stay. -/
theorem memcpyWords_frame {n : ℕ} {dest src a : Word} {mem : Memory}
    (ha : ∀ k < n, a ≠ dest + BitVec.ofNat 32 k) : memcpyWords n dest src mem a = mem a := by
  induction n, dest, src, mem using memcpyWords.induct with
  | case1 n dest src mem ih =>
    have hnext : ∀ k < n, a ≠ dest + 4 + BitVec.ofNat 32 k := by
      intro k hk
      have hne := ha (k + 4) (by omega)
      rwa [Nat.add_comm, BitVec.ofNat_add, ← BitVec.add_assoc] at hne
    have h0 : a ≠ dest := by simpa using ha 0 (by omega)
    have h1 : a ≠ dest + 1 := ha 1 (by omega)
    have h2 : a ≠ dest + 2 := ha 2 (by omega)
    have h3 : a ≠ dest + 3 := ha 3 (by omega)
    rw [memcpyWords, ih hnext, write32_read32, if_neg h0, if_neg h1, if_neg h2, if_neg h3]
  | case2 n dest src mem hn =>
    rw [memcpyWords.eq_2 _ _ _ _ hn]
    exact memcpyLoop_frame ha mem

/-- Copied to a place `d` bytes behind it, for `d` from 1 to 3, the first byte comes again
after `d` bytes.  A word takes what was there. -/
theorem memcpyWords_ne {src d : Word} {n : ℕ} (hd : d = 1 ∨ d = 2 ∨ d = 3) (hn : 4 ≤ n)
    (hlt : n < 2 ^ 32) :
    memcpyWords n (src + d) src (fun a => if a = src then 1 else 0) ≠
      (memcpyLoop n (src + d) src fun a => if a = src then 1 else 0).2 := by
  obtain ⟨m, rfl⟩ : ∃ m, n = m + 4 := ⟨n - 4, by omega⟩
  intro heq
  have hat := congrFun heq (src + d + d)
  have hwords : ∀ k < m, src + d + d ≠ src + d + 4 + BitVec.ofNat 32 k := by
    intro k hk
    rcases hd with rfl | rfl | rfl <;> bv_omega
  have hbytes : ∀ k < m, src + d + d ≠ src + d + 1 + 1 + 1 + 1 + BitVec.ofNat 32 k := by
    intro k hk
    rcases hd with rfl | rfl | rfl <;> bv_omega
  rw [memcpyWords, memcpyWords_frame hwords, write32_read32, memcpyLoop, memcpyLoop, memcpyLoop,
    memcpyLoop, memcpyLoop_frame hbytes] at hat
  rcases hd with rfl | rfl | rfl <;> simp [BitVec.add_assoc] at hat

/-- Copying by words is copying by bytes, unless a word to copy would be overwritten first. -/
theorem liballocMemcpy_agrees {s1 s2 n : Word}
    (h : n.toNat < 4 ∨ (s1 - s2 ≠ 1 ∧ s1 - s2 ≠ 2 ∧ s1 - s2 ≠ 3)) (mem : Memory) :
    (liballocMemcpy s1 s2 n mem).2 = (memcpy s1 s2 n mem).2 := by
  rcases h with hn | ⟨h1, h2, h3⟩
  · exact memcpyWords_of_lt hn s1 s2 mem
  · exact memcpyWords_eq h1 h2 h3 _ mem

/-- **When copying by words is copying by bytes**, whatever is in memory: there is no word to
copy, or the destination is not one, two or three bytes behind the source. -/
theorem liballoc_memcpy_eq_iff (s1 s2 n : Word) :
    (∀ mem, (liballocMemcpy s1 s2 n mem).2 = (memcpy s1 s2 n mem).2) ↔
      n.toNat < 4 ∨ (s1 - s2 ≠ 1 ∧ s1 - s2 ≠ 2 ∧ s1 - s2 ≠ 3) := by
  constructor
  · intro h
    by_contra hnot
    rw [not_or, Nat.not_lt] at hnot
    have hd : s1 - s2 = 1 ∨ s1 - s2 = 2 ∨ s1 - s2 = 3 := by tauto
    have hne := @memcpyWords_ne s2 (s1 - s2) n.toNat hd hnot.1 n.isLt
    have hs1 : s2 + (s1 - s2) = s1 := by bv_omega
    rw [hs1] at hne
    exact hne (h _)
  · intro h mem
    exact liballocMemcpy_agrees h mem

section Contract

variable {destination source num : Word} (hd : destination.toNat + num.toNat ≤ 2 ^ 32)
  (hs : source.toNat + num.toNat ≤ 2 ^ 32)
  (h : destination.toNat + num.toNat ≤ source.toNat ∨
    source.toNat + num.toNat ≤ destination.toNat ∨ destination.toNat ≤ source.toNat)
  (mem : Memory)

include hd hs h

/-- The memory that `liballoc_memcpy` leaves. -/
theorem liballocMemcpy_copied :
    Copied destination source num mem (liballocMemcpy destination source num mem).2 := by
  rw [liballocMemcpy_agrees]
  · exact memcpy_copied hd hs h mem
  · by_cases hn : num.toNat < 4
    · exact Or.inl hn
    · refine Or.inr ⟨?_, ?_, ?_⟩ <;> bv_omega

/-- **`liballoc_memcpy` keeps the contract** of `memcpy`, with the pointer that it returns. -/
theorem liballoc_memcpy_contract :
    CopyContract destination source num mem (liballocMemcpy destination source num mem) := by
  have hcopied := liballocMemcpy_copied hd hs h mem
  exact { hcopied with returned := rfl }

end Contract

theorem liballoc_memcpy_contract_sample :
    CopyContract 0x10020 0x20020 7 (fun a => a.setWidth 8)
      (liballocMemcpy 0x10020 0x20020 7 fun a => a.setWidth 8) :=
  @liballoc_memcpy_contract 0x10020 0x20020 7 (by decide) (by decide) (by decide)
    fun a => a.setWidth 8

/-! ### `memset` -/

/-- What the loop of `liballoc_memset` leaves. -/
theorem memsetLoop_spec (c : Byte) {n : ℕ} (hn : n < 2 ^ 32) (p a : Word) (mem : Memory) :
    memsetLoop c n p mem a = if (a - p).toNat < n then c else mem a := by
  induction n generalizing p mem with
  | zero => rfl
  | succ n ih =>
    rw [memsetLoop, ih (by omega)]
    by_cases hap : a = p
    · subst hap
      have hlast : ¬ (a - (a + 1)).toNat < n := by bv_omega
      have hfirst : (a - a).toNat < n + 1 := by simp
      rw [if_neg hlast, if_pos hfirst, Function.update_self]
    · have hnext : (a - (p + 1)).toNat < n ↔ (a - p).toNat < n + 1 := by bv_omega
      rw [Function.update_of_ne hap]
      exact if_congr hnext rfl rfl

end MVK
