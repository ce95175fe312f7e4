import Mathlib.Data.FinEnum
import MVK.Lib.Congruential
import MVK.Word

/-!
# The random numbers of the C library

`rand` and `srand`, on the word that they keep between calls.  A run of calls is a linear
congruential sequence modulo `2 ^ 32`, and its results are bits 16 to 30 of the words.

## Main definitions

* `srand`, `rand`, `randMax` — the code.
* `randCalls` — several calls of `rand`, with their results.

## Main results

* `minimalPeriod_rand` — the period, from any seed.
* `card_randResult` — each result is that of `2 ^ 17` words.
* `rand_full_period` — **all words in turn, and all results equally often.**
-/

namespace MVK

open Finset Function Congruential

/-! ### The code -/

/-- `RAND_MAX`. -/
def randMax : ℕ := 32767

/-- `srand`: what it leaves in `next`. -/
def srand (seed : Word) : Word := seed

/-- `rand`, with `next` after it. -/
def rand (next : Word) : Word × Word :=
  let next := next * 1103515245 + 12345
  (next / 65536 % 32768, next)

/-- Calls of `rand` one after the other: their results, and `next` after the last one. -/
def randCalls (n : ℕ) (next : Word) : List Word × Word := calls rand n next

/-! ### The sequence of `next` -/

/-- Words have the characteristic of their size. -/
theorem charP_word : CharP Word (2 ^ 32) where
  cast_eq_zero_iff n := by
    rw [BitVec.natCast_eq_ofNat, ← BitVec.toNat_inj, BitVec.toNat_ofNat,
      Nat.dvd_iff_mod_eq_zero]
    rfl

theorem card_word : Fintype.card Word = 2 ^ 32 := by
  rw [← FinEnum.card_eq_fintypeCard, FinEnum.card_bitVec]

/-- What a call does to `next`, as a step of a sequence in the ring of words. -/
theorem advance_rand :
    advance rand = step ((1103515245 : ℕ) : Word) ((12345 : ℕ) : Word) := rfl

/-- The multiplier and the increment are those of a full period. -/
theorem fullPeriod_rand : FullPeriod (2 ^ 32) 1103515245 12345 where
  coprime := (by decide : Nat.Coprime 12345 2).pow_right 32
  prime p hp hdvd := by
    obtain rfl := (Nat.prime_dvd_prime_iff_eq hp Nat.prime_two).mp (hp.dvd_of_dvd_pow hdvd)
    rfl
  four _ := rfl

theorem iterate_rand_eq_self_iff (next : Word) (k : ℕ) :
    (advance rand)^[k] next = next ↔ 2 ^ 32 ∣ k := by
  have hchar := charP_word
  rw [advance_rand, iterate_step_eq_self_iff fullPeriod_rand]

/-- **The period is the number of words**, from any of them. -/
theorem minimalPeriod_rand (next : Word) :
    minimalPeriod (advance rand) next = Fintype.card Word := by
  have hchar := charP_word
  rw [card_word, advance_rand, minimalPeriod_step fullPeriod_rand]

/-! ### Results -/

/-- The result that `rand` makes of its new `next`. -/
def randResult (next : Word) : Word := next / 65536 % 32768

theorem toNat_randResult (next : Word) : (randResult next).toNat = next.toNat / 65536 % 32768 := by
  rw [randResult, BitVec.toNat_umod, BitVec.toNat_udiv]
  rfl

theorem randResult_le (next : Word) : (randResult next).toNat ≤ randMax := by
  rw [toNat_randResult, randMax]
  omega

theorem rand_fst (next : Word) : (rand next).1 = randResult (rand next).2 := rfl

/-- A result leaves bit 31 and the bits below 16 open. -/
theorem card_randResult {result : Word} (hresult : result.toNat ≤ randMax) :
    #{next | randResult next = result} = 2 ^ 17 := by
  have hcard : #(range 2 ×ˢ range 65536) = 2 ^ 17 := by
    rw [card_product, card_range, card_range]
    rfl
  rw [randMax] at hresult
  rw [← hcard]
  refine card_nbij' (fun next => (next.toNat / 2147483648, next.toNat % 65536))
    (fun bits => BitVec.ofNat 32 (bits.1 * 2147483648 + result.toNat * 65536 + bits.2))
    ?_ ?_ ?_ ?_
  · intro next _
    have hlt := next.isLt
    simp only [coe_product, coe_range, Set.mem_prod, Set.mem_Iio]
    omega
  · rintro ⟨high, low⟩ hbits
    simp only [coe_product, coe_range, Set.mem_prod, Set.mem_Iio] at hbits
    refine mem_coe.mpr (mem_filter.mpr ⟨mem_univ _, BitVec.eq_of_toNat_eq ?_⟩)
    rw [toNat_randResult, BitVec.toNat_ofNat]
    omega
  · intro next hnext
    have hlt := next.isLt
    have hfields := congrArg BitVec.toNat (mem_filter.mp hnext).2
    rw [toNat_randResult] at hfields
    apply BitVec.eq_of_toNat_eq
    dsimp only
    rw [BitVec.toNat_ofNat]
    omega
  · rintro ⟨high, low⟩ hbits
    simp only [coe_product, coe_range, Set.mem_prod, Set.mem_Iio] at hbits
    simp only [BitVec.toNat_ofNat, Prod.mk.injEq]
    omega

/-- **`rand` has the full period and is equidistributed.**  From any seed `next` is back at
the seed after each `2 ^ 32` calls and at no other time, and has been every word once by
then; and in these calls each result up to `RAND_MAX`, which is the greatest one, is returned
`2 ^ 17` times. -/
theorem rand_full_period (seed : Word) :
    (∀ k, (randCalls k (srand seed)).2 = seed ↔ 2 ^ 32 ∣ k) ∧
    (∀ next, ∃! k, k < 2 ^ 32 ∧ (randCalls k (srand seed)).2 = next) ∧
    (∀ k, ∀ result ∈ (randCalls k (srand seed)).1, result.toNat ≤ randMax) ∧
    ∀ result : Word, result.toNat ≤ randMax →
      (randCalls (2 ^ 32) (srand seed)).1.count result = 2 ^ 17 := by
  refine ⟨fun k => ?_, fun next => ?_, fun k result hmem => ?_, fun result hresult => ?_⟩
  · rw [randCalls, srand, calls_snd, iterate_rand_eq_self_iff]
  · simp only [randCalls, srand, calls_snd, ← card_word]
    exact visits_once (minimalPeriod_rand seed) next
  · rw [randCalls, calls_fst] at hmem
    obtain ⟨j, -, rfl⟩ := List.mem_map.mp hmem
    rw [rand_fst]
    exact randResult_le _
  · rw [← card_randResult hresult, randCalls, ← card_word]
    exact count_calls_of_period rand_fst minimalPeriod_rand (srand seed) result

/-- Before any call of `srand` the seed is 1. -/
theorem rand_full_period_sample : (randCalls (2 ^ 32) (srand 1)).1.count 0 = 2 ^ 17 :=
  (rand_full_period 1).2.2.2 0 (by decide)

end MVK
