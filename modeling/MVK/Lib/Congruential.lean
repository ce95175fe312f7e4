import Mathlib.Algebra.CharP.Defs
import Mathlib.Data.Nat.Count
import Mathlib.Data.Nat.Factorization.Basic
import Mathlib.Dynamics.PeriodicPts.Lemmas
import Mathlib.NumberTheory.Multiplicity
import Mathlib.RingTheory.Coprime.Lemmas
import Mathlib.RingTheory.Nilpotent.Basic

/-!
# Linear congruential sequences

The sequence of `x`, `x * a + c`, and so on, in a ring whose characteristic is the modulus
`m`.  After `k` steps it has moved by `1 + a + ⋯ + a ^ (k - 1)` times its first step.  When
`c` is prime to `m`, and `a - 1` is a multiple of every prime factor of `m` and of 4 if `m`
is one, the first step is a unit, and `m` divides the sum exactly when it divides `k`.  So the
sequence comes back after `m` steps and not before.

A map that takes as many steps to come back as there are points visits all of them; so what
holds on the way round holds as often as it holds of points.

* `FullPeriod` — the conditions on the modulus, the multiplier and the increment.
* `dvd_geom_sum_iff` — when `m` divides the sum.
* `iterate_step_eq_self_iff`, `minimalPeriod_step` — **the period is the modulus.**
* `visits_once`, `card_filter_iterate` — what a map with a full period visits.
* `calls`, `count_calls_of_period` — the calls of a generator, and how often each result
  comes in a full period.
-/

namespace Congruential

open Finset Function

/-- The conditions under which the period is the modulus. -/
structure FullPeriod (m a c : ℕ) : Prop where
  coprime : c.Coprime m
  prime : ∀ p, p.Prime → p ∣ m → a ≡ 1 [MOD p]
  four : 4 ∣ m → a ≡ 1 [MOD 4]

/-! ### The sum of the powers -/

section Sum

variable {m a c p : ℕ}

theorem geom_sum_modEq (h : a ≡ 1 [MOD p]) (k : ℕ) : ∑ i ∈ range k, a ^ i ≡ k [MOD p] := by
  induction k with
  | zero => rfl
  | succ k ih =>
    have hpow : a ^ k ≡ 1 [MOD p] := by simpa using h.pow k
    rw [sum_range_succ]
    exact ih.add hpow

theorem natCast_dvd_sub_one {n : ℕ} (h : a ≡ 1 [MOD n]) : (n : ℤ) ∣ (a : ℤ) - 1 := by
  simpa using h.symm.dvd

/-- Lifting the exponent, from `a - 1` to `a ^ k - 1`. -/
theorem emultiplicity_pow_sub_one (hp : p.Prime) (h : a ≡ 1 [MOD p])
    (h4 : p = 2 → a ≡ 1 [MOD 4]) (k : ℕ) :
    emultiplicity (p : ℤ) ((a : ℤ) ^ k - 1) =
      emultiplicity (p : ℤ) ((a : ℤ) - 1) + emultiplicity p k := by
  have hnot : ¬ (p : ℤ) ∣ a := by
    intro hpa
    have hone : (p : ℤ) ∣ 1 := by simpa using dvd_sub hpa (natCast_dvd_sub_one h)
    exact hp.one_lt.ne' (Nat.dvd_one.mp (by exact_mod_cast hone))
  rcases hp.eq_two_or_odd' with rfl | hodd
  · have htwo := Int.two_pow_sub_pow' k (natCast_dvd_sub_one (h4 rfl)) hnot
    rw [one_pow] at htwo
    rw [Nat.cast_ofNat, htwo, ← Int.natCast_emultiplicity]
    rfl
  · have hpow := Int.emultiplicity_pow_sub_pow hp hodd (natCast_dvd_sub_one h) hnot k
    rwa [one_pow] at hpow

theorem emultiplicity_geom_sum (hp : p.Prime) (h : a ≡ 1 [MOD p])
    (h4 : p = 2 → a ≡ 1 [MOD 4]) (k : ℕ) :
    emultiplicity p (∑ i ∈ range k, a ^ i) = emultiplicity p k := by
  rcases eq_or_ne a 1 with rfl | ha
  · simp
  have hfinite : emultiplicity (p : ℤ) ((a : ℤ) - 1) ≠ ⊤ := by
    rw [← finiteMultiplicity_iff_emultiplicity_ne_top, Int.finiteMultiplicity_iff]
    exact ⟨hp.one_lt.ne', sub_ne_zero.mpr (by exact_mod_cast ha)⟩
  have hmul := emultiplicity_pow_sub_one hp h h4 k
  rw [← geom_sum_mul, emultiplicity_mul (Nat.prime_iff_prime_int.mp hp), add_comm] at hmul
  rw [← Int.natCast_emultiplicity]
  push_cast
  exact ENat.add_right_injective_of_ne_top hfinite hmul

theorem prime_pow_dvd_geom_sum_iff (h : FullPeriod m a c) (hp : p.Prime) {e : ℕ}
    (hpe : p ^ e ∣ m) (k : ℕ) : p ^ e ∣ ∑ i ∈ range k, a ^ i ↔ p ^ e ∣ k := by
  rcases Nat.eq_zero_or_pos e with rfl | he
  · simp
  have hone := h.prime p hp ((dvd_pow_self p he.ne').trans hpe)
  by_cases h4 : p = 2 → a ≡ 1 [MOD 4]
  · rw [pow_dvd_iff_le_emultiplicity, pow_dvd_iff_le_emultiplicity,
      emultiplicity_geom_sum hp hone h4]
  · -- a modulus with a single factor 2
    rw [Classical.not_imp] at h4
    obtain ⟨rfl, h4⟩ := h4
    have he1 : e = 1 := by
      by_contra hne
      exact h4 (h.four ((pow_dvd_pow 2 (show 2 ≤ e by omega)).trans hpe))
    rw [he1, pow_one]
    exact (geom_sum_modEq hone k).dvd_iff dvd_rfl

/-- **The modulus divides the sum of `k` powers exactly when it divides `k`.** -/
theorem dvd_geom_sum_iff (h : FullPeriod m a c) (k : ℕ) :
    m ∣ ∑ i ∈ range k, a ^ i ↔ m ∣ k := by
  rw [Nat.dvd_iff_prime_pow_dvd_dvd, Nat.dvd_iff_prime_pow_dvd_dvd k]
  constructor
  · intro hsum p e hp hpe
    exact (prime_pow_dvd_geom_sum_iff h hp hpe k).mp (hsum p e hp hpe)
  · intro hk p e hp hpe
    exact (prime_pow_dvd_geom_sum_iff h hp hpe k).mpr (hk p e hp hpe)

end Sum

/-! ### The sequence -/

section Sequence

variable {R : Type*} [CommRing R]

/-- One step. -/
def step (a c x : R) : R := x * a + c

/-- How far `k` steps go. -/
theorem iterate_step (a c x : R) (k : ℕ) :
    (step a c)^[k] x = x + (∑ i ∈ range k, a ^ i) * ((a - 1) * x + c) := by
  induction k with
  | zero => simp
  | succ k ih =>
    rw [iterate_succ_apply', ih, geom_sum_succ, step]
    ring

variable {m a c : ℕ} [CharP R m]

theorem isUnit_natCast (h : c.Coprime m) : IsUnit (c : R) := by
  obtain ⟨u, v, huv⟩ := Nat.isCoprime_iff_coprime.mpr h
  refine IsUnit.of_mul_eq_one (u : R) ?_
  have hcast := congrArg (Int.cast : ℤ → R) huv
  push_cast at hcast
  rwa [CharP.cast_eq_zero R m, mul_zero, add_zero, mul_comm] at hcast

variable [NeZero m]

/-- Each prime factor of the modulus divides `a - 1`, so the modulus divides a power of it. -/
theorem isNilpotent_sub_one (h : FullPeriod m a c) : IsNilpotent ((a : R) - 1) := by
  rcases eq_or_ne ((a : ℤ) - 1).natAbs 0 with h0 | h0
  · have hz : (a : ℤ) - 1 = 0 := Int.natAbs_eq_zero.mp h0
    have ha : (a : R) - 1 = 0 := by exact_mod_cast congrArg (Int.cast : ℤ → R) hz
    rw [ha]
    exact IsNilpotent.zero
  · have hsub : m.primeFactors ⊆ ((a : ℤ) - 1).natAbs.primeFactors := by
      intro p hp
      have hprime := Nat.prime_of_mem_primeFactors hp
      have hone := h.prime p hprime (Nat.dvd_of_mem_primeFactors hp)
      exact Nat.mem_primeFactors.mpr
        ⟨hprime, Int.natCast_dvd.mp (natCast_dvd_sub_one hone), h0⟩
    have hdvd := (Nat.dvd_pow_self_iff (NeZero.ne m) h0).mpr hsub
    rw [← Int.natAbs_pow, ← Int.natCast_dvd] at hdvd
    have hzero := (CharP.intCast_eq_zero_iff R m _).mpr hdvd
    exact ⟨m, by exact_mod_cast hzero⟩

/-- The first step is a unit. -/
theorem isUnit_first_step (h : FullPeriod m a c) (x : R) :
    IsUnit (((a : R) - 1) * x + c) := by
  have hnil : IsNilpotent (((a : R) - 1) * x) :=
    (Commute.all _ _).isNilpotent_mul_right (isNilpotent_sub_one h)
  exact hnil.isUnit_add_right_of_commute (isUnit_natCast h.coprime) (Commute.all _ _)

/-- **The sequence comes back after each `m` steps and at no other time.** -/
theorem iterate_step_eq_self_iff (h : FullPeriod m a c) (x : R) (k : ℕ) :
    (step (a : R) c)^[k] x = x ↔ m ∣ k := by
  rw [iterate_step, add_eq_left, (isUnit_first_step h x).mul_left_eq_zero,
    ← dvd_geom_sum_iff h, ← CharP.cast_eq_zero_iff R m]
  push_cast
  rfl

theorem minimalPeriod_step (h : FullPeriod m a c) (x : R) :
    minimalPeriod (step (a : R) c) x = m := by
  apply Nat.dvd_antisymm
  · exact isPeriodicPt_iff_minimalPeriod_dvd.mp ((iterate_step_eq_self_iff h x m).mpr dvd_rfl)
  · exact (iterate_step_eq_self_iff h x _).mp (isPeriodicPt_minimalPeriod _ x)

end Sequence

/-! ### All the way round -/

section Round

variable {α : Type*} [Fintype α] {f : α → α} {x : α}
  (hperiod : minimalPeriod f x = Fintype.card α)

include hperiod

theorem injOn_iterate : Set.InjOn (f^[·] x) (range (Fintype.card α)) := by
  rw [coe_range, ← hperiod]
  exact iterate_injOn_Iio_minimalPeriod

theorem image_iterate [DecidableEq α] :
    (range (Fintype.card α)).image (f^[·] x) = univ := by
  rw [← card_eq_iff_eq_univ, card_image_of_injOn (injOn_iterate hperiod), card_range]

/-- Every point is visited once. -/
theorem visits_once (y : α) : ∃! k, k < Fintype.card α ∧ f^[k] x = y := by
  classical
  have hy : y ∈ (range (Fintype.card α)).image (f^[·] x) := by
    rw [image_iterate hperiod]
    exact mem_univ y
  obtain ⟨k, hk, rfl⟩ := mem_image.mp hy
  refine ⟨k, ⟨mem_range.mp hk, rfl⟩, ?_⟩
  rintro j ⟨hj, heq⟩
  exact injOn_iterate hperiod (mem_coe.mpr (mem_range.mpr hj)) (mem_coe.mpr hk) heq

/-- **A property holds on the way round as often as it holds of points.** -/
theorem card_filter_iterate (P : α → Prop) [DecidablePred P] :
    #{k ∈ range (Fintype.card α) | P (f^[k] x)} = #{y | P y} := by
  classical
  rw [← image_iterate hperiod, filter_image, card_image_of_injOn]
  exact (injOn_iterate hperiod).mono (coe_subset.mpr (filter_subset _ _))

end Round

/-! ### Calls of a generator -/

section Calls

variable {σ β : Type*} (f : σ → β × σ)

/-- Calls of a function that keeps a state: their results, and the state after them. -/
def calls : ℕ → σ → List β × σ
  | 0, s => ([], s)
  | n + 1, s =>
    let call := f s
    let rest := calls n call.2
    (call.1 :: rest.1, rest.2)

/-- What a call does to the state. -/
def advance (s : σ) : σ := (f s).2

theorem calls_snd (n : ℕ) (s : σ) : (calls f n s).2 = (advance f)^[n] s := by
  induction n generalizing s with
  | zero => rfl
  | succ n ih =>
    rw [iterate_succ_apply, ← ih]
    rfl

theorem calls_fst (n : ℕ) (s : σ) :
    (calls f n s).1 = (List.range n).map fun k => (f ((advance f)^[k] s)).1 := by
  induction n generalizing s with
  | zero => rfl
  | succ n ih =>
    rw [List.range_succ_eq_map, List.map_cons, List.map_map]
    change (f s).1 :: (calls f n (advance f s)).1 = _
    rw [ih]
    rfl

theorem count_calls [DecidableEq β] (n : ℕ) (s : σ) (b : β) :
    (calls f n s).1.count b = #{k ∈ range n | (f ((advance f)^[k] s)).1 = b} := by
  rw [← Nat.count_eq_card_filter_range, Nat.count, calls_fst, List.count, List.countP_map]
  exact List.countP_congr fun k _ => by simp

variable [Fintype σ] {f}

/-- **In a full period each result comes as often as there are states with it.** -/
theorem count_calls_of_period [DecidableEq β] {out : σ → β} (hout : ∀ s, (f s).1 = out (f s).2)
    (hperiod : ∀ s, minimalPeriod (advance f) s = Fintype.card σ) (s : σ) (b : β) :
    (calls f (Fintype.card σ) s).1.count b = #{s | out s = b} := by
  rw [count_calls, ← card_filter_iterate (hperiod (advance f s))]
  congr 1
  ext k
  rw [mem_filter, mem_filter, hout, ← iterate_succ_apply, iterate_succ_apply']
  rfl

end Calls

end Congruential
