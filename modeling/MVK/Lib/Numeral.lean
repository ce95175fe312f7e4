import Mathlib.Data.Nat.Digits.Lemmas

/-!
# Positional numerals

The numeral of a natural number in a base: the digits, the most significant first, with
no leading zero, and the one digit `0` for zero.

* `numeral` — the numeral.
* `numeral_of_lt`, `numeral_of_le` — the recursion that peels off the last digit.
* `length_numeral_le`, `lt_of_mem_numeral` — how long it is, and what its digits are.
* `value`, `value_numeral` — **the number that a list of digits stands for**, and that of a
  numeral.
-/

namespace Numeral

/-- The numeral of `n` in base `b`. -/
def numeral (b n : ℕ) : List ℕ := if n = 0 then [0] else (Nat.digits b n).reverse

@[simp] theorem numeral_zero (b : ℕ) : numeral b 0 = [0] := rfl

theorem numeral_of_ne_zero (b : ℕ) {n : ℕ} (hn : n ≠ 0) :
    numeral b n = (Nat.digits b n).reverse := if_neg hn

variable {b : ℕ}

/-- One digit. -/
theorem numeral_of_lt {n : ℕ} (hn : n < b) : numeral b n = [n] := by
  rcases Nat.eq_zero_or_pos n with rfl | hpos
  · rfl
  · rw [numeral_of_ne_zero b hpos.ne', Nat.digits_of_lt b n hpos.ne' hn, List.reverse_singleton]

/-- The last digit, after the numeral of the quotient. -/
theorem numeral_of_le (hb : 1 < b) {n : ℕ} (hn : b ≤ n) :
    numeral b n = numeral b (n / b) ++ [n % b] := by
  have hpos : 0 < n / b := Nat.div_pos hn (by omega)
  rw [numeral_of_ne_zero b (by omega), numeral_of_ne_zero b hpos.ne',
    Nat.digits_def' hb (by omega), List.reverse_cons]

/-- A number below `b ^ k` has at most `k` digits. -/
theorem length_numeral_le (hb : 1 < b) {k : ℕ} (hk : 0 < k) {n : ℕ} (hn : n < b ^ k) :
    (numeral b n).length ≤ k := by
  rcases Nat.eq_zero_or_pos n with rfl | hpos
  · exact hk
  · rw [numeral_of_ne_zero b hpos.ne', List.length_reverse]
    exact (Nat.digits_length_le_iff hb n).mpr hn

theorem length_numeral_pos (b n : ℕ) : 0 < (numeral b n).length := by
  rcases Nat.eq_zero_or_pos n with rfl | hpos
  · exact Nat.one_pos
  · rw [numeral_of_ne_zero b hpos.ne', List.length_reverse]
    exact List.length_pos_iff.mpr (Nat.digits_ne_nil_iff_ne_zero.mpr hpos.ne')

theorem lt_of_mem_numeral (hb : 1 < b) {n d : ℕ} (hd : d ∈ numeral b n) : d < b := by
  rcases Nat.eq_zero_or_pos n with rfl | hpos
  · rw [numeral_zero, List.mem_singleton] at hd
    omega
  · rw [numeral_of_ne_zero b hpos.ne', List.mem_reverse] at hd
    exact Nat.digits_lt_base hb hd

/-- There is no leading zero. -/
theorem head?_numeral_ne_zero (hb : 1 < b) {n : ℕ} (hn : n ≠ 0) :
    (numeral b n).head? ≠ some 0 := by
  induction n using Nat.strong_induction_on with
  | _ n ih =>
    rcases Nat.lt_or_ge n b with hlt | hge
    · rw [numeral_of_lt hlt, List.head?_cons, ne_eq, Option.some_inj]
      exact hn
    · have hquot : n / b ≠ 0 := (Nat.div_pos hge (by omega)).ne'
      have hne : numeral b (n / b) ≠ [] := List.ne_nil_of_length_pos (length_numeral_pos b _)
      rw [numeral_of_le hb hge, List.head?_append_of_ne_nil _ hne]
      exact ih (n / b) (Nat.div_lt_self (by omega) hb) hquot

/-! ### Reading -/

/-- The number that the digits `ds` stand for, the most significant first. -/
def value (b : ℕ) (ds : List ℕ) : ℕ := ds.foldl (fun n d => n * b + d) 0

@[simp] theorem value_append_singleton (b : ℕ) (ds : List ℕ) (d : ℕ) :
    value b (ds ++ [d]) = value b ds * b + d := by
  rw [value, List.foldl_append]
  rfl

/-- **Reading undoes writing.** -/
theorem value_numeral (hb : 1 < b) (n : ℕ) : value b (numeral b n) = n := by
  induction n using Nat.strong_induction_on with
  | _ n ih =>
    rcases Nat.lt_or_ge n b with hlt | hge
    · rw [numeral_of_lt hlt, ← List.nil_append [n], value_append_singleton, value, List.foldl_nil,
        Nat.zero_mul, Nat.zero_add]
    · rw [numeral_of_le hb hge, value_append_singleton, ih (n / b) (Nat.div_lt_self (by omega) hb),
        Nat.div_add_mod']

end Numeral
