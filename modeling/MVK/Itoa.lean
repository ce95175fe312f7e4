import Mathlib.Tactic.IntervalCases
import MVK.Lib.Numeral
import MVK.Word

/-!
# Writing a number into a buffer

`itoa`, and the two copies of it that `printf` keeps: the digits are written from the
last one on, then reversed in place.  A buffer is the list of its bytes; a pointer into it
is the number of bytes before it, and an access outside it gives `none`.

The three functions share their two loops.  The first divides a 32-bit number down to
zero, so 32 rounds of it are enough in any base from 2 on.

## Main definitions

* `writeDigits`, `reverseDigits` — the two loops.
* `uitoa`, `pitoa`, `itoa` — `_uitoa`, `_pitoa` and `itoa`.
* `readNumber` — reading a numeral back.

## Main results

* `writeNumber_eq` — **the buffer holds the numeral, then NUL.**
* `uitoa_eq`, `itoa_eq_uitoa`, `itoa_of_neg` — what the functions leave in the buffer.
* `number_formatting` — **what they write can be read back, and they agree.**
-/

namespace MVK

open Numeral

/-- `(remainder < 10) ? remainder + '0' : remainder + 'a' - 10`, as a `char`. -/
def digitChar (remainder : Word) : Byte :=
  if remainder.slt 10 then (remainder + 48).setWidth 8 else (remainder + 97 - 10).setWidth 8

/-- The first loop, at `p`: `*p++ =` the last digit, while `ud /= divisor`.  It gives where
`p` ends. -/
def writeDigits (divisor : Word) : ℕ → Word → ℕ → List Byte → Option (ℕ × List Byte)
  | 0, _, _, _ => none
  | fuel + 1, ud, p, str =>
    let remainder := ud % divisor
    if p < str.length then
      let str := str.set p (digitChar remainder)
      let ud := ud / divisor
      if ud = 0 then some (p + 1, str) else writeDigits divisor fuel ud (p + 1) str
    else none

/-- The second loop: the bytes at `p1` and `p2` are swapped until the two meet. -/
def reverseDigits : ℕ → ℕ → ℕ → List Byte → Option (List Byte)
  | 0, _, _, _ => none
  | fuel + 1, p1, p2, str =>
    if p1 < p2 then do
      let tmp ← str[p1]?
      let last ← str[p2]?
      reverseDigits fuel (p1 + 1) (p2 - 1) ((str.set p1 last).set p2 tmp)
    else some str

/-- What the three functions do from `str` on: the digits, `*p = 0`, and the reversal. -/
def writeNumber (divisor ud : Word) (start : ℕ) (str : List Byte) : Option (List Byte) := do
  let (p, str) ← writeDigits divisor 32 ud start str
  if p < str.length then
    reverseDigits 32 start (p - 1) (str.set p 0)
  else none

/-- `_uitoa`. -/
def uitoa (value : Word) (str : List Byte) (base : Word) : Option (List Byte) :=
  writeNumber base value 0 str

/-- `_pitoa`. -/
def pitoa (value : Word) (str : List Byte) : Option (List Byte) :=
  writeNumber 16 value 0 str

/-- `itoa`.  A sign takes the first byte, and `str` moves past it. -/
def itoa (value : Word) (str : List Byte) (base : Word) : Option (List Byte) :=
  if base = 10 ∧ value.slt 0 then
    if 0 < str.length then writeNumber base (-value) 1 (str.set 0 45) else none
  else writeNumber base value 0 str

/-! ### The loop that writes the digits -/

/-- The characters of a list of digits. -/
def digitChars (ds : List ℕ) : List Byte := ds.map fun d => digitChar (BitVec.ofNat 32 d)

@[simp] theorem digitChars_append (ds es : List ℕ) :
    digitChars (ds ++ es) = digitChars ds ++ digitChars es := List.map_append

@[simp] theorem length_digitChars (ds : List ℕ) : (digitChars ds).length = ds.length :=
  List.length_map _

theorem digitChars_mod (ud divisor : Word) :
    digitChars [ud.toNat % divisor.toNat] = [digitChar (ud % divisor)] := by
  rw [digitChars, List.map_singleton, ← BitVec.toNat_umod, BitVec.ofNat_toNat,
    BitVec.setWidth_eq]

/-- Storing at the end of a prefix. -/
theorem set_append_length {α : Type} (pre : List α) (a b : α) (post : List α) :
    (pre ++ a :: post).set pre.length b = pre ++ b :: post := by
  rw [List.set_append_right _ _ le_rfl, Nat.sub_self, List.set_cons_zero]

/-- The round that writes the first digit of the numeral ends the loop. -/
theorem writeDigits_last {divisor ud : Word} (hlt : ud.toNat < divisor.toNat)
    (pre : List Byte) (a : Byte) (old : List Byte) (fuel : ℕ) :
    writeDigits divisor (fuel + 1) ud pre.length (pre ++ a :: old) =
      some (pre.length + 1, pre ++ digitChar ud :: old) := by
  have hrem : ud % divisor = ud := BitVec.umod_eq_of_lt hlt
  have hquot : ud / divisor = 0 := BitVec.eq_of_toNat_eq (by
    rw [BitVec.toNat_udiv, Nat.div_eq_of_lt hlt, toNat_zero_word])
  rw [writeDigits, if_pos (by simp), if_pos hquot, hrem, set_append_length]

/-- Any other round writes the last digit, and goes on with the quotient. -/
theorem writeDigits_next {divisor ud : Word} (hd : 0 < divisor.toNat)
    (hge : divisor.toNat ≤ ud.toNat) (pre : List Byte) (a : Byte) (old : List Byte) (fuel : ℕ) :
    writeDigits divisor (fuel + 1) ud pre.length (pre ++ a :: old) =
      writeDigits divisor fuel (ud / divisor) (pre ++ [digitChar (ud % divisor)]).length
        (pre ++ [digitChar (ud % divisor)] ++ old) := by
  have hquot : ud / divisor ≠ 0 := by
    intro h
    have hzero := congrArg BitVec.toNat h
    rw [BitVec.toNat_udiv] at hzero
    exact absurd hzero (Nat.div_pos hge hd).ne'
  rw [writeDigits, if_pos (by simp), if_neg hquot, set_append_length, List.length_append,
    List.length_singleton, List.append_assoc, List.singleton_append]

/-- The loop leaves the digits in reverse, over as many bytes of what was there. -/
theorem writeDigits_eq {divisor : Word} (hd : 1 < divisor.toNat) (fuel : ℕ) :
    ∀ (ud : Word) (pre old : List Byte), ud.toNat < 2 ^ (fuel + 1) →
      (numeral divisor.toNat ud.toNat).length ≤ old.length →
      writeDigits divisor (fuel + 1) ud pre.length (pre ++ old) =
        some (pre.length + (numeral divisor.toNat ud.toNat).length,
          pre ++ ((digitChars (numeral divisor.toNat ud.toNat)).reverse ++
            old.drop (numeral divisor.toNat ud.toNat).length)) := by
  induction fuel with
  | zero =>
    intro ud pre old hud hlen
    have hlt : ud.toNat < divisor.toNat := by omega
    rw [numeral_of_lt hlt] at hlen ⊢
    obtain ⟨a, old, rfl⟩ := List.exists_cons_of_length_pos hlen
    simpa [digitChars] using writeDigits_last hlt pre a old 0
  | succ fuel ih =>
    intro ud pre old hud hlen
    rcases Nat.lt_or_ge ud.toNat divisor.toNat with hlt | hge
    · rw [numeral_of_lt hlt] at hlen ⊢
      obtain ⟨a, old, rfl⟩ := List.exists_cons_of_length_pos hlen
      simpa [digitChars] using writeDigits_last hlt pre a old (fuel + 1)
    · rw [numeral_of_le hd hge, List.length_append, List.length_singleton] at hlen ⊢
      obtain ⟨a, old, rfl⟩ := List.exists_cons_of_length_pos (by omega : 0 < old.length)
      have hquot : (ud / divisor).toNat < 2 ^ (fuel + 1) := by
        rw [BitVec.toNat_udiv]
        refine Nat.div_lt_of_lt_mul (hud.trans_le ?_)
        rw [pow_succ' 2 (fuel + 1)]
        exact Nat.mul_le_mul_right _ hd
      have hnext := ih (ud / divisor) (pre ++ [digitChar (ud % divisor)]) old hquot
        (by rw [BitVec.toNat_udiv]; simpa using hlen)
      rw [BitVec.toNat_udiv] at hnext
      rw [writeDigits_next (by omega) hge, hnext, digitChars_append, digitChars_mod,
        List.reverse_append, List.drop_succ_cons, List.length_append, List.length_singleton,
        List.append_assoc, List.reverse_singleton, List.append_assoc, Nat.add_assoc,
        Nat.add_comm 1]

/-! ### The loop that reverses them -/

/-- The loop reverses what lies from `p1` to `p2`. -/
theorem reverseDigits_eq {fuel : ℕ} :
    ∀ {p1 p2 : ℕ} {pre mid post : List Byte}, p1 = pre.length →
      p2 + 1 = pre.length + mid.length → mid.length < 2 * fuel →
      reverseDigits fuel p1 p2 (pre ++ mid ++ post) = some (pre ++ mid.reverse ++ post) := by
  induction fuel with
  | zero => intro _ _ _ _ _ _ _ hlen; omega
  | succ fuel ih =>
    intro p1 p2 pre mid post hp1 hp2 hlen
    rw [reverseDigits]
    rcases Nat.lt_or_ge p1 p2 with hlt | hge
    · -- two bytes at least: the outermost two change places
      obtain ⟨tmp, mid, rfl⟩ := List.exists_cons_of_length_pos (by omega : 0 < mid.length)
      rcases List.eq_nil_or_concat mid with rfl | ⟨mid, last, rfl⟩
      · simp at hp2; omega
      rw [List.concat_eq_append] at hp2 hlen ⊢
      have hp2 : p2 = (pre ++ tmp :: mid).length := by simp at hp2 ⊢; omega
      have hfirst : (pre ++ tmp :: (mid ++ [last]) ++ post)[p1]? = some tmp := by
        simp [hp1]
      have hlast : (pre ++ tmp :: (mid ++ [last]) ++ post)[p2]? = some last := by
        simp [hp2]
      have hswap : ((pre ++ tmp :: (mid ++ [last]) ++ post).set p1 last).set p2 tmp =
          (pre ++ [last]) ++ mid ++ (tmp :: post) := by
        calc ((pre ++ tmp :: (mid ++ [last]) ++ post).set p1 last).set p2 tmp
            = ((pre ++ last :: mid) ++ last :: post).set (pre ++ last :: mid).length tmp := by
              rw [hp1, List.append_assoc, List.cons_append, set_append_length, hp2]
              simp
          _ = (pre ++ last :: mid) ++ tmp :: post := set_append_length _ _ _ _
          _ = (pre ++ [last]) ++ mid ++ (tmp :: post) := by simp
      rw [if_pos hlt, hfirst, hlast, Option.bind_eq_bind, Option.bind_some, Option.bind_some,
        hswap, ih (by simp [hp1]) (by simp [hp2]; omega) (by simp at hlen; omega)]
      simp
    · have hmid : mid.reverse = mid := by
        rcases mid with _ | ⟨a, _ | ⟨b, mid⟩⟩
        · rfl
        · rfl
        · simp at hp2; omega
      rw [if_neg (by omega), hmid]

/-! ### The whole number -/

/-- A 32-bit number has at most 32 digits. -/
theorem length_numeral_word {b : ℕ} (hb : 1 < b) (value : Word) :
    (numeral b value.toNat).length ≤ 32 :=
  length_numeral_le hb (by decide) (value.isLt.trans_le (Nat.pow_le_pow_left hb 32))

/-- From `start` on the buffer holds the numeral, then NUL; the rest of it is as before. -/
theorem writeNumber_eq {divisor : Word} (hd : 1 < divisor.toNat) (ud : Word)
    (pre old : List Byte) (hlen : (numeral divisor.toNat ud.toNat).length < old.length) :
    writeNumber divisor ud pre.length (pre ++ old) =
      some (pre ++ digitChars (numeral divisor.toNat ud.toNat) ++
        0 :: old.drop ((numeral divisor.toNat ud.toNat).length + 1)) := by
  obtain ⟨ds, hds⟩ : ∃ ds, ds = numeral divisor.toNat ud.toNat := ⟨_, rfl⟩
  have hbits : ds.length ≤ 32 := hds ▸ length_numeral_word hd ud
  have hpos : 0 < ds.length := hds ▸ length_numeral_pos _ _
  rw [← hds] at hlen ⊢
  have hwrite := writeDigits_eq hd 31 ud pre old ud.isLt (by rw [← hds]; omega)
  rw [← hds] at hwrite
  -- the NUL goes where the digits end
  have hrest : old.drop ds.length = old[ds.length] :: old.drop (ds.length + 1) :=
    List.drop_eq_getElem_cons hlen
  have hnul : (pre ++ ((digitChars ds).reverse ++ old.drop ds.length)).set
      (pre.length + ds.length) 0 =
        pre ++ (digitChars ds).reverse ++ 0 :: old.drop (ds.length + 1) := by
    rw [hrest, ← List.append_assoc,
      show pre.length + ds.length = (pre ++ (digitChars ds).reverse).length by simp,
      set_append_length]
  rw [writeNumber, hwrite, Option.bind_eq_bind, Option.bind_some]
  dsimp only
  rw [if_pos (by simp; omega), hnul,
    reverseDigits_eq rfl (by simp; omega) (by simp; omega), List.reverse_reverse]

/-! ### The three functions -/

theorem uitoa_eq {base : Word} (hbase : 1 < base.toNat) (value : Word) {str : List Byte}
    (hstr : 32 < str.length) :
    uitoa value str base =
      some (digitChars (numeral base.toNat value.toNat) ++
        0 :: str.drop ((numeral base.toNat value.toNat).length + 1)) :=
  writeNumber_eq hbase value [] str ((length_numeral_word hbase value).trans_lt hstr)

theorem pitoa_eq_uitoa (value : Word) (str : List Byte) :
    pitoa value str = uitoa value str 16 := rfl

theorem itoa_eq_uitoa {value base : Word} (h : ¬ (base = 10 ∧ value.slt 0)) (str : List Byte) :
    itoa value str base = uitoa value str base := if_neg h

/-- A negative number: the sign, then the numeral of its negation. -/
theorem itoa_of_neg {value : Word} (hneg : value.slt 0) {str : List Byte}
    (hstr : 33 < str.length) :
    itoa value str 10 =
      some (45 :: digitChars (numeral 10 (-value).toNat) ++
        0 :: str.drop ((numeral 10 (-value).toNat).length + 2)) := by
  obtain ⟨a, old, rfl⟩ := List.exists_cons_of_length_pos (by omega : 0 < str.length)
  have hten : 1 < (10 : Word).toNat := by decide
  have hlen : (numeral (10 : Word).toNat (-value).toNat).length < old.length := by
    have hword := length_numeral_word hten (-value)
    rw [List.length_cons] at hstr
    omega
  rw [itoa, if_pos ⟨rfl, hneg⟩, if_pos (by simp), List.set_cons_zero]
  exact writeNumber_eq hten (-value) [45] old hlen

/-! ### Reading a number back -/

/-- The value of a digit `0` to `9` or `a` to `z`. -/
def digitValue (c : Byte) : Option ℕ :=
  if 48 ≤ c.toNat ∧ c.toNat ≤ 57 then some (c.toNat - 48)
  else if 97 ≤ c.toNat ∧ c.toNat ≤ 122 then some (c.toNat - 97 + 10)
  else none

/-- The number that a NUL-terminated numeral in base `b` stands for. -/
def readNumber (b : ℕ) (str : List Byte) : Option ℕ := do
  let ds ← (str.takeWhile (· ≠ 0)).mapM digitValue
  if 0 ∈ str ∧ ds ≠ [] ∧ ∀ d ∈ ds, d < b then some (value b ds) else none

theorem digitValue_digitChar {d : ℕ} (hd : d < 36) :
    digitValue (digitChar (BitVec.ofNat 32 d)) = some d := by
  interval_cases d <;> rfl

theorem digitChar_ne_zero {d : ℕ} (hd : d < 36) : digitChar (BitVec.ofNat 32 d) ≠ 0 := by
  interval_cases d <;> decide

/-- Only the digit `0` is written as `'0'`. -/
theorem eq_zero_of_digitChar {d : ℕ} (hd : d < 36) (h : digitChar (BitVec.ofNat 32 d) = 48) :
    d = 0 := by
  have hvalue := digitValue_digitChar hd
  rw [h] at hvalue
  exact (Option.some.inj hvalue).symm

theorem zero_notMem_digitChars {b : ℕ} (hb : 1 < b) (hb' : b ≤ 36) (n : ℕ) :
    0 ∉ digitChars (numeral b n) := by
  intro h
  obtain ⟨d, hd, hzero⟩ := List.mem_map.mp h
  exact digitChar_ne_zero ((lt_of_mem_numeral hb hd).trans_le hb') hzero

theorem mapM_digitValue {ds : List ℕ} (h : ∀ d ∈ ds, d < 36) :
    (digitChars ds).mapM digitValue = some ds := by
  induction ds with
  | nil => rfl
  | cons d ds ih =>
    obtain ⟨hd, hds⟩ := List.forall_mem_cons.mp h
    rw [digitChars, List.map_cons, List.mapM_cons, digitValue_digitChar hd, Option.bind_eq_bind,
      Option.bind_some, ← digitChars, ih hds]
    rfl

/-- The text of a string ends at its NUL. -/
theorem takeWhile_text {text : List Byte} (h : 0 ∉ text) (rest : List Byte) :
    (text ++ 0 :: rest).takeWhile (· ≠ 0) = text := by
  rw [List.takeWhile_append_of_pos, List.takeWhile_cons_of_neg (by simp), List.append_nil]
  intro c hc
  exact decide_eq_true fun h0 => h (h0 ▸ hc)

/-- A numeral reads as its number. -/
theorem readNumber_numeral {b : ℕ} (hb : 1 < b) (hb' : b ≤ 36) (n : ℕ) (rest : List Byte) :
    readNumber b (digitChars (numeral b n) ++ 0 :: rest) = some n := by
  have hdigits : ∀ d ∈ numeral b n, d < 36 := fun d hd => (lt_of_mem_numeral hb hd).trans_le hb'
  have hne : numeral b n ≠ [] := List.ne_nil_of_length_pos (length_numeral_pos b n)
  rw [readNumber, takeWhile_text (zero_notMem_digitChars hb hb' n), mapM_digitValue hdigits,
    Option.bind_eq_bind, Option.bind_some, if_pos ⟨by simp, hne, fun d => lt_of_mem_numeral hb⟩,
    value_numeral hb]

/-- A numeral that starts with `'0'` is `"0"`. -/
theorem digitChars_of_head {b : ℕ} (hb : 1 < b) (hb' : b ≤ 36) {n : ℕ}
    (h : (digitChars (numeral b n)).head? = some 48) : digitChars (numeral b n) = [48] := by
  by_cases hn : n = 0
  · rw [hn]
    rfl
  · rw [digitChars, List.head?_map, Option.map_eq_some_iff] at h
    obtain ⟨d, hd, hchar⟩ := h
    have hlt := (lt_of_mem_numeral hb (List.mem_of_head? hd)).trans_le hb'
    rw [eq_zero_of_digitChar hlt hchar] at hd
    exact absurd hd (head?_numeral_ne_zero hb hn)

/-- A negative number in decimal: the sign, then what `_uitoa` writes for its negation. -/
theorem itoa_eq_sign {value : Word} (hneg : value.slt 0) {str : List Byte}
    (hstr : 12 ≤ str.length) :
    itoa value str 10 = (uitoa (-value) str.tail 10).map (45 :: ·) := by
  obtain ⟨a, old, rfl⟩ := List.exists_cons_of_length_pos (by omega : 0 < str.length)
  have hten : 1 < (10 : Word).toNat := by decide
  have hlen : (numeral (10 : Word).toNat (-value).toNat).length < old.length := by
    have hdecimal := length_numeral_le (by decide : 1 < 10) (by decide : 0 < 10)
      ((-value).isLt.trans_le (by decide : 2 ^ 32 ≤ 10 ^ 10))
    change (numeral 10 (-value).toNat).length < _
    rw [List.length_cons] at hstr
    omega
  have hsigned := writeNumber_eq hten (-value) [45] old hlen
  have hunsigned := writeNumber_eq hten (-value) [] old hlen
  rw [itoa, if_pos ⟨rfl, hneg⟩, if_pos (by simp), List.set_cons_zero]
  exact hsigned.trans (congrArg (Option.map (45 :: ·)) hunsigned).symm

/-- **Number formatting can be undone, and its three copies agree.** -/
theorem number_formatting {b : Word} (hb : 2 ≤ b.toNat) (hb' : b.toNat ≤ 36) (v : Word)
    {buf : List Byte} (hbuf : 33 ≤ buf.length) :
    (∃ text rest, uitoa v buf b = some (text ++ 0 :: rest) ∧
      readNumber b.toNat (text ++ 0 :: rest) = some v.toNat ∧
      0 ∉ text ∧ (text.head? = some 48 → text = [48]) ∧
      text.length + 1 ≤ 33 ∧ rest = buf.drop (text.length + 1)) ∧
    (0 ≤ v.toInt ∨ b ≠ 10 → itoa v buf b = uitoa v buf b) ∧
    (v.toInt < 0 → itoa v buf 10 = (uitoa (-v) buf.tail 10).map (45 :: ·)) ∧
    pitoa v buf = uitoa v buf 16 := by
  have hlen := length_numeral_word hb v
  refine ⟨⟨_, _, uitoa_eq hb v hbuf, readNumber_numeral hb hb' _ _,
    zero_notMem_digitChars hb hb' _, digitChars_of_head hb hb', ?_, ?_⟩, ?_, ?_,
    pitoa_eq_uitoa v buf⟩
  · rw [length_digitChars]
    omega
  · rw [length_digitChars]
  · intro h
    refine itoa_eq_uitoa ?_ buf
    rintro ⟨hten, hneg⟩
    have hnat := BitVec.slt_iff_toInt_lt.mp hneg
    rcases h with hpos | hne
    · exact absurd hnat (not_lt.mpr hpos)
    · exact hne hten
  · intro hneg
    exact itoa_eq_sign (BitVec.slt_iff_toInt_lt.mpr hneg) (by omega)

theorem number_formatting_sample :
    (∃ text rest, uitoa 0xCAFE (List.replicate 33 0xAA) 36 = some (text ++ 0 :: rest) ∧
      readNumber 36 (text ++ 0 :: rest) = some 0xCAFE) ∧
    itoa 0x80000000 (List.replicate 33 0xAA) 10 =
      (uitoa 0x80000000 (List.replicate 32 0xAA) 10).map (45 :: ·) := by
  obtain ⟨⟨text, rest, hwrite, hread, -⟩, -⟩ :=
    @number_formatting 36 (by decide) (by decide) 0xCAFE (List.replicate 33 0xAA) (by decide)
  obtain ⟨-, -, hsign, -⟩ :=
    @number_formatting 10 (by decide) (by decide) 0x80000000 (List.replicate 33 0xAA) (by decide)
  exact ⟨⟨text, rest, hwrite, hread⟩, hsign (by decide)⟩

end MVK
