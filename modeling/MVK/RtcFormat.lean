import MVK.Rtc

/-!
# The register formats of the clock

Status register B says how the other registers hold the time: in binary or in two BCD
digits, with hours to 24 or to 12 and a PM flag in bit 7.  `read_rtc` is to undo all four
formats; it does but for the two hours that a 12-hour clock writes as 12, where it adds
twelve to a number that is twelve already.

## Main definitions

* `DateTime` — a date and time, and the `rtc_state` of it.
* `digits`, `hourRegister`, `ShowsTime` — how the registers hold it.

## Main results

* `decode_of_shows` — what `read_rtc` makes of the registers: noon and midnight swapped.
* `read_rtc_decodes_iff` — **it reads the time unless the hour is a 12 of a 12-hour clock.**
-/

namespace MVK

/-! ### Times and their registers -/

/-- A date and time.  The hour is one of the day; of the other fields only their two digits
matter, and four for the year. -/
structure DateTime where
  second : ℕ
  minute : ℕ
  hour : ℕ
  day : ℕ
  month : ℕ
  year : ℕ
  second_lt : second < 100
  minute_lt : minute < 100
  hour_lt : hour < 24
  day_lt : day < 100
  month_lt : month < 100
  year_lt : year < 10000

/-- The `rtc_state` of a time. -/
def DateTime.state (t : DateTime) : RtcState where
  second := BitVec.ofNat 8 t.second
  minute := BitVec.ofNat 8 t.minute
  hour := BitVec.ofNat 8 t.hour
  day := BitVec.ofNat 8 t.day
  month := BitVec.ofNat 8 t.month
  year := BitVec.ofNat 16 t.year

/-- Register B selects binary numbers, else they are BCD. -/
abbrev Binary (registerB : BitVec 8) : Prop := registerB &&& 0x04 ≠ 0

/-- Register B selects hours to 24, else to 12. -/
abbrev Hours24 (registerB : BitVec 8) : Prop := registerB &&& 0x02 ≠ 0

/-- The two digits of a number, in four bits each. -/
def bcd (n : ℕ) : ℕ := n / 10 * 16 + n % 10

/-- A register that holds `n`. -/
def digits (registerB : BitVec 8) (n : ℕ) : BitVec 8 :=
  BitVec.ofNat 8 (if Binary registerB then n else bcd n)

/-- The hour on a 12-hour clock: midnight is 12 AM, noon is 12 PM. -/
def hour12 (h : ℕ) : ℕ := if h % 12 = 0 then 12 else h % 12

/-- The hour register, with the PM flag when the clock is a 12-hour one. -/
def hourRegister (registerB : BitVec 8) (h : ℕ) : BitVec 8 :=
  if Hours24 registerB then digits registerB h
  else digits registerB (hour12 h) ||| (if 12 ≤ h then 0x80 else 0x00)

/-- All reads return the registers that hold `t` in the format of `registerB`. -/
structure ShowsTime (cmos : Cmos) (registerB : BitVec 8) (t : DateTime) : Prop where
  second : getRtcRegister cmos 0x00 = digits registerB t.second
  minute : getRtcRegister cmos 0x02 = digits registerB t.minute
  hour : getRtcRegister cmos 0x04 = hourRegister registerB t.hour
  day : getRtcRegister cmos 0x07 = digits registerB t.day
  month : getRtcRegister cmos 0x08 = digits registerB t.month
  year : getRtcRegister cmos 0x09 = digits registerB (t.year % 100)
  century : getRtcRegister cmos 0x32 = digits registerB (t.year / 100)
  status : getRtcRegister cmos 0x0B = registerB

/-! ### Decoding field by field -/

/-- What `decode` makes of a register that holds two digits. -/
def readDigits {w : ℕ} (registerB : BitVec 8) (x : BitVec w) : BitVec w :=
  if Binary registerB then x else fromBcd x

/-- What `decode` makes of the hour register. -/
def readHour (registerB : BitVec 8) (x : BitVec 8) : BitVec 8 :=
  let hour := if Binary registerB then x
    else ((x &&& 0x0F) + (x &&& 0x70) / 16 * 10) ||| (x &&& 0x80)
  if Hours24 registerB ∨ hour &&& 0x80 = 0 then hour else ((hour &&& 0x7F) + 12) % 24

theorem decode_eq (registerB : BitVec 8) (s : RtcState) (century : BitVec 8) :
    decode registerB s century =
      { second := readDigits registerB s.second
        minute := readDigits registerB s.minute
        hour := readHour registerB s.hour
        day := readDigits registerB s.day
        month := readDigits registerB s.month
        year := readDigits registerB s.year +
          (readDigits registerB century).setWidth 16 * 100 } := by
  have hflag : ∀ hour : BitVec 8, (registerB &&& 0x02 = 0 ∧ hour &&& 0x80 ≠ 0) ↔
      ¬ (Hours24 registerB ∨ hour &&& 0x80 = 0) := by
    intro hour
    rw [not_or, Hours24, not_not]
  rcases Decidable.em (registerB &&& 0x04 = 0) with hb | hb
  · simp only [decode, readDigits, readHour, Binary, hb, hflag, ite_not, ne_eq, not_true_eq_false,
      if_true, if_false]
  · simp only [decode, readDigits, readHour, Binary, hb, hflag, ite_not, ne_eq, not_false_eq_true,
      if_true, if_false]

theorem toNat_ofNat_byte {w k : ℕ} (hw : 8 ≤ w) (hk : k < 256) : (BitVec.ofNat w k).toNat = k := by
  have hpow : 2 ^ 8 ≤ 2 ^ w := Nat.pow_le_pow_right (by omega) hw
  rw [BitVec.toNat_ofNat, Nat.mod_eq_of_lt (by omega)]

theorem bcd_lt {n : ℕ} (hn : n < 100) : bcd n < 256 := by
  unfold bcd
  omega

/-- Two BCD digits are read back, in 8 bits and in 16. -/
theorem fromBcd_bcd {w n : ℕ} (hw : 8 ≤ w) (hn : n < 100) :
    fromBcd (BitVec.ofNat w (bcd n)) = BitVec.ofNat w n := by
  have hpow : 2 ^ 8 ≤ 2 ^ w := Nat.pow_le_pow_right (by omega) hw
  have hnum := toNat_ofNat_byte hw (bcd_lt hn)
  have hlow : (BitVec.ofNat w (bcd n) &&& BitVec.ofNat w 15).toNat = n % 10 := by
    rw [BitVec.toNat_and, hnum, toNat_ofNat_byte hw (by omega), show 15 = 2 ^ 4 - 1 from rfl,
      Nat.and_two_pow_sub_one_eq_mod, bcd]
    omega
  have hhigh : (BitVec.ofNat w (bcd n) / BitVec.ofNat w 16 * BitVec.ofNat w 10).toNat =
      n / 10 * 10 := by
    have hdiv : bcd n / 16 = n / 10 := by
      unfold bcd
      omega
    rw [BitVec.toNat_mul, BitVec.toNat_udiv, hnum, toNat_ofNat_byte hw (by omega),
      toNat_ofNat_byte hw (by omega), hdiv, Nat.mod_eq_of_lt (by omega)]
  apply BitVec.eq_of_toNat_eq
  rw [fromBcd, BitVec.toNat_add, BitVec.toNat_ofNat]
  change ((BitVec.ofNat w (bcd n) &&& BitVec.ofNat w 15).toNat +
    (BitVec.ofNat w (bcd n) / BitVec.ofNat w 16 * BitVec.ofNat w 10).toNat) % 2 ^ w = n % 2 ^ w
  rw [hlow, hhigh]
  congr 1
  omega

theorem readDigits_digits {registerB : BitVec 8} {n : ℕ} (hn : n < 100) :
    readDigits registerB (digits registerB n) = BitVec.ofNat 8 n := by
  unfold readDigits digits
  split
  · rfl
  · exact fromBcd_bcd le_rfl hn

/-- The year is read into 16 bits before its digits are. -/
theorem readDigits_year {registerB : BitVec 8} {n : ℕ} (hn : n < 100) :
    readDigits registerB ((digits registerB n).setWidth 16) = BitVec.ofNat 16 n := by
  have hwide : ∀ k : ℕ, k < 256 → (BitVec.ofNat 8 k).setWidth 16 = BitVec.ofNat 16 k := by
    intro k hk
    apply BitVec.eq_of_toNat_eq
    rw [BitVec.toNat_setWidth, BitVec.toNat_ofNat, BitVec.toNat_ofNat]
    omega
  unfold readDigits digits
  split
  · exact hwide n (by omega)
  · rw [hwide _ (bcd_lt hn), fromBcd_bcd (by omega) hn]

/-- The hour that `read_rtc` finds: the two 12s of a 12-hour clock are swapped. -/
def foundHour (registerB : BitVec 8) (h : ℕ) : ℕ :=
  if Hours24 registerB ∨ h % 12 ≠ 0 then h else (h + 12) % 24

theorem readHour_hourRegister {registerB : BitVec 8} {h : ℕ} (hh : h < 24) :
    readHour registerB (hourRegister registerB h) = BitVec.ofNat 8 (foundHour registerB h) := by
  -- four formats, and in each of them the hours of a day
  unfold readHour hourRegister digits foundHour
  rcases Decidable.em (Binary registerB) with hb | hb
  · rcases Decidable.em (Hours24 registerB) with h24 | h24
    · simp only [if_pos hb, if_pos h24, if_pos (Or.inl h24)]
    · simp only [if_pos hb, if_neg h24, or_iff_right h24]
      revert h
      decide
  · rcases Decidable.em (Hours24 registerB) with h24 | h24
    · simp only [if_neg hb, if_pos h24, if_pos (Or.inl h24)]
      revert h
      decide
    · simp only [if_neg hb, if_neg h24, or_iff_right h24]
      revert h
      decide

/-! ### Noon and midnight -/

theorem foundHour_eq_iff {registerB : BitVec 8} {h : ℕ} :
    BitVec.ofNat 8 (foundHour registerB h) = BitVec.ofNat 8 h ↔
      Hours24 registerB ∨ h % 12 ≠ 0 := by
  unfold foundHour
  split
  · next hcond => exact iff_of_true rfl hcond
  · next hcond =>
    refine iff_of_false (fun heq => ?_) hcond
    have hnat := congrArg BitVec.toNat heq
    rw [BitVec.toNat_ofNat, BitVec.toNat_ofNat] at hnat
    omega

/-- **What `read_rtc` makes of the registers**: the time, with noon and midnight swapped
when the clock is a 12-hour one. -/
theorem decode_of_shows {cmos : Cmos} {registerB : BitVec 8} {t : DateTime}
    (h : ShowsTime cmos registerB t) :
    decode registerB (readPass cmos).1 (readPass cmos).2 =
      { t.state with hour := BitVec.ofNat 8 (foundHour registerB t.hour) } := by
  have hlt := t.year_lt
  rw [decode_eq, readPass]
  simp only [h.second, h.minute, h.hour, h.day, h.month, h.year, h.century,
    readDigits_digits t.second_lt, readDigits_digits t.minute_lt, readHour_hourRegister t.hour_lt,
    readDigits_digits t.day_lt, readDigits_digits t.month_lt]
  rw [readDigits_year (Nat.mod_lt _ (by omega)),
    readDigits_digits (show t.year / 100 < 100 by omega)]
  have hyear : BitVec.ofNat 16 (t.year % 100) +
      (BitVec.ofNat 8 (t.year / 100)).setWidth 16 * 100 = BitVec.ofNat 16 t.year := by
    have hcentury : t.year / 100 % 2 ^ 8 = t.year / 100 := Nat.mod_eq_of_lt (by omega)
    apply BitVec.eq_of_toNat_eq
    simp only [BitVec.toNat_add, BitVec.toNat_mul, BitVec.toNat_setWidth, BitVec.toNat_ofNat,
      BitVec.ofNat_eq_ofNat, hcentury]
    omega
  rw [hyear]
  rfl

/-- A clock that shows one time is read in the first pass of the loop. -/
theorem readRtc_of_shows {clock : ℕ → Cmos} {registerB : BitVec 8} {t : DateTime}
    (h : ∀ pass, ShowsTime (clock pass) registerB t) (fuel : ℕ) :
    readRtc clock (fuel + 1) =
      some (1, { t.state with hour := BitVec.ofNat 8 (foundHour registerB t.hour) }) := by
  have hagree : AgreeSomewhere (clock 0) (clock 1) :=
    ⟨0x00, List.mem_cons_self, (h 0).second.trans (h 1).second.symm⟩
  have hloop : readLoop clock (fuel + 1) 1 (readPass (clock 0)) =
      some (1, readPass (clock 1)) :=
    readLoop_eq_some_iff.mpr ⟨le_rfl, by omega, rfl, hagree, fun _ _ hj => absurd hj (by omega)⟩
  rw [readRtc_eq_some_iff]
  exact ⟨_, hloop, by rw [(h 2).status, decode_of_shows (h 1)]⟩

/-- **When `read_rtc` reads the time.**  On a clock that shows a date and time in the format
that its register B selects, `read_rtc` returns; and it stores that time exactly when the
clock is a 24-hour one or the hour is neither 12 AM nor 12 PM. -/
theorem read_rtc_decodes_iff {clock : ℕ → Cmos} {registerB : BitVec 8} {t : DateTime}
    (h : ∀ pass, ShowsTime (clock pass) registerB t) (fuel : ℕ) :
    ∃ state, readRtc clock (fuel + 1) = some (1, state) ∧
      (state = t.state ↔ Hours24 registerB ∨ t.hour % 12 ≠ 0) := by
  refine ⟨_, readRtc_of_shows h fuel, ?_⟩
  rw [← foundHour_eq_iff, RtcState.ext_iff]
  simp [DateTime.state]

/-- 12:30:00 of 1 June 2024. -/
def noon : DateTime :=
  ⟨0, 30, 12, 1, 6, 2024, by decide, by decide, by decide, by decide, by decide, by decide⟩

/-- A clock that stands at 12:30 PM, in BCD and hours to 12. -/
def noonClock (_pass : ℕ) : Cmos := fun reg =>
  if reg = 0x00 then 0x00
  else if reg = 0x02 then 0x30
  else if reg = 0x04 then 0x92
  else if reg = 0x07 then 0x01
  else if reg = 0x08 then 0x06
  else if reg = 0x09 then 0x24
  else if reg = 0x32 then 0x20
  else 0x00

theorem noonClock_shows (pass : ℕ) : ShowsTime (noonClock pass) 0x00 noon := by
  constructor <;> rfl

/-- Half past noon is read as half past midnight. -/
theorem read_rtc_swaps_noon :
    (∀ pass, ShowsTime (noonClock pass) 0x00 noon) ∧
      readRtc noonClock 1 = some (1, ⟨0, 30, 0, 1, 6, 2024⟩) ∧
      noon.state = ⟨0, 30, 12, 1, 6, 2024⟩ ∧
      ¬ ∃ pass, readRtc noonClock 1 = some (pass, noon.state) := by
  have hread : readRtc noonClock 1 = some (1, ⟨0, 30, 0, 1, 6, 2024⟩) := by decide
  refine ⟨noonClock_shows, hread, rfl, ?_⟩
  rintro ⟨pass, h⟩
  rw [hread] at h
  have hhour := congrArg RtcState.hour (Prod.mk.inj (Option.some.inj h)).2
  exact absurd hhour (by decide)

theorem read_rtc_decodes_iff_sample :
    ∃ state, readRtc noonClock 1 = some (1, state) ∧
      (state = noon.state ↔ Hours24 0x00 ∨ noon.hour % 12 ≠ 0) :=
  read_rtc_decodes_iff noonClock_shows 0

end MVK
