import MVK.Word

/-!
# The real-time clock

The clock's registers are read one by one, and it may tick between two reads.  So
`read_rtc` reads all seven over and over, to return only what it read twice in a row; but
its loop goes on only while all seven registers differ, and stops as soon as one of them
agrees.

A clock is given by what its registers hold during each pass of reads, after the update
flag was seen clear.  As any register may change at any pass, it does not matter where
between two reads the clock ticks.

## Main definitions

* `Cmos`, `getRtcRegister` — the registers during one pass.
* `readPass`, `readLoop`, `decode`, `readRtc` — the code.
* `SameSample`, `AgreeSomewhere` — what two passes have in common.

## Main results

* `readLoop_eq_some_iff` — the loop stops at the first agreement.
* `read_rtc_stable_iff` — **exactly when the time read is not torn.**
-/

namespace MVK

/-! ### The code -/

/-- What the registers hold during one pass of reads. -/
abbrev Cmos := BitVec 8 → BitVec 8

/-- `get_rtc_register`: the port takes the low byte. -/
def getRtcRegister (cmos : Cmos) (reg : Word) : BitVec 8 := cmos (reg.setWidth 8)

/-- `rtc_state`. -/
@[ext] structure RtcState where
  second : BitVec 8
  minute : BitVec 8
  hour : BitVec 8
  day : BitVec 8
  month : BitVec 8
  year : BitVec 16
  deriving DecidableEq

/-- One pass of reads: `*state` and `century`. -/
def readPass (cmos : Cmos) : RtcState × BitVec 8 :=
  ({ second := getRtcRegister cmos 0x00
     minute := getRtcRegister cmos 0x02
     hour := getRtcRegister cmos 0x04
     day := getRtcRegister cmos 0x07
     month := getRtcRegister cmos 0x08
     year := (getRtcRegister cmos 0x09).setWidth 16 },
    getRtcRegister cmos 0x32)

/-- The condition of the `do … while` loop. -/
def readAgain (last cur : RtcState × BitVec 8) : Bool :=
  last.1.second != cur.1.second && last.1.minute != cur.1.minute && last.1.hour != cur.1.hour &&
    last.1.day != cur.1.day && last.1.month != cur.1.month && last.1.year != cur.1.year &&
    last.2 != cur.2

/-- The loop from pass `pass` on, for at most `fuel` passes: the last pass, and what it
read. -/
def readLoop (clock : ℕ → Cmos) : ℕ → ℕ → RtcState × BitVec 8 → Option (ℕ × RtcState × BitVec 8)
  | 0, _, _ => none
  | fuel + 1, pass, last =>
    let cur := readPass (clock pass)
    if readAgain last cur then readLoop clock fuel (pass + 1) cur else some (pass, cur)

/-- Two BCD digits. -/
def fromBcd {n : ℕ} (x : BitVec n) : BitVec n := (x &&& 0x0F) + x / 16 * 10

/-- What follows the loop, with status register B. -/
def decode (registerB : BitVec 8) (state : RtcState) (century : BitVec 8) : RtcState :=
  let (state, century) :=
    if registerB &&& 0x04 = 0 then
      ({ second := fromBcd state.second
         minute := fromBcd state.minute
         hour := ((state.hour &&& 0x0F) + (state.hour &&& 0x70) / 16 * 10) ||| (state.hour &&& 0x80)
         day := fromBcd state.day
         month := fromBcd state.month
         year := fromBcd state.year }, fromBcd century)
    else (state, century)
  -- bit 7 of the hour is the PM flag of the 12-hour format
  let hour := if registerB &&& 0x02 = 0 ∧ state.hour &&& 0x80 ≠ 0 then
    ((state.hour &&& 0x7F) + 12) % 24 else state.hour
  { state with hour := hour, year := state.year + century.setWidth 16 * 100 }

/-- `read_rtc`: the pass whose sample it decodes, and the time that it stores.  Status
register B is read after that pass. -/
def readRtc (clock : ℕ → Cmos) (fuel : ℕ) : Option (ℕ × RtcState) := do
  let (pass, state, century) ← readLoop clock fuel 1 (readPass (clock 0))
  return (pass, decode (getRtcRegister (clock (pass + 1)) 0x0B) state century)

/-! ### Samples -/

/-- The registers of a sample. -/
def rtcRegisters : List Word := [0x00, 0x02, 0x04, 0x07, 0x08, 0x09, 0x32]

/-- Two passes read the same in all registers. -/
def SameSample (c c' : Cmos) : Prop :=
  ∀ reg ∈ rtcRegisters, getRtcRegister c reg = getRtcRegister c' reg

/-- Two passes read the same in some register. -/
def AgreeSomewhere (c c' : Cmos) : Prop :=
  ∃ reg ∈ rtcRegisters, getRtcRegister c reg = getRtcRegister c' reg

/-- Two bytes that are equal as 16-bit numbers are equal. -/
theorem setWidth_16_inj {x y : BitVec 8} : x.setWidth 16 = y.setWidth 16 ↔ x = y := by
  refine ⟨?_, fun h => by rw [h]⟩
  intro h
  have hnat := congrArg BitVec.toNat h
  rw [BitVec.toNat_setWidth, BitVec.toNat_setWidth] at hnat
  apply BitVec.eq_of_toNat_eq
  omega

/-- The loop goes on only while no register agrees. -/
theorem readAgain_readPass (c c' : Cmos) :
    readAgain (readPass c) (readPass c') = true ↔ ¬ AgreeSomewhere c c' := by
  simp only [readAgain, readPass, AgreeSomewhere, rtcRegisters, Bool.and_eq_true, bne_iff_ne,
    ne_eq, setWidth_16_inj, List.mem_cons, List.not_mem_nil, or_false, exists_eq_or_imp,
    exists_eq_left, not_or, and_assoc]

/-- **The loop stops at the first agreement**: a pass that agrees with the one before it in
some register, when none before did. -/
theorem readLoop_eq_some_iff {clock : ℕ → Cmos} {fuel k n : ℕ} {cur : RtcState × BitVec 8} :
    readLoop clock fuel (k + 1) (readPass (clock k)) = some (n + 1, cur) ↔
      k ≤ n ∧ n < k + fuel ∧ cur = readPass (clock (n + 1)) ∧
        AgreeSomewhere (clock n) (clock (n + 1)) ∧
        ∀ j, k ≤ j → j < n → ¬ AgreeSomewhere (clock j) (clock (j + 1)) := by
  induction fuel generalizing k with
  | zero =>
    rw [readLoop]
    refine ⟨fun h => absurd h (by simp), ?_⟩
    rintro ⟨hle, hlt, -⟩
    omega
  | succ fuel ih =>
    rw [readLoop]
    split
    · next hagain =>
      -- no register agrees: the pass is not the last
      have hno := (readAgain_readPass _ _).mp hagain
      rw [ih]
      constructor
      · rintro ⟨hle, hlt, hcur, hagree, hbefore⟩
        refine ⟨by omega, by omega, hcur, hagree, ?_⟩
        intro j hj hjn
        rcases Nat.eq_or_lt_of_le hj with rfl | hlt'
        · exact hno
        · exact hbefore j hlt' hjn
      · rintro ⟨hle, hlt, hcur, hagree, hbefore⟩
        rcases Nat.eq_or_lt_of_le hle with rfl | hlt'
        · exact absurd hagree hno
        · exact ⟨hlt', by omega, hcur, hagree, fun j hj hjn => hbefore j (by omega) hjn⟩
    · next hstop =>
      have hagree := not_not.mp (mt (readAgain_readPass _ _).mpr hstop)
      constructor
      · intro h
        obtain ⟨hn, rfl⟩ := Prod.mk.inj (Option.some.inj h)
        obtain rfl : k = n := by omega
        exact ⟨le_rfl, by omega, rfl, hagree, by omega⟩
      · rintro ⟨hle, -, rfl, -, hbefore⟩
        rcases Nat.eq_or_lt_of_le hle with rfl | hlt'
        · rfl
        · exact absurd hagree (hbefore k le_rfl hlt')

/-- What a call that returns has decoded. -/
theorem readRtc_eq_some_iff {clock : ℕ → Cmos} {fuel pass : ℕ} {state : RtcState} :
    readRtc clock fuel = some (pass, state) ↔ ∃ cur,
      readLoop clock fuel 1 (readPass (clock 0)) = some (pass, cur) ∧
        state = decode (getRtcRegister (clock (pass + 1)) 0x0B) cur.1 cur.2 := by
  unfold readRtc
  cases hloop : readLoop clock fuel 1 (readPass (clock 0)) with
  | none => simp
  | some res =>
    obtain ⟨n, state', century⟩ := res
    constructor
    · intro h
      obtain ⟨rfl, rfl⟩ := Prod.mk.inj (Option.some.inj h)
      exact ⟨_, rfl, rfl⟩
    · rintro ⟨cur, hcur, rfl⟩
      obtain ⟨rfl, rfl⟩ := Prod.mk.inj (Option.some.inj hcur)
      rfl

/-- The loop never stops before its first pass. -/
theorem readLoop_pass_ne_zero {clock : ℕ → Cmos} {fuel k n : ℕ} {last cur : RtcState × BitVec 8}
    (h : readLoop clock fuel (k + 1) last = some (n, cur)) : n ≠ 0 := by
  induction fuel generalizing k last with
  | zero => exact absurd h (by simp [readLoop])
  | succ fuel ih =>
    rw [readLoop] at h
    split at h
    · exact ih h
    · obtain ⟨rfl, -⟩ := Prod.mk.inj (Option.some.inj h)
      omega

/-- `read_rtc` returns exactly on the clocks that agree with themselves in some register,
two passes in a row. -/
theorem readRtc_returns_iff {clock : ℕ → Cmos} :
    (∃ fuel pass state, readRtc clock fuel = some (pass, state)) ↔
      ∃ n, AgreeSomewhere (clock n) (clock (n + 1)) := by
  classical
  constructor
  · rintro ⟨fuel, pass, state, h⟩
    obtain ⟨cur, hloop, -⟩ := readRtc_eq_some_iff.mp h
    obtain ⟨n, rfl⟩ := Nat.exists_eq_succ_of_ne_zero (readLoop_pass_ne_zero hloop)
    exact ⟨n, (readLoop_eq_some_iff.mp hloop).2.2.2.1⟩
  · intro hex
    -- the loop stops at the first agreement
    have hloop : readLoop clock (Nat.find hex + 1) 1 (readPass (clock 0)) =
        some (Nat.find hex + 1, readPass (clock (Nat.find hex + 1))) :=
      readLoop_eq_some_iff.mpr ⟨Nat.zero_le _, by omega, rfl, Nat.find_spec hex,
        fun j _ hj => Nat.find_min hex hj⟩
    exact ⟨_, _, _, readRtc_eq_some_iff.mpr ⟨_, hloop, rfl⟩⟩

/-! ### Torn times -/

/-- The first two passes in a row that agree in some register agree in all. -/
def FirstAgreementFull (clock : ℕ → Cmos) : Prop :=
  ∀ n, AgreeSomewhere (clock n) (clock (n + 1)) →
    (∀ j, j < n → ¬ AgreeSomewhere (clock j) (clock (j + 1))) →
    SameSample (clock n) (clock (n + 1))

/-- **When the time read is not torn.**  Whenever `read_rtc` returns, it has decoded the
sample of its last pass; and that is the sample of the pass before exactly when the first
agreement of the clock is a full one. -/
theorem read_rtc_stable_iff {clock : ℕ → Cmos} {fuel pass : ℕ} {state : RtcState}
    (h : readRtc clock fuel = some (pass, state)) :
    state = decode (getRtcRegister (clock (pass + 1)) 0x0B) (readPass (clock pass)).1
        (readPass (clock pass)).2 ∧
      (SameSample (clock (pass - 1)) (clock pass) ↔ FirstAgreementFull clock) := by
  obtain ⟨cur, hloop, rfl⟩ := readRtc_eq_some_iff.mp h
  obtain ⟨n, rfl⟩ := Nat.exists_eq_succ_of_ne_zero (readLoop_pass_ne_zero hloop)
  obtain ⟨-, -, rfl, hagree, hbefore⟩ := readLoop_eq_some_iff.mp hloop
  refine ⟨rfl, ?_⟩
  rw [Nat.succ_eq_add_one, Nat.add_sub_cancel]
  constructor
  · intro hsame m hm hfirst
    -- the two first agreements are the same
    obtain rfl : m = n := by
      rcases Nat.lt_trichotomy m n with hlt | heq | hgt
      · exact absurd hm (hbefore m (Nat.zero_le m) hlt)
      · exact heq
      · exact absurd hagree (hfirst n hgt)
    exact hsame
  · intro hfull
    exact hfull n hagree fun j hj => hbefore j (Nat.zero_le j) hj

/-- A clock that strikes one in the middle of the second pass: 12:59:58 is read first, then
the seconds and minutes of 12:59:59 with the hour of 13:00:00. -/
def strikingClock (pass : ℕ) : Cmos := fun reg =>
  if reg = 0x00 then if pass = 0 then 0x58 else 0x59
  else if reg = 0x02 then 0x59
  else if reg = 0x04 then if pass = 0 then 0x12 else 0x13
  else if reg = 0x07 then 0x01
  else if reg = 0x08 then 0x06
  else if reg = 0x09 then 0x24
  else if reg = 0x0B then 0x02
  else 0x20

/-- The minute agrees, so the second pass is decoded: 13:59:59, an hour ahead. -/
theorem read_rtc_tears :
    readRtc strikingClock 1 = some (1, ⟨59, 59, 13, 1, 6, 2024⟩) ∧
      ¬ SameSample (strikingClock 0) (strikingClock 1) :=
  ⟨by decide, fun hsame => absurd (hsame 0x00 List.mem_cons_self) (by decide)⟩

theorem read_rtc_stable_iff_sample :
    ∃ state, readRtc (fun _ => strikingClock 0) 1 = some (1, state) ∧
      (SameSample (strikingClock 0) (strikingClock 0) ↔
        FirstAgreementFull fun _ => strikingClock 0) :=
  have h : readRtc (fun _ => strikingClock 0) 1 = some (1, ⟨58, 59, 12, 1, 6, 2024⟩) := by decide
  ⟨_, h, (read_rtc_stable_iff h).2⟩

end MVK
