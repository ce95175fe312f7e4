import MVK.Word

/-!
# Bytes in memory

The byte-addressed view that the C library and the terminal have of memory:
little-endian 16-bit words, and `memcpy`, byte by byte from the front.  Addresses are
words and wrap; the lemmas number them and ask that the ranges at hand do not.

## Main definitions

* `Memory`, `read16`, `write16` — bytes and 16-bit words.
* `memcpy` — the copy, with the pointer it returns.
* `Copied`, `CopyContract` — what a copy is to leave, and what C promises of `memcpy`.

## Main results

* `memcpyLoop_spec` — **what `memcpy` leaves**, when the ranges are disjoint or the
  destination comes first.
* `read16_memcpyLoop_mem`, `read16_memcpyLoop_notMem` — the same for 16-bit words.
* `memcpy_contract_iff` — **`memcpy` copies, but returns the end of the destination.**
-/

namespace MVK

/-- Memory as bytes. -/
abbrev Memory := Word → BitVec 8

/-- Reading through a `uint16_t*`. -/
def read16 (mem : Memory) (a : Word) : BitVec 16 := (mem (a + 1) ++ mem a : BitVec (8 + 8))

/-- Writing through a `uint16_t*`. -/
def write16 (mem : Memory) (a : Word) (w : BitVec 16) : Memory :=
  Function.update (Function.update mem a (w.setWidth 8)) (a + 1) ((w >>> 8).setWidth 8)

/-- The loop of `memcpy`, with `num` bytes to go. -/
def memcpyLoop : ℕ → Word → Word → Memory → Word × Memory
  | 0, destination, _, mem => (destination, mem)
  | num + 1, destination, source, mem =>
    memcpyLoop num (destination + 1) (source + 1) (Function.update mem destination (mem source))

/-- `memcpy`.  It returns the advanced pointer. -/
def memcpy (destination source num : Word) (mem : Memory) : Word × Memory :=
  memcpyLoop num.toNat destination source mem

/-! ### Numbered addresses -/

theorem ofNat_add_one (a : ℕ) : BitVec.ofNat 32 a + 1 = BitVec.ofNat 32 (a + 1) :=
  (BitVec.ofNat_add a 1).symm

theorem ofNat_inj_of_lt {a b : ℕ} (ha : a < 2 ^ 32) (hb : b < 2 ^ 32) :
    BitVec.ofNat 32 a = BitVec.ofNat 32 b ↔ a = b := by
  refine ⟨?_, fun h => h ▸ rfl⟩
  intro h
  have hnat := congrArg BitVec.toNat h
  rwa [BitVec.toNat_ofNat, BitVec.toNat_ofNat, Nat.mod_eq_of_lt ha, Nat.mod_eq_of_lt hb] at hnat

theorem update_ofNat (mem : Memory) {a b : ℕ} (ha : a < 2 ^ 32) (hb : b < 2 ^ 32) (v : BitVec 8) :
    Function.update mem (BitVec.ofNat 32 a) v (BitVec.ofNat 32 b) =
      if b = a then v else mem (BitVec.ofNat 32 b) := by
  rw [Function.update_apply]
  exact if_congr (ofNat_inj_of_lt hb ha) rfl rfl

/-! ### 16-bit words -/

theorem read16_write16_same (mem : Memory) {a : ℕ} (ha : a + 2 ≤ 2 ^ 32) (w : BitVec 16) :
    read16 (write16 mem (BitVec.ofNat 32 a) w) (BitVec.ofNat 32 a) = w := by
  have hlow : write16 mem (BitVec.ofNat 32 a) w (BitVec.ofNat 32 a) = w.setWidth 8 := by
    rw [write16, ofNat_add_one, update_ofNat _ (by omega) (by omega), if_neg (by omega),
      Function.update_self]
  have hhigh : write16 mem (BitVec.ofNat 32 a) w (BitVec.ofNat 32 a + 1) =
      (w >>> 8).setWidth 8 := Function.update_self ..
  rw [read16, hlow, hhigh]
  apply BitVec.eq_of_toNat_eq
  have hlt : (w.setWidth 8).toNat < 2 ^ 8 := (w.setWidth 8).isLt
  have hw := w.isLt
  rw [BitVec.toNat_append, ← Nat.shiftLeft_add_eq_or_of_lt hlt, Nat.shiftLeft_eq,
    BitVec.toNat_setWidth, BitVec.toNat_setWidth, BitVec.toNat_ushiftRight,
    Nat.shiftRight_eq_div_pow]
  omega

/-- A 16-bit store leaves the words it does not touch. -/
theorem read16_write16_of_ne (mem : Memory) {a b : ℕ} (ha : a + 2 ≤ 2 ^ 32) (hb : b + 2 ≤ 2 ^ 32)
    (h : b + 2 ≤ a ∨ a + 2 ≤ b) (w : BitVec 16) :
    read16 (write16 mem (BitVec.ofNat 32 a) w) (BitVec.ofNat 32 b) =
      read16 mem (BitVec.ofNat 32 b) := by
  have hbyte : ∀ c, c < 2 ^ 32 → c ≠ a → c ≠ a + 1 →
      write16 mem (BitVec.ofNat 32 a) w (BitVec.ofNat 32 c) = mem (BitVec.ofNat 32 c) := by
    intro c hc hca hca'
    rw [write16, ofNat_add_one, update_ofNat _ (by omega) hc, if_neg hca',
      update_ofNat _ (by omega) hc, if_neg hca]
  rw [read16, read16, ofNat_add_one, hbyte b (by omega) (by omega) (by omega),
    hbyte (b + 1) (by omega) (by omega) (by omega)]

/-! ### `memcpy` -/

/-- A byte that is none of the destination stays, also when the ranges wrap. -/
theorem memcpyLoop_frame {n : ℕ} {d s a : Word} (ha : ∀ k < n, a ≠ d + BitVec.ofNat 32 k)
    (mem : Memory) : (memcpyLoop n d s mem).2 a = mem a := by
  induction n generalizing d s mem with
  | zero => rfl
  | succ n ih =>
    have hnext : ∀ k < n, a ≠ d + 1 + BitVec.ofNat 32 k := by
      intro k hk
      have hne := ha (k + 1) (by omega)
      rwa [BitVec.ofNat_add, BitVec.add_comm (BitVec.ofNat 32 k), ← BitVec.add_assoc] at hne
    have hhead : a ≠ d := by simpa using ha 0 (by omega)
    rw [memcpyLoop, ih hnext, Function.update_of_ne hhead]

/-- **What `memcpy` leaves**: the destination holds what the source held, and every
other byte is as it was. -/
theorem memcpyLoop_spec {n d s : ℕ} (hd : d + n ≤ 2 ^ 32) (hs : s + n ≤ 2 ^ 32)
    (h : d ≤ s ∨ s + n ≤ d) (mem : Memory) {a : ℕ} (ha : a < 2 ^ 32) :
    (memcpyLoop n (BitVec.ofNat 32 d) (BitVec.ofNat 32 s) mem).2 (BitVec.ofNat 32 a) =
      if d ≤ a ∧ a < d + n then mem (BitVec.ofNat 32 (s + (a - d)))
      else mem (BitVec.ofNat 32 a) := by
  induction n generalizing d s mem with
  | zero => rw [if_neg (by omega)]; rfl
  | succ n ih =>
    rw [memcpyLoop, ofNat_add_one, ofNat_add_one, ih (by omega) (by omega) (by omega)]
    by_cases hin : d ≤ a ∧ a < d + (n + 1)
    · rw [if_pos hin]
      by_cases hhead : a = d
      · -- the first byte: the rest of the copy does not come back to it
        rw [if_neg (by omega), update_ofNat _ (by omega) ha, if_pos hhead, hhead, Nat.sub_self,
          Nat.add_zero]
      · -- the source byte was not overwritten by the copies before it
        rw [if_pos (by omega), update_ofNat _ (by omega) (by omega), if_neg (by omega),
          show s + 1 + (a - (d + 1)) = s + (a - d) by omega]
    · rw [if_neg hin, if_neg (by omega), update_ofNat _ (by omega) ha, if_neg (by omega)]

section Words

variable {n d s : ℕ} (hd : d + n ≤ 2 ^ 32) (hs : s + n ≤ 2 ^ 32) (h : d ≤ s ∨ s + n ≤ d)
  (mem : Memory)

include hd hs h

/-- A word of the destination is the word of the source. -/
theorem read16_memcpyLoop_mem {i : ℕ} (hi : i + 2 ≤ n) :
    read16 (memcpyLoop n (BitVec.ofNat 32 d) (BitVec.ofNat 32 s) mem).2
      (BitVec.ofNat 32 (d + i)) = read16 mem (BitVec.ofNat 32 (s + i)) := by
  rw [read16, read16, ofNat_add_one, ofNat_add_one, memcpyLoop_spec hd hs h mem (by omega),
    memcpyLoop_spec hd hs h mem (by omega), if_pos (by omega), if_pos (by omega),
    show s + (d + i + 1 - d) = s + i + 1 by omega, show s + (d + i - d) = s + i by omega]

/-- A word outside the destination is as it was. -/
theorem read16_memcpyLoop_notMem {a : ℕ} (ha : a + 2 ≤ 2 ^ 32) (hout : a + 2 ≤ d ∨ d + n ≤ a) :
    read16 (memcpyLoop n (BitVec.ofNat 32 d) (BitVec.ofNat 32 s) mem).2 (BitVec.ofNat 32 a) =
      read16 mem (BitVec.ofNat 32 a) := by
  rw [read16, read16, ofNat_add_one, memcpyLoop_spec hd hs h mem (by omega),
    memcpyLoop_spec hd hs h mem (by omega), if_neg (by omega), if_neg (by omega)]

end Words

/-! ### The contract -/

/-- The bytes at `destination` are those that were at `source`, and no other byte changed. -/
structure Copied (destination source num : Word) (mem mem' : Memory) : Prop where
  content : ∀ k < num.toNat,
    mem' (destination + BitVec.ofNat 32 k) = mem (source + BitVec.ofNat 32 k)
  frame : ∀ a : Word, a.toNat < destination.toNat ∨ destination.toNat + num.toNat ≤ a.toNat →
    mem' a = mem a

/-- What C promises of `memcpy`: it copies, and returns `destination`. -/
structure CopyContract (destination source num : Word) (mem : Memory)
    (result : Word × Memory) : Prop extends Copied destination source num mem result.2 where
  returned : result.1 = destination

/-- The loop advances `destination` itself. -/
theorem memcpyLoop_fst (n : ℕ) (d s : Word) (mem : Memory) :
    (memcpyLoop n d s mem).1 = d + BitVec.ofNat 32 n := by
  induction n generalizing d s mem with
  | zero => exact (BitVec.add_zero d).symm
  | succ n ih => rw [memcpyLoop, ih, BitVec.add_assoc, BitVec.add_comm 1, ofNat_add_one]

theorem memcpy_fst (destination source num : Word) (mem : Memory) :
    (memcpy destination source num mem).1 = destination + num := by
  rw [memcpy, memcpyLoop_fst, BitVec.ofNat_toNat, BitVec.setWidth_eq]

section Contract

variable {destination source num : Word} (hd : destination.toNat + num.toNat ≤ 2 ^ 32)
  (hs : source.toNat + num.toNat ≤ 2 ^ 32)
  (h : destination.toNat + num.toNat ≤ source.toNat ∨
    source.toNat + num.toNat ≤ destination.toNat ∨ destination.toNat ≤ source.toNat)
  (mem : Memory)

include hd hs h

/-- The copy itself is right. -/
theorem memcpy_copied :
    Copied destination source num mem (memcpy destination source num mem).2 := by
  have hspec := fun a ha => @memcpyLoop_spec _ _ _ hd hs (by omega) mem a ha
  simp only [BitVec.ofNat_toNat, BitVec.setWidth_eq] at hspec
  rw [memcpy]
  constructor
  · intro k hk
    have hat := hspec (destination.toNat + k) (by omega)
    rw [if_pos (by omega), Nat.add_sub_cancel_left] at hat
    simpa only [BitVec.ofNat_add, BitVec.ofNat_toNat, BitVec.setWidth_eq] using hat
  · intro a ha
    have hat := hspec a.toNat a.isLt
    rw [if_neg (by omega)] at hat
    simpa only [BitVec.ofNat_toNat, BitVec.setWidth_eq] using hat

/-- **When `memcpy` keeps its contract.**  For ranges that do not wrap, and are disjoint or
have the destination first, the copy is right; but the pointer that is returned is the
destination only when nothing is copied. -/
theorem memcpy_contract_iff :
    Copied destination source num mem (memcpy destination source num mem).2 ∧
    (memcpy destination source num mem).1 = destination + num ∧
    (CopyContract destination source num mem (memcpy destination source num mem) ↔ num = 0) := by
  have hcopied := memcpy_copied hd hs h mem
  refine ⟨hcopied, memcpy_fst .., fun hcontract => ?_, fun hzero => ?_⟩
  · have hreturned := hcontract.returned
    rwa [memcpy_fst, BitVec.add_right_eq_self] at hreturned
  · refine { hcopied with returned := ?_ }
    rw [memcpy_fst, hzero]
    exact BitVec.add_zero destination

end Contract

/-- All rows of a text screen but the first, copied one row up, and no row. -/
theorem memcpy_contract_iff_sample :
    Copied 0xC00B8000 0xC00B80A0 3840 (fun a => a.setWidth 8)
        (memcpy 0xC00B8000 0xC00B80A0 3840 fun a => a.setWidth 8).2 ∧
      ¬ CopyContract 0xC00B8000 0xC00B80A0 3840 (fun a => a.setWidth 8)
        (memcpy 0xC00B8000 0xC00B80A0 3840 fun a => a.setWidth 8) ∧
      CopyContract 0xC00B8000 0xC00B80A0 0 (fun a => a.setWidth 8)
        (memcpy 0xC00B8000 0xC00B80A0 0 fun a => a.setWidth 8) := by
  obtain ⟨hcopied, -, hiff⟩ := @memcpy_contract_iff 0xC00B8000 0xC00B80A0 3840 (by decide)
    (by decide) (by decide) fun a => a.setWidth 8
  obtain ⟨-, -, hzero⟩ := @memcpy_contract_iff 0xC00B8000 0xC00B80A0 0 (by decide) (by decide)
    (by decide) fun a => a.setWidth 8
  exact ⟨hcopied, fun hcontract => absurd (hiff.mp hcontract) (by decide), hzero.mpr rfl⟩

/-- The second row of a text screen copied to the first: the pointer that is returned is
that of the second row. -/
theorem memcpy_returns_end :
    (memcpy 0xC00B8000 0xC00B80A0 160 fun _ => 0).1 = 0xC00B80A0 ∧
      ¬ CopyContract 0xC00B8000 0xC00B80A0 160 (fun _ => 0)
        (memcpy 0xC00B8000 0xC00B80A0 160 fun _ => 0) := by
  have hend : (memcpy 0xC00B8000 0xC00B80A0 160 fun _ => 0).1 = 0xC00B80A0 := memcpy_fst ..
  refine ⟨hend, fun hcontract => ?_⟩
  exact absurd (hend.symm.trans hcontract.returned) (by decide)

end MVK
