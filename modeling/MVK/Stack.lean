import MVK.Lib.DownStack
import MVK.Memory

/-!
# 32-bit words in memory

Little-endian 32-bit words over the bytes of `MVK.Memory`, and the stack they make.
Addresses wrap, as they do in a flat segment.

## Main definitions

* `read32`, `write32` — words in memory.
* `StackAt` — the words of a stack.

## Main results

* `read32_write32_same`, `read32_write32_apart` — what a store leaves to be read.
-/

namespace MVK

open DownStack

/-- Reading through a `uint32_t*`. -/
def read32 (mem : Memory) (a : Word) : Word :=
  (mem (a + 3) ++ mem (a + 2)) ++ (mem (a + 1) ++ mem a)

/-- Writing through a `uint32_t*`. -/
def write32 (mem : Memory) (a v : Word) : Memory := fun b =>
  if b = a then v.extractLsb' 0 8
  else if b = a + 1 then v.extractLsb' 8 8
  else if b = a + 2 then v.extractLsb' 16 8
  else if b = a + 3 then v.extractLsb' 24 8
  else mem b

theorem read32_write32_same (mem : Memory) (a v : Word) : read32 (write32 mem a v) a = v := by
  have h1 : a + 1 ≠ a := by bv_omega
  have h2 : a + 2 ≠ a ∧ a + 2 ≠ a + 1 := by constructor <;> bv_omega
  have h3 : a + 3 ≠ a ∧ a + 3 ≠ a + 1 ∧ a + 3 ≠ a + 2 := by refine ⟨?_, ?_, ?_⟩ <;> bv_omega
  have hbytes : read32 (write32 mem a v) a =
      (v.extractLsb' 24 8 ++ v.extractLsb' 16 8) ++ (v.extractLsb' 8 8 ++ v.extractLsb' 0 8) := by
    simp only [read32, write32, if_true, if_neg h1, if_neg h2.1, if_neg h2.2, if_neg h3.1,
      if_neg h3.2.1, if_neg h3.2.2]
  rw [hbytes, BitVec.extractLsb'_append_extractLsb'_eq_extractLsb' (by decide : 24 = 16 + 8),
    BitVec.extractLsb'_append_extractLsb'_eq_extractLsb' (by decide : 8 = 0 + 8),
    BitVec.extractLsb'_append_extractLsb'_eq_extractLsb' (by decide : 16 = 0 + (8 + 8))]
  exact BitVec.extractLsb'_eq_self

/-- The bytes from a distance of 4 on are not written. -/
theorem write32_apart (mem : Memory) (a v : Word) {d : ℕ} (hd : 4 ≤ d) (hd' : d < 2 ^ 32) :
    write32 mem a v (a + BitVec.ofNat 32 d) = mem (a + BitVec.ofNat 32 d) := by
  have h0 : a + BitVec.ofNat 32 d ≠ a := by bv_omega
  have h1 : a + BitVec.ofNat 32 d ≠ a + 1 := by bv_omega
  have h2 : a + BitVec.ofNat 32 d ≠ a + 2 := by bv_omega
  have h3 : a + BitVec.ofNat 32 d ≠ a + 3 := by bv_omega
  rw [write32, if_neg h0, if_neg h1, if_neg h2, if_neg h3]

theorem read32_write32_apart (mem : Memory) (a v : Word) {d : ℕ} (hd : 4 ≤ d)
    (hd' : d + 4 ≤ 2 ^ 32) :
    read32 (write32 mem a v) (a + BitVec.ofNat 32 d) = read32 mem (a + BitVec.ofNat 32 d) := by
  have hbyte : ∀ k : ℕ, k < 4 → write32 mem a v (a + BitVec.ofNat 32 d + BitVec.ofNat 32 k) =
      mem (a + BitVec.ofNat 32 d + BitVec.ofNat 32 k) := by
    intro k hk
    rw [Access.add_ofNat_add]
    exact write32_apart mem a v (by omega) (by omega)
  have hzero := write32_apart mem a v hd (by omega)
  exact congrArg₂ (· ++ ·) (congrArg₂ (· ++ ·) (hbyte 3 (by decide)) (hbyte 2 (by decide)))
    (congrArg₂ (· ++ ·) (hbyte 1 (by decide)) hzero)

/-- Memory as the stack sees it. -/
def memoryWords : Access 32 Memory Word where
  size := 4
  read := read32
  write := write32
  read_write_same := read32_write32_same
  read_write_apart mem a v _ := read32_write32_apart mem a v

/-- The words on a stack, from `esp` on. -/
def StackAt (mem : Memory) (esp : Word) (words : List Word) : Prop :=
  memoryWords.Holds mem esp words

/-- A stack whose bytes a memory change leaves alone. -/
theorem StackAt.congr {mem mem' : Memory} {a : Word} {words : List Word} (h : StackAt mem a words)
    (hkeep : ∀ i < 4 * words.length, mem' (a + BitVec.ofNat 32 i) = mem (a + BitVec.ofNat 32 i)) :
    StackAt mem' a words := by
  refine Access.Holds.congr h fun k hk => ?_
  have hbyte : ∀ j < 4, mem' (a + BitVec.ofNat 32 (4 * k) + BitVec.ofNat 32 j) =
      mem (a + BitVec.ofNat 32 (4 * k) + BitVec.ofNat 32 j) := by
    intro j hj
    rw [Access.add_ofNat_add]
    exact hkeep _ (by omega)
  exact congrArg₂ (· ++ ·)
    (congrArg₂ (· ++ ·) (hbyte 3 (by decide)) (hbyte 2 (by decide)))
    (congrArg₂ (· ++ ·) (hbyte 1 (by decide)) (hkeep (4 * k) (by omega)))

end MVK
