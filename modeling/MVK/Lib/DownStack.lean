import Mathlib.Data.BitVec

/-!
# Stacks in memory

A stack that grows towards lower addresses, in a memory whose addresses are machine words
and wrap.  Of the memory it is only known how one word is read and written: a word takes
`size` addresses, and a write leaves the words that do not overlap it.

* `Access` — the memory.
* `Access.Holds` — the words on a stack, from its top on.
* `Access.Holds.push`, `Access.Holds.tail`, `Access.Holds.read` — pushing, popping, looking.
* `Access.Holds.congr` — a stack that a memory change leaves alone.
-/

namespace DownStack

/-- Memories `M` with words `W` at addresses of `w` bits. -/
structure Access (w : ℕ) (M W : Type) where
  size : ℕ
  read : M → BitVec w → W
  write : M → BitVec w → W → M
  read_write_same : ∀ m a v, read (write m a v) a = v
  read_write_apart : ∀ m a v d, size ≤ d → d + size ≤ 2 ^ w →
    read (write m a v) (a + BitVec.ofNat w d) = read m (a + BitVec.ofNat w d)

namespace Access

variable {w : ℕ} {M W : Type} (acc : Access w M W)

/-- The words of a stack, the one at `top` first. -/
def Holds (m : M) : BitVec w → List W → Prop
  | _, [] => True
  | top, v :: vs => acc.read m top = v ∧ Holds m (top + BitVec.ofNat w acc.size) vs

variable {acc} {m m' : M} {a : BitVec w} {v : W} {vs : List W}

theorem Holds.head (h : acc.Holds m a (v :: vs)) : acc.read m a = v := h.1

/-- What is left after a pop. -/
theorem Holds.tail (h : acc.Holds m a (v :: vs)) :
    acc.Holds m (a + BitVec.ofNat w acc.size) vs := h.2

theorem add_ofNat_add (a : BitVec w) (d e : ℕ) :
    a + BitVec.ofNat w d + BitVec.ofNat w e = a + BitVec.ofNat w (d + e) := by
  rw [BitVec.add_assoc, BitVec.ofNat_add]

/-- The word at depth `k`. -/
theorem Holds.read (h : acc.Holds m a vs) {k : ℕ} (hk : k < vs.length) :
    acc.read m (a + BitVec.ofNat w (acc.size * k)) = vs[k] := by
  induction vs generalizing a k with
  | nil => exact absurd hk (Nat.not_lt_zero k)
  | cons v vs ih =>
    obtain ⟨hv, hvs⟩ := h
    cases k with
    | zero => rw [Nat.mul_zero, BitVec.add_zero, hv, List.getElem_cons_zero]
    | succ k =>
      have hk' : k < vs.length := Nat.lt_of_succ_lt_succ hk
      rw [List.getElem_cons_succ, ← ih hvs hk', add_ofNat_add, Nat.mul_succ, Nat.add_comm]

/-- The words below the first few. -/
theorem Holds.right_of_append {us : List W} (h : acc.Holds m a (us ++ vs)) :
    acc.Holds m (a + BitVec.ofNat w (acc.size * us.length)) vs := by
  induction us generalizing a with
  | nil =>
    rw [List.length_nil, Nat.mul_zero, BitVec.add_zero]
    exact h
  | cons u us ih =>
    have hus := ih h.tail
    rw [add_ofNat_add, Nat.add_comm, ← Nat.mul_succ] at hus
    exact hus

/-- The first few words. -/
theorem Holds.left_of_append {us : List W} (h : acc.Holds m a (us ++ vs)) : acc.Holds m a us := by
  induction us generalizing a with
  | nil => trivial
  | cons u us ih => exact ⟨h.head, ih h.tail⟩

/-- A write below a stack leaves it. -/
theorem Holds.write_below (x : W) {d : ℕ} (hd : acc.size ≤ d)
    (hfit : d + acc.size * vs.length ≤ 2 ^ w)
    (h : acc.Holds m (a + BitVec.ofNat w d) vs) :
    acc.Holds (acc.write m a x) (a + BitVec.ofNat w d) vs := by
  induction vs generalizing d with
  | nil => trivial
  | cons v vs ih =>
    rw [List.length_cons, Nat.mul_succ] at hfit
    obtain ⟨hv, hvs⟩ := h
    refine ⟨?_, ?_⟩
    · rw [acc.read_write_apart m a x d hd (by omega), hv]
    · rw [add_ofNat_add] at hvs ⊢
      exact ih (by omega) (by omega) hvs

/-- Pushing a word. -/
theorem Holds.push (x : W) (hfit : acc.size * (vs.length + 1) ≤ 2 ^ w) (h : acc.Holds m a vs) :
    acc.Holds (acc.write m (a - BitVec.ofNat w acc.size) x) (a - BitVec.ofNat w acc.size)
      (x :: vs) := by
  have hback : a - BitVec.ofNat w acc.size + BitVec.ofNat w acc.size = a := BitVec.sub_add_cancel ..
  refine ⟨acc.read_write_same .., Holds.write_below x le_rfl ?_ ?_⟩
  · rw [Nat.mul_succ] at hfit
    omega
  · rw [hback]
    exact h

/-- A change of memory that keeps the words of a stack. -/
theorem Holds.congr (h : acc.Holds m a vs)
    (hkeep : ∀ k < vs.length, acc.read m' (a + BitVec.ofNat w (acc.size * k)) =
      acc.read m (a + BitVec.ofNat w (acc.size * k))) : acc.Holds m' a vs := by
  induction vs generalizing a with
  | nil => trivial
  | cons v vs ih =>
    obtain ⟨hv, hvs⟩ := h
    refine ⟨?_, ih hvs fun k hk => ?_⟩
    · have hhead := hkeep 0 (Nat.succ_pos _)
      rw [Nat.mul_zero, BitVec.add_zero] at hhead
      rw [hhead, hv]
    · have hnext := hkeep (k + 1) (Nat.succ_lt_succ hk)
      rw [Nat.mul_succ, Nat.add_comm, ← add_ofNat_add] at hnext
      exact hnext

end Access

end DownStack
