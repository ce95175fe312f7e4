import Mathlib.Logic.Relation

/-!
# Labelled runs of a step relation

The runs of a system given by a relation `step s i t` ("label `i` takes `s` to
`t`"), as words of labels, with the two induction rules every safety argument
below uses: an invariant preserved by each step holds at the end of each run,
and a relation preserved by matching steps of an abstract function relates the
two ends.

## Main definitions

* `Run step s is t` — the labels `is`, taken in order, lead from `s` to `t`.
* `Along f P a is` — `P` holds of each label where the abstract function `f` has got to.
* `Always step P s is` — `P` holds of each label wherever a run over the labels comes to it.

## Main results

* `Run.invariant` — **the invariant rule**.
* `Run.simulates` — **the simulation rule**, against a deterministic abstract
  machine.
* `Run.refine` — a run of one relation is a run of any relation it implies.
* `Run.guarantee` — **the assume-guarantee rule**: as long as the caller does what is asked,
  each step grants what it promises.
* `always_iff` — what is the same for one step, as long as it has held before, is the same
  along all runs.
-/

namespace Transition

variable {σ τ ι : Type*} {step : σ → ι → σ → Prop}

/-- `Run step s is t` says that the labels `is` lead from `s` to `t`. -/
inductive Run (step : σ → ι → σ → Prop) : σ → List ι → σ → Prop
  /-- The empty run stays where it is. -/
  | nil (s : σ) : Run step s [] s
  /-- One step, then the rest of the run. -/
  | cons {s t u : σ} {i : ι} {is : List ι} :
      step s i t → Run step t is u → Run step s (i :: is) u

namespace Run

theorem single {s t : σ} {i : ι} (h : step s i t) : Run step s [i] t :=
  .cons h (.nil t)

theorem append {s t u : σ} {is js : List ι} (h : Run step s is t) (h' : Run step t js u) :
    Run step s (is ++ js) u := by
  induction h with
  | nil => exact h'
  | cons hstep _ ih => exact .cons hstep (ih h')

theorem snoc {s t u : σ} {is : List ι} {i : ι} (h : Run step s is t) (h' : step t i u) :
    Run step s (is ++ [i]) u :=
  h.append (single h')

/-- **The invariant rule**: what every step preserves, every run preserves. -/
theorem invariant {P : σ → Prop} (hstep : ∀ s i t, step s i t → P s → P t)
    {s t : σ} {is : List ι} (h : Run step s is t) (hs : P s) : P t := by
  induction h with
  | nil => exact hs
  | cons hi _ ih => exact ih (hstep _ _ _ hi hs)

/-- **The simulation rule**: if `R` relates each concrete step to the abstract
function `f` on the same label, it relates the ends of a run to the fold of `f`. -/
theorem simulates {R : σ → τ → Prop} {f : τ → ι → τ}
    (hstep : ∀ s i t a, step s i t → R s a → R t (f a i))
    {s t : σ} {is : List ι} (h : Run step s is t) {a : τ} (hs : R s a) :
    R t (is.foldl f a) := by
  induction h generalizing a with
  | nil => exact hs
  | cons hi _ ih => exact ih (hstep _ _ _ _ hi hs)

/-- A run of `step` along which `P` holds is a run of any relation that `step`
implies under `P`. -/
theorem refine {step' : σ → ι → σ → Prop} {P : σ → Prop}
    (hinv : ∀ s i t, step s i t → P s → P t)
    (himp : ∀ s i t, P s → step s i t → step' s i t)
    {s t : σ} {is : List ι} (h : Run step s is t) (hs : P s) : Run step' s is t := by
  induction h with
  | nil s => exact .nil s
  | cons hi _ ih => exact .cons (himp _ _ _ hs hi) (ih (hinv _ _ _ hi hs))

end Run

/-- `P` holds of each label, in the state that `f` has reached before it. -/
def Along (f : τ → ι → τ) (P : τ → ι → Prop) : τ → List ι → Prop
  | _, [] => True
  | a, i :: is => P a i ∧ Along f P (f a i) is

namespace Along

variable {f : τ → ι → τ} {P Q : τ → ι → Prop} {a : τ} {is js : List ι} {i : ι}

@[simp] theorem nil : Along f P a [] := trivial

@[simp] theorem cons : Along f P a (i :: is) ↔ P a i ∧ Along f P (f a i) is := Iff.rfl

@[simp] theorem append : Along f P a (is ++ js) ↔ Along f P a is ∧ Along f P (is.foldl f a) js := by
  induction is generalizing a with
  | nil => simp
  | cons i is ih => simp [ih, and_assoc]

theorem map {κ : Type*} {g : κ → ι} {ks : List κ} :
    Along f P a (ks.map g) ↔ Along (fun a k => f a (g k)) (fun a k => P a (g k)) a ks := by
  induction ks generalizing a with
  | nil => simp
  | cons k ks ih => simp [ih]

/-- What one step keeps under `P`, all of them do. -/
theorem foldl {inv : τ → Prop} (hstep : ∀ a i, P a i → inv a → inv (f a i)) (h : Along f P a is)
    (ha : inv a) : inv (is.foldl f a) := by
  induction is generalizing a with
  | nil => exact ha
  | cons i is ih => exact ih h.2 (hstep a i h.1 ha)

end Along

/-- `P` holds of each label, in every state in which a run over the labels comes to it. -/
def Always (step : σ → ι → σ → Prop) (P : σ → ι → Prop) : σ → List ι → Prop
  | _, [] => True
  | s, i :: is => P s i ∧ ∀ t, step s i t → Always step P t is

/-- **The rule for conditions that are exact step by step**, as long as they have held. -/
theorem always_iff {P Q : σ → ι → Prop} {inv : σ → Prop} (hiff : ∀ s i, inv s → (P s i ↔ Q s i))
    (hinv : ∀ s i t, inv s → P s i → step s i t → inv t) {s : σ} {is : List ι} (hs : inv s) :
    Always step P s is ↔ Always step Q s is := by
  induction is generalizing s with
  | nil => exact Iff.rfl
  | cons i is ih =>
    constructor
    · exact fun ⟨hp, hrest⟩ =>
        ⟨(hiff s i hs).mp hp, fun t ht => (ih (hinv s i t hs hp ht)).mp (hrest t ht)⟩
    · exact fun ⟨hq, hrest⟩ =>
        have hp := (hiff s i hs).mpr hq
        ⟨hp, fun t ht => (ih (hinv s i t hs hp ht)).mpr (hrest t ht)⟩

/-- What one step keeps, where `P` holds, a run keeps along which `P` holds. -/
theorem Always.invariant {P : σ → ι → Prop} {inv : σ → Prop}
    (hinv : ∀ s i t, inv s → P s i → step s i t → inv t) {s t : σ} {is : List ι}
    (h : Always step P s is) (hrun : Run step s is t) (hs : inv s) : inv t := by
  induction hrun with
  | nil => exact hs
  | cons hi _ ih => exact ih (h.2 _ hi) (hinv _ _ _ hs h.1 hi)

/-- **The assume-guarantee rule**: where each step from related states grants its promise, if
the caller did what is asked, and leads to related states, so does a run. -/
theorem Run.guarantee {R : σ → τ → Prop} {f : τ → ι → τ} {ask grant : τ → ι → Prop}
    (hstep : ∀ s i t a, step s i t → R s a → ask a i → grant a i ∧ R t (f a i))
    {s t : σ} {is : List ι} (h : Run step s is t) {a : τ} (hs : R s a) (hask : Along f ask a is) :
    Along f grant a is ∧ R t (is.foldl f a) := by
  induction h generalizing a with
  | nil => exact ⟨trivial, hs⟩
  | cons hi _ ih =>
    obtain ⟨hgrant, hnext⟩ := hstep _ _ _ _ hi hs hask.1
    obtain ⟨hrest, hend⟩ := ih hnext hask.2
    exact ⟨⟨hgrant, hrest⟩, hend⟩

end Transition
