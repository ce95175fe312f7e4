import Mathlib.Data.Set.Insert
import MVK.Lib.Runs

/-!
# Programs over a cached address translation

A program that loads, stores and flushes through an address translation, the two
ways of running it, and why they agree.  Run *sequentially*, each access walks the
memory for its translation.  Run *over a cache*, the hardware may at any moment
add the current translation of any page to the cache, and an access may use a
cached translation without looking at the memory again; only a flush removes one.
A store can change the very translations that are cached, so the two differ unless
the program flushes what it changed.

Memories, addresses, pages, translations and words are arbitrary types.

## Main definitions

* `Mmu` — the walk, and reading and writing through a translation.
* `Prog`, `Prog.run` — programs and their sequential meaning.
* `Prog.loop` — the counted loop with an accumulator.
* `Prog.NeverAborts` — no branch of the program gives up.
* `Config`, `Micro` — a program in progress beside a cache, and one step of it.
* `CoherentOff stale m tlb` — the cache agrees with the walk, except on the pages
  of `stale`.
* `Prog.Safe Q E p m stale` — the flush discipline: `p` flushes every page whose
  translation it changes before it uses it again, and ends in `Q` with none stale, or
  gives up with a text in `E`.

## Main results

* `run_loop` — **the loop rule** of the sequential meaning.
* `exists_run_of_run` — what runs sequentially runs over any cache.
* `Prog.Safe.run` — what the discipline says of the sequential meaning.
* `Micro.safe` — one step keeps coherence and the discipline.
* `Micro.run_eq` — one step keeps the sequential result.
* `idle_coherent` — **between calls the cache is coherent.**
* `idle_refines` — **between calls the memory is the sequential one.**
-/

namespace Translation

open Transition

/-- Why a program stops before its end. -/
inductive Stop
  /-- The program gave up, with the text it prints. -/
  | abort (msg : String)
  /-- An access had no translation, or a store none that is writable. -/
  | fault
  deriving DecidableEq, Repr

/-- Address translation over memories `M`: addresses `A` lie in pages `P`, a walk of
the memory yields translations `T`, and words `W` are accessed through them. -/
structure Mmu (M A P T W : Type) where
  page : A → P
  walk : M → P → Option T
  read : M → T → A → W
  write : M → T → A → W → M
  writable : T → Bool

/-- A program of loads, stores and flushes. -/
inductive Prog (A W α : Type) : Type
  /-- The end, with a result. -/
  | pure (a : α)
  /-- Load the word at `va` and go on with it. -/
  | load (va : A) (k : W → Prog A W α)
  /-- Store `w` at `va`. -/
  | store (va : A) (w : W) (k : Prog A W α)
  /-- Drop the cached translations of the page of `va`. -/
  | flush (va : A) (k : Prog A W α)
  /-- Print `msg` and stop. -/
  | abort (msg : String)

variable {M A P T W α β σ : Type}

namespace Prog

/-- Sequencing. -/
protected def bind : Prog A W α → (α → Prog A W β) → Prog A W β
  | .pure a, f => f a
  | .load va k, f => .load va fun w => (k w).bind f
  | .store va w k, f => .store va w (k.bind f)
  | .flush va k, f => .flush va (k.bind f)
  | .abort msg, _ => .abort msg

instance : Monad (Prog A W) where
  pure := .pure
  bind := .bind

@[simp] theorem pure_eq (a : α) : (Pure.pure a : Prog A W α) = .pure a := rfl

@[simp] theorem pure_bind (a : α) (f : α → Prog A W β) : (Prog.pure a >>= f) = f a := rfl

@[simp] theorem load_bind (va : A) (k : W → Prog A W α) (f : α → Prog A W β) :
    (Prog.load va k >>= f) = .load va fun w => k w >>= f := rfl

@[simp] theorem store_bind (va : A) (w : W) (k : Prog A W α) (f : α → Prog A W β) :
    (Prog.store va w k >>= f) = .store va w (k >>= f) := rfl

@[simp] theorem flush_bind (va : A) (k : Prog A W α) (f : α → Prog A W β) :
    (Prog.flush va k >>= f) = .flush va (k >>= f) := rfl

@[simp] theorem abort_bind (msg : String) (f : α → Prog A W β) :
    (Prog.abort msg >>= f) = .abort msg := rfl

/-- Load one word. -/
def read (va : A) : Prog A W W := .load va .pure

/-- Store one word. -/
def write (va : A) (w : W) : Prog A W Unit := .store va w (.pure ())

/-- Flush one page. -/
def invalidate (va : A) : Prog A W Unit := .flush va (.pure ())

@[simp] theorem read_bind (va : A) (f : W → Prog A W β) : (read va >>= f) = .load va f := rfl

@[simp] theorem write_bind (va : A) (w : W) (f : Unit → Prog A W β) :
    (write va w >>= f) = .store va w (f ()) := rfl

@[simp] theorem invalidate_bind (va : A) (f : Unit → Prog A W β) :
    (invalidate va >>= f) = .flush va (f ()) := rfl

/-- `loop n body s` runs `body 0`, …, `body (n - 1)`, threading the accumulator. -/
def loop (body : ℕ → σ → Prog A W σ) : ℕ → σ → Prog A W σ
  | 0, s => Pure.pure s
  | n + 1, s => loop body n s >>= body n

/-! ### The sequential meaning -/

/-- Run a program with every access walking the memory. -/
def run (U : Mmu M A P T W) : Prog A W α → M → Except Stop (α × M)
  | .pure a, m => .ok (a, m)
  | .load va k, m =>
    match U.walk m (U.page va) with
    | some t => (k (U.read m t va)).run U m
    | none => .error .fault
  | .store va w k, m =>
    match U.walk m (U.page va) with
    | some t => if U.writable t then k.run U (U.write m t va w) else .error .fault
    | none => .error .fault
  | .flush _ k, m => k.run U m
  | .abort msg, _ => .error (.abort msg)

section Run

variable {U : Mmu M A P T W}

@[simp] theorem run_pure (a : α) (m : M) : (Prog.pure a : Prog A W α).run U m = .ok (a, m) := rfl

@[simp] theorem run_abort (msg : String) (m : M) :
    (Prog.abort msg : Prog A W α).run U m = .error (.abort msg) := rfl

@[simp] theorem run_flush (va : A) (k : Prog A W α) (m : M) :
    (Prog.flush va k).run U m = k.run U m := rfl

theorem run_load {va : A} {m : M} {t : T} (h : U.walk m (U.page va) = some t)
    (k : W → Prog A W α) : (Prog.load va k).run U m = (k (U.read m t va)).run U m := by
  simp only [run, h]

theorem run_store {va : A} {m : M} {t : T} (h : U.walk m (U.page va) = some t)
    (hw : U.writable t = true) (w : W) (k : Prog A W α) :
    (Prog.store va w k).run U m = k.run U (U.write m t va w) := by
  simp only [run, h, hw, if_true]

theorem run_bind (p : Prog A W α) (f : α → Prog A W β) (m : M) :
    (p >>= f).run U m = (p.run U m).bind fun r => (f r.1).run U r.2 := by
  induction p generalizing m with
  | pure a => rfl
  | load va k ih =>
    rw [load_bind]
    cases h : U.walk m (U.page va) with
    | none => simp only [run, h]; rfl
    | some t => simp only [run, h]; exact ih _ m
  | store va w k ih =>
    rw [store_bind]
    cases h : U.walk m (U.page va) with
    | none => simp only [run, h]; rfl
    | some t =>
      simp only [run, h]
      split
      · exact ih _
      · rfl
  | flush va k ih => exact ih m
  | abort msg => rfl

theorem run_bind_ok {p : Prog A W α} {m m' : M} {a : α} (h : p.run U m = .ok (a, m'))
    (f : α → Prog A W β) : (p >>= f).run U m = (f a).run U m' := by
  rw [run_bind, h]; rfl

/-- **The loop rule**: an invariant that each pass carries from `i` to `i + 1`
holds, after the loop, at its bound. -/
theorem run_loop {body : ℕ → σ → Prog A W σ} (Inv : ℕ → σ → M → Prop) {n : ℕ}
    (hbody : ∀ i s m, i < n → Inv i s m →
      ∃ s' m', (body i s).run U m = .ok (s', m') ∧ Inv (i + 1) s' m')
    {s : σ} {m : M} (h0 : Inv 0 s m) :
    ∃ s' m', (loop body n s).run U m = .ok (s', m') ∧ Inv n s' m' := by
  induction n with
  | zero => exact ⟨s, m, rfl, h0⟩
  | succ n ih =>
    obtain ⟨s₁, m₁, hrun, hinv⟩ := ih fun i s m hi => hbody i s m (by omega)
    obtain ⟨s₂, m₂, hrun', hinv'⟩ := hbody n s₁ m₁ (by omega) hinv
    exact ⟨s₂, m₂, by rw [loop, run_bind_ok hrun, hrun'], hinv'⟩

/-- No branch of the program gives up, whatever it loads. -/
def NeverAborts : Prog A W α → Prop
  | .pure _ => True
  | .load _ k => ∀ w, (k w).NeverAborts
  | .store _ _ k => k.NeverAborts
  | .flush _ k => k.NeverAborts
  | .abort _ => False

/-- Such a program ends or faults, on any memory. -/
theorem NeverAborts.run_ne {p : Prog A W α} (h : p.NeverAborts) (U : Mmu M A P T W) (m : M)
    (msg : String) :
    p.run U m ≠ .error (.abort msg) := by
  induction p generalizing m with
  | pure a => simp
  | load va k ih =>
    cases hw : U.walk m (U.page va) with
    | none => simp [run, hw]
    | some t =>
      rw [run_load hw]
      exact ih _ (h _) m
  | store va w k ih =>
    cases hw : U.walk m (U.page va) with
    | none => simp [run, hw]
    | some t =>
      simp only [run, hw]
      split
      · exact ih h _
      · simp
  | flush va k ih => exact ih h m
  | abort msg' => exact absurd h id

end Run

end Prog

/-! ### Running over a cache -/

/-- A program in progress, the memory, and the cached translations. -/
structure Config (M A P T W : Type) where
  mem : M
  tlb : Set (P × T)
  prog : Prog A W Unit

/-- A translation the hardware may use for page `p`: a cached one, or the walk's. -/
def Config.Usable (U : Mmu M A P T W) (c : Config M A P T W) (p : P) (t : T) : Prop :=
  (p, t) ∈ c.tlb ∨ U.walk c.mem p = some t

/-- No call is in progress. -/
def Config.Idle (c : Config M A P T W) : Prop := c.prog = .pure ()

/-- One step over the cache: the hardware fills an entry, or the program advances. -/
inductive Micro (U : Mmu M A P T W) : Config M A P T W → Config M A P T W → Prop
  | fill {m : M} {tlb : Set (P × T)} {p : Prog A W Unit} {pg : P} {t : T} :
      U.walk m pg = some t → Micro U ⟨m, tlb, p⟩ ⟨m, insert (pg, t) tlb, p⟩
  | load {m : M} {tlb : Set (P × T)} {va : A} {k : W → Prog A W Unit} {t : T} :
      Config.Usable U ⟨m, tlb, .load va k⟩ (U.page va) t →
      Micro U ⟨m, tlb, .load va k⟩ ⟨m, tlb, k (U.read m t va)⟩
  | store {m : M} {tlb : Set (P × T)} {va : A} {w : W} {k : Prog A W Unit} {t : T} :
      Config.Usable U ⟨m, tlb, .store va w k⟩ (U.page va) t → U.writable t = true →
      Micro U ⟨m, tlb, .store va w k⟩ ⟨U.write m t va w, tlb, k⟩
  | flush {m : M} {tlb : Set (P × T)} {va : A} {k : Prog A W Unit} :
      Micro U ⟨m, tlb, .flush va k⟩ ⟨m, {e ∈ tlb | e.1 ≠ U.page va}, k⟩

/-- One step of the system that makes the calls `calls`, one after the other: a step
over the cache, or a call when none is in progress. -/
inductive SysStep (U : Mmu M A P T W) (calls : Set (Prog A W Unit)) :
    Config M A P T W → Option (Prog A W Unit) → Config M A P T W → Prop
  | micro {c c' : Config M A P T W} : Micro U c c' → SysStep U calls c none c'
  | call {c : Config M A P T W} {p : Prog A W Unit} :
      c.Idle → p ∈ calls → SysStep U calls c (some p) { c with prog := p }

/-- A program that finishes when each access walks the tables can finish over any cache. -/
theorem exists_run_of_run {U : Mmu M A P T W} {calls : Set (Prog A W Unit)}
    {p : Prog A W Unit} {m m' : M} (h : p.run U m = .ok ((), m')) (tlb : Set (P × T)) :
    ∃ ls tlb', Run (SysStep U calls) ⟨m, tlb, p⟩ ls ⟨m', tlb', .pure ()⟩ ∧ ∀ l ∈ ls, l = none := by
  induction p generalizing m tlb with
  | pure a =>
    obtain ⟨-, rfl⟩ := Prod.mk.inj (Except.ok.inj h)
    exact ⟨[], tlb, .nil _, by simp⟩
  | load va k ih =>
    cases hw : U.walk m (U.page va) with
    | none => simp [Prog.run, hw] at h
    | some t =>
      rw [Prog.run_load hw] at h
      obtain ⟨ls, tlb', hrun, hls⟩ := ih _ h tlb
      have hstep : Micro U ⟨m, tlb, .load va k⟩ _ := .load (Or.inr hw)
      exact ⟨none :: ls, tlb', .cons (.micro hstep) hrun, List.forall_mem_cons.mpr ⟨rfl, hls⟩⟩
  | store va w k ih =>
    cases hw : U.walk m (U.page va) with
    | none => simp [Prog.run, hw] at h
    | some t =>
      by_cases hwr : U.writable t = true
      · rw [Prog.run_store hw hwr] at h
        obtain ⟨ls, tlb', hrun, hls⟩ := ih h tlb
        have hstep : Micro U ⟨m, tlb, .store va w k⟩ _ := .store (Or.inr hw) hwr
        exact ⟨none :: ls, tlb', .cons (.micro hstep) hrun, List.forall_mem_cons.mpr ⟨rfl, hls⟩⟩
      · simp [Prog.run, hw, hwr] at h
  | flush va k ih =>
    obtain ⟨ls, tlb', hrun, hls⟩ := ih h {e ∈ tlb | e.1 ≠ U.page va}
    exact ⟨none :: ls, tlb', .cons (.micro .flush) hrun, List.forall_mem_cons.mpr ⟨rfl, hls⟩⟩
  | abort msg => simp at h

/-- Every cached translation is the one the walk gives, except on the pages of `stale`. -/
def CoherentOff (U : Mmu M A P T W) (stale : Set P) (m : M) (tlb : Set (P × T)) : Prop :=
  ∀ p t, (p, t) ∈ tlb → p ∉ stale → U.walk m p = some t

/-- Every cached translation is the one the walk gives. -/
def Coherent (U : Mmu M A P T W) (m : M) (tlb : Set (P × T)) : Prop :=
  ∀ p t, (p, t) ∈ tlb → U.walk m p = some t

/-- The flush discipline, with the pages whose cached translations may be stale.  A
store makes stale, at most, the pages whose present translation it changes. -/
def Prog.Safe (U : Mmu M A P T W) (Q : α → M → Prop) (E : String → Prop) :
    Prog A W α → M → Set P → Prop
  | .pure a, m, stale => stale = ∅ ∧ Q a m
  | .load va k, m, stale =>
    U.page va ∉ stale ∧ ∃ t, U.walk m (U.page va) = some t ∧
      (k (U.read m t va)).Safe U Q E m stale
  | .store va w k, m, stale =>
    U.page va ∉ stale ∧ ∃ t, U.walk m (U.page va) = some t ∧ U.writable t = true ∧
      ∃ stale', (∀ p, p ∉ stale' → p ∉ stale ∧
          ∀ t', U.walk m p = some t' → U.walk (U.write m t va w) p = some t') ∧
        k.Safe U Q E (U.write m t va w) stale'
  | .flush va k, m, stale => k.Safe U Q E m (stale \ {U.page va})
  | .abort msg, _, _ => E msg

namespace Prog.Safe

variable {U : Mmu M A P T W} {Q Q' : α → M → Prop} {E E' : String → Prop}

/-- The rule of consequence. -/
theorem imp (hQ : ∀ a m, Q a m → Q' a m) (hE : ∀ msg, E msg → E' msg) {p : Prog A W α} {m : M}
    {stale : Set P} (h : p.Safe U Q E m stale) : p.Safe U Q' E' m stale := by
  induction p generalizing m stale with
  | pure a => exact ⟨h.1, hQ a m h.2⟩
  | load va k ih =>
    obtain ⟨hpage, t, hw, hk⟩ := h
    exact ⟨hpage, t, hw, ih _ hk⟩
  | store va w k ih =>
    obtain ⟨hpage, t, hw, hwr, stale', hkeep, hk⟩ := h
    exact ⟨hpage, t, hw, hwr, stale', hkeep, ih hk⟩
  | flush va k ih => exact ih h
  | abort msg => exact hE msg h

/-- **The discipline bounds the sequential run**: it never faults, and ends in `Q` or
gives up with a text in `E`. -/
theorem run {p : Prog A W α} {m : M} {stale : Set P} (h : p.Safe U Q E m stale) :
    (∃ msg, p.run U m = .error (.abort msg) ∧ E msg) ∨
      ∃ a m', p.run U m = .ok (a, m') ∧ Q a m' := by
  induction p generalizing m stale with
  | pure a => exact Or.inr ⟨a, m, rfl, h.2⟩
  | load va k ih =>
    obtain ⟨-, t, hw, hk⟩ := h
    rw [run_load hw]
    exact ih _ hk
  | store va w k ih =>
    obtain ⟨-, t, hw, hwr, stale', -, hk⟩ := h
    rw [run_store hw hwr]
    exact ih hk
  | flush va k ih => exact ih h
  | abort msg => exact Or.inl ⟨msg, rfl, h⟩

end Prog.Safe

section Coherence

variable {U : Mmu M A P T W} {Q : Unit → M → Prop} {E : String → Prop}

/-- Off the stale pages the hardware has no choice of translation. -/
theorem Config.Usable.walk {c : Config M A P T W} {stale : Set P} {p : P} {t : T}
    (hco : CoherentOff U stale c.mem c.tlb) (hp : p ∉ stale) (h : c.Usable U p t) :
    U.walk c.mem p = some t := by
  rcases h with h | h
  · exact hco p t h hp
  · exact h

/-- One step over the cache keeps coherence off the stale pages and the discipline. -/
theorem Micro.safe {c c' : Config M A P T W} (h : Micro U c c') {stale : Set P}
    (hco : CoherentOff U stale c.mem c.tlb) (hs : c.prog.Safe U Q E c.mem stale) :
    ∃ stale', CoherentOff U stale' c'.mem c'.tlb ∧ c'.prog.Safe U Q E c'.mem stale' := by
  cases h with
  | fill hw =>
    refine ⟨stale, ?_, hs⟩
    intro p t hpt hp
    rcases hpt with heq | hpt
    · obtain ⟨rfl, rfl⟩ := Prod.mk.inj heq
      exact hw
    · exact hco p t hpt hp
  | load hu =>
    -- the page is not stale, so a cached translation is the walk's
    obtain ⟨hpage, t, hw, hk⟩ := hs
    have ht := Option.some.inj (hw.symm.trans (hu.walk hco hpage))
    exact ⟨stale, hco, ht ▸ hk⟩
  | store hu _ =>
    obtain ⟨hpage, t, hw, -, stale', hkeep, hk⟩ := hs
    have ht := Option.some.inj (hw.symm.trans (hu.walk hco hpage))
    subst ht
    -- what the store changes is in `stale'` until it is flushed
    refine ⟨stale', ?_, hk⟩
    intro p t' hpt hp
    obtain ⟨hp', hstep⟩ := hkeep p hp
    exact hstep t' (hco p t' hpt hp')
  | @flush m tlb va k =>
    refine ⟨stale \ {U.page va}, ?_, hs⟩
    intro p t hpt hp
    refine hco p t hpt.1 fun hps => hp ⟨hps, ?_⟩
    exact hpt.2

/-- One step over the cache keeps the sequential result. -/
theorem Micro.run_eq {c c' : Config M A P T W} (h : Micro U c c') {stale : Set P}
    (hco : CoherentOff U stale c.mem c.tlb) (hs : c.prog.Safe U Q E c.mem stale) :
    c'.prog.run U c'.mem = c.prog.run U c.mem := by
  cases h with
  | fill hw => rfl
  | load hu => exact (Prog.run_load (hu.walk hco hs.1) _).symm
  | store hu hw => exact (Prog.run_store (hu.walk hco hs.1) hw _ _).symm
  | flush => rfl

/-- The sequential effect of one call after another. -/
def runCalls (U : Mmu M A P T W) (ps : List (Prog A W Unit)) (m : M) : Except Stop M :=
  ps.foldlM (fun m p => (p.run U m).map Prod.snd) m

/-- What a configuration satisfies when it was reached by calls that keep `Inv` and
the discipline: coherence off some stale pages, and the sequential result. -/
structure Tracks (U : Mmu M A P T W) (Inv : M → Prop) (E : String → Prop) (m₀ : M)
    (c : Config M A P T W) (ps : List (Prog A W Unit)) : Prop where
  safe : ∃ stale, CoherentOff U stale c.mem c.tlb ∧ c.prog.Safe U (fun _ => Inv) E c.mem stale
  seq : runCalls U ps m₀ = (c.prog.run U c.mem).map Prod.snd

/-- A step of the system keeps the tracking relation. -/
theorem SysStep.tracks {calls : Set (Prog A W Unit)} {Inv : M → Prop}
    (hcalls : ∀ p ∈ calls, ∀ m, Inv m → p.Safe U (fun _ => Inv) E m ∅) {m₀ : M}
    {c c' : Config M A P T W} {l : Option (Prog A W Unit)} (h : SysStep U calls c l c')
    {ps : List (Prog A W Unit)} (ht : Tracks U Inv E m₀ c ps) :
    Tracks U Inv E m₀ c' (ps ++ l.toList) := by
  obtain ⟨⟨stale, hco, hs⟩, hseq⟩ := ht
  cases h with
  | micro hm =>
    refine ⟨hm.safe hco hs, ?_⟩
    rw [Option.toList_none, List.append_nil, hseq, hm.run_eq hco hs]
  | @call p hidle hp =>
    rw [hidle] at hs hseq
    -- the last call ended with no stale page, so the next one starts with none
    obtain ⟨rfl, hinv⟩ := hs
    refine ⟨⟨∅, hco, hcalls p hp c.mem hinv⟩, ?_⟩
    have hm : runCalls U ps m₀ = .ok c.mem := hseq
    rw [Option.toList_some, runCalls, List.foldlM_append, ← runCalls, hm]
    exact bind_pure (m := Except Stop) _

/-- Every configuration reached from an idle one is tracked. -/
theorem Run.tracks {calls : Set (Prog A W Unit)} {Inv : M → Prop}
    (hcalls : ∀ p ∈ calls, ∀ m, Inv m → p.Safe U (fun _ => Inv) E m ∅)
    {c₀ c : Config M A P T W} {ls : List (Option (Prog A W Unit))}
    (h : Run (SysStep U calls) c₀ ls c) (hidle : c₀.Idle)
    (hinv : Inv c₀.mem) (hco : Coherent U c₀.mem c₀.tlb) :
    Tracks U Inv E c₀.mem c (ls.foldl (fun ps l => ps ++ l.toList) []) := by
  refine h.simulates (R := Tracks U Inv E c₀.mem)
    (fun _ _ _ _ hstep ht => hstep.tracks hcalls ht) ⟨⟨∅, ?_, ?_⟩, ?_⟩
  · exact fun p t hpt _ => hco p t hpt
  · rw [hidle]; exact ⟨rfl, hinv⟩
  · rw [hidle]; rfl

/-- **Between calls the cache is coherent**, and the invariant holds. -/
theorem idle_coherent {calls : Set (Prog A W Unit)} {Inv : M → Prop}
    (hcalls : ∀ p ∈ calls, ∀ m, Inv m → p.Safe U (fun _ => Inv) E m ∅)
    {c₀ c : Config M A P T W} {ls : List (Option (Prog A W Unit))}
    (h : Run (SysStep U calls) c₀ ls c) (hidle₀ : c₀.Idle)
    (hinv : Inv c₀.mem) (hco : Coherent U c₀.mem c₀.tlb) (hidle : c.Idle) :
    Coherent U c.mem c.tlb ∧ Inv c.mem := by
  obtain ⟨⟨stale, hco', hs⟩, -⟩ := Run.tracks hcalls h hidle₀ hinv hco
  rw [hidle] at hs
  obtain ⟨rfl, hinv'⟩ := hs
  exact ⟨fun p t hpt => hco' p t hpt (Set.notMem_empty p), hinv'⟩

/-- **Between calls the memory is the sequential one**: whatever the cache did, it is
the memory that running the calls in order, each walking the tables, would leave. -/
theorem idle_refines {calls : Set (Prog A W Unit)} {Inv : M → Prop}
    (hcalls : ∀ p ∈ calls, ∀ m, Inv m → p.Safe U (fun _ => Inv) E m ∅)
    {c₀ c : Config M A P T W} {ls : List (Option (Prog A W Unit))}
    (h : Run (SysStep U calls) c₀ ls c) (hidle₀ : c₀.Idle)
    (hinv : Inv c₀.mem) (hco : Coherent U c₀.mem c₀.tlb) (hidle : c.Idle) :
    runCalls U (ls.foldl (fun ps l => ps ++ l.toList) []) c₀.mem = .ok c.mem := by
  rw [(Run.tracks hcalls h hidle₀ hinv hco).seq, hidle]
  rfl

end Coherence

end Translation
