import MVK.Word

/-!
# The heap lock

The C library brackets every operation on its heap with `liballoc_lock` and
`liballoc_unlock`, which the kernel implements as `cli` and `sti`.  So the unlock sets
the interrupt flag whatever it was before, and restores it only for sections that are
entered with interrupts on.

A run is a nest of brackets: sections of the heap, and interrupt handlers, for which the
gate saves and clears the flag and `iret` restores it.

## Main definitions

* `liballocLock`, `liballocUnlock` — the hooks.
* `Nesting` — the well-nested runs.
* `Restores` — each section runs with the flag clear and restores it.

## Main results

* `heap_lock_restores_iff` — **exactly when the lock restores the flag.**
* `HeapRequest.restores` — requests of the heap from code with interrupts on.
-/

namespace MVK

/-! ### The hooks -/

/-- The interrupt flag, and the flags saved by the handlers that are running, the
innermost first. -/
structure FlagState where
  interruptFlag : Bool
  saved : List Bool

/-- `liballoc_lock`: `cli`. -/
def liballocLock (s : FlagState) : ℤ × FlagState := (0, { s with interruptFlag := false })

/-- `liballoc_unlock`: `sti`. -/
def liballocUnlock (s : FlagState) : ℤ × FlagState := (0, { s with interruptFlag := true })

/-- The processor goes through an interrupt gate. -/
def enterHandler (s : FlagState) : FlagState where
  interruptFlag := false
  saved := s.interruptFlag :: s.saved

/-- `iret`. -/
def leaveHandler : FlagState → FlagState
  | ⟨_, flag :: saved⟩ => ⟨flag, saved⟩
  | ⟨flag, []⟩ => ⟨flag, []⟩

inductive FlagEvent
  | lock
  | unlock
  | enter
  | leave

def FlagEvent.step (s : FlagState) : FlagEvent → FlagState
  | .lock => (liballocLock s).2
  | .unlock => (liballocUnlock s).2
  | .enter => enterHandler s
  | .leave => leaveHandler s

/-- The state after a list of events. -/
def FlagState.after (s : FlagState) (es : List FlagEvent) : FlagState := es.foldl FlagEvent.step s

@[simp] theorem after_nil (s : FlagState) : s.after [] = s := rfl

@[simp] theorem after_cons (s : FlagState) (e : FlagEvent) (es : List FlagEvent) :
    s.after (e :: es) = (e.step s).after es := rfl

@[simp] theorem after_append (s : FlagState) (es fs : List FlagEvent) :
    s.after (es ++ fs) = (s.after es).after fs :=
  List.foldl_append

/-- The flag is clear before the first event, and after each. -/
def ClearDuring : FlagState → List FlagEvent → Prop
  | s, [] => s.interruptFlag = false
  | s, e :: es => s.interruptFlag = false ∧ ClearDuring (e.step s) es

theorem clearDuring_append {s : FlagState} {es fs : List FlagEvent} :
    ClearDuring s (es ++ fs) ↔ ClearDuring s es ∧ ClearDuring (s.after es) fs := by
  induction es generalizing s with
  | nil =>
    cases fs with
    | nil => simp [ClearDuring]
    | cons f fs => simp [ClearDuring]
  | cons e es ih => simp only [List.cons_append, ClearDuring, after_cons, ih, and_assoc]

/-! ### Well-nested runs -/

/-- A well-nested run of sections and handlers. -/
inductive Nesting
  | done
  /-- A section of the heap, what runs inside it, and the rest. -/
  | locked (body next : Nesting)
  /-- An interrupt, what its handler runs, and the rest. -/
  | handler (body next : Nesting)

namespace Nesting

/-- The events of a run. -/
def events : Nesting → List FlagEvent
  | done => []
  | locked body next => .lock :: (body.events ++ .unlock :: next.events)
  | handler body next => .enter :: (body.events ++ .leave :: next.events)

/-- **What the lock is for**: from each lock to its unlock the flag is clear, and after the
unlock it is as before the lock. -/
def Restores : FlagState → Nesting → Prop
  | _, done => True
  | s, locked body next =>
    ClearDuring (FlagEvent.lock.step s) body.events ∧
      (s.after (.lock :: (body.events ++ [.unlock]))).interruptFlag = s.interruptFlag ∧
      Restores (FlagEvent.lock.step s) body ∧
      Restores (s.after (.lock :: (body.events ++ [.unlock]))) next
  | s, handler body next =>
    Restores (FlagEvent.enter.step s) body ∧
      Restores (s.after (.enter :: (body.events ++ [.leave]))) next

/-- The run opens no section. -/
def NoSection : Nesting → Prop
  | done => True
  | locked _ _ => False
  | handler body next => body.NoSection ∧ next.NoSection

/-- No section is opened inside another, or inside a handler. -/
def Mainline : Nesting → Prop
  | done => True
  | locked body next => body.NoSection ∧ next.Mainline
  | handler body next => body.NoSection ∧ next.Mainline

/-- What one section leaves. -/
theorem after_locked (s : FlagState) (es : List FlagEvent) :
    (s.after (.lock :: (es ++ [.unlock]))).interruptFlag = true := by
  rw [after_cons, after_append]
  rfl

/-- A run without sections leaves everything as it was. -/
theorem after_of_noSection {n : Nesting} (hn : n.NoSection) (s : FlagState) :
    s.after n.events = s := by
  induction n generalizing s with
  | done => rfl
  | locked body next _ _ => exact absurd hn id
  | handler body next ihb ihn =>
    rw [events, after_cons, after_append, ihb hn.1, after_cons, ihn hn.2]
    rfl

theorem after_handler_of_noSection {n : Nesting} (hn : n.NoSection) (s : FlagState) :
    s.after (.enter :: (n.events ++ [.leave])) = s := by
  rw [after_cons, after_append, after_of_noSection hn]
  rfl

/-- Without sections, a flag that is clear stays clear. -/
theorem clearDuring_of_noSection {n : Nesting} (hn : n.NoSection) {s : FlagState}
    (hs : s.interruptFlag = false) : ClearDuring s n.events := by
  induction n generalizing s with
  | done => exact hs
  | locked body next _ _ => exact absurd hn id
  | handler body next ihb ihn =>
    refine ⟨hs, clearDuring_append.mpr ⟨ihb hn.1 rfl, ?_⟩⟩
    rw [after_of_noSection hn.1]
    exact ⟨rfl, ihn hn.2 hs⟩

theorem restores_of_noSection {n : Nesting} (hn : n.NoSection) (s : FlagState) :
    Restores s n := by
  induction n generalizing s with
  | done => trivial
  | locked body next _ _ => exact absurd hn id
  | handler body next ihb ihn => exact ⟨ihb hn.1 _, ihn hn.2 _⟩

/-- Entered with the flag clear, only a run without sections restores it. -/
theorem noSection_of_restores {n : Nesting} {s : FlagState} (hs : s.interruptFlag = false)
    (h : Restores s n) : n.NoSection := by
  induction n generalizing s with
  | done => trivial
  | locked body next _ _ =>
    have hflag := h.2.1
    rw [after_locked, hs] at hflag
    exact absurd hflag (by decide)
  | handler body next ihb ihn =>
    have hbody : body.NoSection := ihb rfl h.1
    have hnext := h.2
    rw [after_handler_of_noSection hbody] at hnext
    exact ⟨hbody, ihn hs hnext⟩

/-- Entered with the flag set, a run restores it when its sections are mainline code. -/
theorem restores_iff_mainline {n : Nesting} {s : FlagState} (hs : s.interruptFlag = true) :
    Restores s n ↔ n.Mainline := by
  induction n generalizing s with
  | done => exact Iff.rfl
  | locked body next _ ihn =>
    rw [Restores, Mainline, ihn (after_locked s body.events), after_locked, hs]
    constructor
    · rintro ⟨-, -, hbody, hnext⟩
      exact ⟨noSection_of_restores rfl hbody, hnext⟩
    · rintro ⟨hbody, hnext⟩
      exact ⟨clearDuring_of_noSection hbody rfl, rfl, restores_of_noSection hbody _, hnext⟩
  | handler body next _ ihn =>
    rw [Restores, Mainline]
    constructor
    · rintro ⟨hbody, hnext⟩
      have hno := noSection_of_restores rfl hbody
      rw [after_handler_of_noSection hno, ihn hs] at hnext
      exact ⟨hno, hnext⟩
    · rintro ⟨hno, hnext⟩
      rw [after_handler_of_noSection hno, ihn hs]
      exact ⟨restores_of_noSection hno _, hnext⟩

end Nesting

open Nesting

/-- **When the heap lock restores the interrupt flag**: a run opens no section at all; or it
starts with interrupts on, and opens none inside another or inside a handler. -/
theorem heap_lock_restores_iff (s : FlagState) (n : Nesting) :
    Restores s n ↔ n.NoSection ∨ (s.interruptFlag = true ∧ n.Mainline) := by
  cases hs : s.interruptFlag with
  | false =>
    refine ⟨fun h => Or.inl (noSection_of_restores hs h), ?_⟩
    rintro (hno | ⟨hflag, -⟩)
    · exact restores_of_noSection hno s
    · exact absurd hflag (by decide)
  | true =>
    rw [restores_iff_mainline hs]
    refine ⟨fun h => Or.inr ⟨rfl, h⟩, ?_⟩
    rintro (hno | ⟨-, hmain⟩)
    · exact (restores_iff_mainline hs).mp (restores_of_noSection hno s)
    · exact hmain

/-- One section, entered with interrupts off, leaves them on. -/
theorem heap_unlock_enables_interrupts :
    ((⟨false, []⟩ : FlagState).after (locked done done).events).interruptFlag = true ∧
      ¬ Restores ⟨false, []⟩ (locked done done) := by
  refine ⟨rfl, ?_⟩
  rintro ⟨-, hflag, -⟩
  exact absurd hflag (by decide)

/-! ### The sections of the library -/

/-- A call of the C library's heap, with the arguments that decide which sections it opens. -/
inductive HeapRequest
  | malloc
  | calloc
  | free (ptr : Word)
  | realloc (ptr size : Word)

namespace HeapRequest

/-- The sections of `malloc`, which unlocks once on each of its paths. -/
def mallocSections (next : Nesting) : Nesting := locked done next

/-- The sections of `free`. -/
def freeSections (ptr : Word) (next : Nesting) : Nesting :=
  if ptr = 0 then next else locked done next

/-- The sections of a call. -/
def sections (next : Nesting) : HeapRequest → Nesting
  | malloc => mallocSections next
  | calloc => mallocSections next
  | free ptr => freeSections ptr next
  | realloc ptr size =>
    if size = 0 then freeSections ptr next
    else if ptr = 0 then mallocSections next
    else locked done (mallocSections (freeSections ptr next))

theorem mainline_mallocSections {next : Nesting} (h : next.Mainline) :
    (mallocSections next).Mainline :=
  ⟨trivial, h⟩

theorem mainline_freeSections (ptr : Word) {next : Nesting} (h : next.Mainline) :
    (freeSections ptr next).Mainline := by
  unfold freeSections
  split
  · exact h
  · exact ⟨trivial, h⟩

theorem mainline_sections {next : Nesting} (h : next.Mainline) (c : HeapRequest) :
    (c.sections next).Mainline := by
  cases c with
  | malloc => exact mainline_mallocSections h
  | calloc => exact mainline_mallocSections h
  | free ptr => exact mainline_freeSections ptr h
  | realloc ptr size =>
    rw [sections]
    split
    · exact mainline_freeSections ptr h
    · split
      · exact mainline_mallocSections h
      · exact ⟨trivial, mainline_mallocSections (mainline_freeSections ptr h)⟩

/-- **Requests from code that runs with interrupts on** restore the flag, all of them. -/
theorem restores (cs : List HeapRequest) {s : FlagState} (hs : s.interruptFlag = true) :
    Restores s (cs.foldr (fun c next => c.sections next) done) := by
  rw [restores_iff_mainline hs]
  induction cs with
  | nil => trivial
  | cons c cs ih => exact mainline_sections ih c

end HeapRequest

end MVK
