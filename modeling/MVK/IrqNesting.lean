import MVK.Lib.Runs
import MVK.Pic

/-!
# Nested interrupts

A handler that lets interrupts in may be interrupted, by what the controllers let through
while it is in service, and is over for them when it has sent the end of interrupt.  The
end names no level.  So it matters that the first level in service is that of the handler
that sends it, whatever devices do in between, and between the two writes that an interrupt
of the slave ends with.

## Main definitions

* `Handler`, `Irqs` — the handlers that are not over, the innermost first, with the pair.
* `IrqLabel`, `Irqs.step` — what devices, the processor and the innermost handler do.
* `InService` — the levels in service are those of the handlers.

## Main results

* `in_service_iff` — **exactly when the levels in service are those of the handlers.**
* `interrupts_in_order` — which interrupts are taken, and what they interrupt.
* `requests_served_once` — **no request is lost, and none is served twice.**
-/

namespace MVK

open Preemption Transition

/-- A handler that has not sent its end of interrupt, with the number that its stub pushes and
what it still has to send.  `source` is what the interrupt was for. -/
structure Handler where
  source : Source
  number : Fin 16
  todo : List Event

/-- The level that the handler is in service at in the master. -/
def Handler.masterLevel (h : Handler) : Option (Fin 8) := h.source.masterLevel

/-- The same in the slave, which is told first. -/
def Handler.slaveLevel (h : Handler) : Option (Fin 8) :=
  if .outb 0xA0 0x20 ∈ h.todo then h.source.slaveLevel else none

/-- The pair and the handlers.  `latched` are the lines that were raised, when they were not
waiting already; `served` are the numbers that the interrupts of lines were handled under. -/
structure Irqs where
  pics : Pics
  handlers : List Handler
  latched : List (Fin 16)
  served : List (Fin 16)

/-- What happens. -/
inductive IrqLabel
  | raise (n : Fin 16)
  | lower (n : Fin 16)
  | take (gone late : Finset (Fin 16))
  | out

/-- What a handler sends reaches the pair. -/
def Pics.event (c : Pics) : Event → Option Pics
  | .call _ _ => some c
  | .outb port value => c.outb port value

/-- A device raises or lowers its line; the processor, when it is interrupted, asks for the
vector, after some lines were lowered again, and goes to the handler of the vector; or the
innermost handler sends the next of what its end of interrupt takes. -/
def Irqs.step (s : Irqs) : IrqLabel → Option Irqs
  | .raise n =>
    if n = masterLine cascadeInput then none
    else some { s with
      pics := s.pics.raise n
      latched := if s.pics.Waits n then s.latched else n :: s.latched }
  | .lower n => some { s with pics := s.pics.withdraw {n} }
  | .take gone late =>
    if s.pics.asserts then do
      let c := s.pics.withdraw gone
      let (vector, pics) ← c.acknowledge late
      let n ← irqOf vector
      return { s with
        pics
        handlers := ⟨c.source late, n, picEoi ((BitVec.ofNat 32 n).setWidth 8)⟩ :: s.handlers
        served := match c.source late with
          | .line _ => n :: s.served
          | _ => s.served }
    else none
  | .out =>
    match s.handlers with
    | [] => none
    | h :: hs =>
      match h.todo with
      | [] => none
      | event :: todo => do
        let pics ← s.pics.event event
        return { s with pics, handlers := if todo = [] then hs else { h with todo } :: hs }

/-- The levels in service are those of the handlers. -/
structure InService (s : Irqs) : Prop where
  master : Serves s.pics.master.isr (s.handlers.filterMap Handler.masterLevel)
  slave : Serves s.pics.slave.isr (s.handlers.filterMap Handler.slaveLevel)

/-- The handler runs under the number of its source, with some of its end of interrupt left. -/
structure Handler.Sound (h : Handler) : Prop where
  number : h.number = h.source.irq
  todo : h.todo = endOfInterrupt h.number ∨ 8 ≤ h.number.val ∧ h.todo = [.outb 0x20 0x20]

/-- The pair stays as it was set up, and the handlers are those of the kernel. -/
structure Irqs.Sound (s : Irqs) : Prop where
  remapped : s.pics.Remapped
  handlers : ∀ h ∈ s.handlers, h.Sound

/-! ### What a step can do -/

/-- The innermost handler sends to the slave, or to the master, and then it is over. -/
theorem out_cases {s t : Irqs} (hs : s.Sound) (ht : s.step .out = some t) :
    ∃ h hs, s.handlers = h :: hs ∧
      (8 ≤ h.number.val ∧ .outb 0xA0 0x20 ∈ h.todo ∧
          t = { s with
            pics.slave.isr := endFirst s.pics.slave.isr
            handlers := { h with todo := [.outb 0x20 0x20] } :: hs } ∨
        .outb 0xA0 0x20 ∉ h.todo ∧
          t = { s with pics.master.isr := endFirst s.pics.master.isr, handlers := hs }) := by
  rw [Irqs.step] at ht
  cases hhandlers : s.handlers with
  | nil => simp [hhandlers] at ht
  | cons h hs' =>
    refine ⟨h, hs', rfl, ?_⟩
    have hmaster : h.todo = [.outb 0x20 0x20] →
        t = { s with pics.master.isr := endFirst s.pics.master.isr, handlers := hs' } := by
      intro htodo
      rw [hhandlers] at ht
      simp only [htodo] at ht
      exact (Option.some.inj ht).symm
    rcases (hs.handlers h (hhandlers ▸ List.mem_cons_self)).todo with htodo | ⟨hirq, htodo⟩
    · rw [endOfInterrupt] at htodo
      split at htodo
      · next hirq =>
        refine Or.inl ⟨hirq, by simp [htodo], ?_⟩
        rw [hhandlers] at ht
        simp only [htodo] at ht
        exact (Option.some.inj ht).symm
      · exact Or.inr ⟨by simp [htodo], hmaster htodo⟩
    · exact Or.inr ⟨by simp [htodo], hmaster htodo⟩

/-- The answer leaves the pair as it was set up. -/
theorem Answers.remapped {c c' : Pics} {late : Finset (Fin 16)} {source : Source}
    (h : Answers c late source c') (hc : c.Remapped) : c'.Remapped := by
  cases h with
  | line request ne => exact ⟨hc.master, hc.slave, hc.3, hc.4, hc.5, hc.6⟩
  | slaveLine request slave => exact ⟨hc.master, hc.slave, hc.3, hc.4, hc.5, hc.6⟩
  | spurious request => exact ⟨hc.master, hc.slave, hc.3, hc.4, hc.5, hc.6⟩
  | spuriousSlave request slave => exact ⟨hc.master, hc.slave, hc.3, hc.4, hc.5, hc.6⟩

/-- The processor goes to the handler of the source. -/
theorem take_cases {s t : Irqs} {gone late : Finset (Fin 16)} (hs : s.Sound)
    (ht : s.step (.take gone late) = some t) :
    ∃ source c', s.pics.asserts = true ∧ source = (s.pics.withdraw gone).source late ∧
      Answers (s.pics.withdraw gone) late source c' ∧
      t = { s with
        pics := c'
        handlers := ⟨source, source.irq, endOfInterrupt source.irq⟩ :: s.handlers
        served := match source with
          | .line n => n :: s.served
          | _ => s.served } := by
  have hc : (s.pics.withdraw gone).Remapped :=
    ⟨hs.remapped.1, hs.remapped.2, hs.remapped.3, hs.remapped.4, hs.remapped.5, hs.remapped.6⟩
  obtain ⟨vector, c', hack, hirq, hanswers⟩ := acknowledge_eq hc late
  rw [Irqs.step] at ht
  split at ht
  · next hasserts =>
    refine ⟨_, c', hasserts, rfl, hanswers, ?_⟩
    simp only [hack, hirq, Option.bind_eq_bind, Option.bind_some, picEoi_irq] at ht
    rw [← Option.some.inj ht]
    cases (s.pics.withdraw gone).source late <;> rfl
  · cases ht

/-! ### Levels and handlers -/

/-- The innermost handler comes before the other levels in service at the master, so a handler
at the slave's input is the only one. -/
theorem slaveLevels_nil {h : Handler} {hs : List Handler} {service : Finset (Fin 8)}
    (hserves : Serves service ((h :: hs).filterMap Handler.masterLevel))
    (hlevel : h.masterLevel = some cascadeInput) : hs.filterMap Handler.slaveLevel = [] := by
  rw [List.filterMap_cons_some hlevel] at hserves
  refine List.eq_nil_iff_forall_not_mem.mpr fun j hj => ?_
  obtain ⟨h', hmem, hj'⟩ := List.mem_filterMap.mp hj
  have hcascade : h'.masterLevel = some cascadeInput := by
    unfold Handler.slaveLevel at hj'
    split at hj'
    · exact masterLevel_of_slaveLevel hj'
    · cases hj'
  have hlt := List.rel_of_pairwise_cons hserves.ordered
    (List.mem_filterMap.mpr ⟨h', hmem, hcascade⟩)
  exact absurd hlt (lt_irrefl _)

/-- The slave is told for its own interrupts only. -/
theorem slaveLevel_of_source (source : Source) :
    (Handler.mk source source.irq (endOfInterrupt source.irq)).slaveLevel = source.slaveLevel := by
  cases source with
  | line n => revert n; decide
  | spurious => rfl
  | spuriousSlave => rfl

/-- **Taking an interrupt** puts its handler on the stack. -/
theorem InService.take {s t : Irqs} {gone late : Finset (Fin 16)} (hs : s.Sound)
    (h : InService s) (ht : s.step (.take gone late) = some t) : InService t := by
  obtain ⟨source, c', -, -, hanswers, rfl⟩ := take_cases hs ht
  have hslave := slaveLevel_of_source source
  cases hanswers with
  | @line i request ne =>
    obtain ⟨-, hbefore, -⟩ := winner_eq_some.mp request
    exact ⟨h.master.cons_some (masterLevel_masterLine i) hbefore,
      h.slave.cons_none (hslave.trans (slaveLevel_masterLine i))⟩
  | @slaveLine j request slave =>
    obtain ⟨-, hbefore, -⟩ := winner_eq_some.mp request
    obtain ⟨-, hbefore', -⟩ := winner_eq_some.mp slave
    exact ⟨h.master.cons_some (masterLevel_slaveLine j) hbefore,
      h.slave.cons_some (hslave.trans (slaveLevel_slaveLine j)) hbefore'⟩
  | spurious request => exact ⟨h.master.cons_none rfl, h.slave.cons_none hslave⟩
  | spuriousSlave request slave =>
    obtain ⟨-, hbefore, -⟩ := winner_eq_some.mp request
    exact ⟨h.master.cons_some rfl hbefore, h.slave.cons_none hslave⟩

/-- The innermost handler is spurious, and sends its end while another is in service. -/
def Irqs.EndsAnother (s : Irqs) : Prop :=
  ∃ h hs, s.handlers = h :: hs ∧ h.source = .spurious ∧ hs.filterMap Handler.masterLevel ≠ []

/-- A source with no level in the master is none of its interrupts. -/
theorem masterLevel_eq_none {source : Source} : source.masterLevel = none ↔ source = .spurious := by
  cases source with
  | line n =>
    simp only [Source.masterLevel, reduceCtorEq, iff_false]
    split <;> exact Option.some_ne_none _
  | spurious => simp [Source.masterLevel]
  | spuriousSlave => simp [Source.masterLevel]

/-- A handler of the slave is in service at the cascade's input in the master. -/
theorem masterLevel_of_le_irq {g : Handler} (hirq : 8 ≤ g.source.irq.val) :
    g.masterLevel = some cascadeInput := by
  rw [Handler.masterLevel]
  cases hsource : g.source with
  | line n =>
    rw [hsource] at hirq
    exact dif_neg (Nat.not_lt.mpr hirq)
  | spurious => simp [hsource, Source.irq] at hirq
  | spuriousSlave => rfl

theorem endsAnother_iff {s : Irqs} {g : Handler} {gs : List Handler}
    (hhandlers : s.handlers = g :: gs) :
    s.EndsAnother ↔ g.source = .spurious ∧ gs.filterMap Handler.masterLevel ≠ [] := by
  constructor
  · rintro ⟨g', gs', heq, hspurious, hne⟩
    rw [hhandlers] at heq
    obtain ⟨rfl, rfl⟩ := List.cons.inj heq
    exact ⟨hspurious, hne⟩
  · exact fun ⟨hspurious, hne⟩ => ⟨g, gs, hhandlers, hspurious, hne⟩

/-- **Sending an end of interrupt**, exactly. -/
theorem inService_out_iff {s t : Irqs} (hs : s.Sound) (h : InService s)
    (ht : s.step .out = some t) : InService t ↔ ¬ s.EndsAnother := by
  obtain ⟨g, gs, hhandlers, ⟨hirq, htodo, rfl⟩ | ⟨htodo, rfl⟩⟩ := out_cases hs ht
  all_goals rw [endsAnother_iff hhandlers]
  · -- the slave is told, and the master still has the handler in service
    have hnumber := (hs.handlers g (hhandlers ▸ List.mem_cons_self)).number
    rw [hnumber] at hirq
    have hne : g.source ≠ .spurious := fun heq => by simp [heq, Source.irq] at hirq
    have hmaster := h.master
    have hslave := h.slave
    rw [hhandlers] at hmaster hslave
    refine iff_of_true ⟨hmaster, ?_⟩ fun hends => hne hends.1
    have hnone : Handler.slaveLevel { g with todo := [.outb 0x20 0x20] } = none :=
      if_neg (by simp)
    cases hlevel : g.slaveLevel with
    | none =>
      -- a spurious interrupt of the slave: nothing of it is in service
      have hnil := slaveLevels_nil hmaster (masterLevel_of_le_irq hirq)
      rw [List.filterMap_cons_none hlevel, hnil] at hslave
      rw [List.filterMap_cons_none hnone, hnil]
      change Serves (endFirst s.pics.slave.isr) []
      rw [hslave.eq_empty]
      exact Serves.nil
    | some j =>
      rw [List.filterMap_cons_some hlevel] at hslave
      rw [List.filterMap_cons_none hnone]
      exact hslave.leave
  · have hmaster := h.master
    have hslave := h.slave
    have hnone : g.slaveLevel = none := if_neg htodo
    rw [hhandlers] at hmaster hslave
    rw [List.filterMap_cons_none hnone] at hslave
    cases hlevel : g.masterLevel with
    | none =>
      have hspurious := masterLevel_eq_none.mp hlevel
      rw [List.filterMap_cons_none hlevel] at hmaster
      cases hgs : gs.filterMap Handler.masterLevel with
      | nil =>
        rw [hgs] at hmaster
        refine iff_of_true ⟨?_, hslave⟩ fun hne => hne.2 rfl
        change Serves (endFirst s.pics.master.isr) (gs.filterMap Handler.masterLevel)
        rw [hgs, hmaster.eq_empty]
        exact Serves.nil
      | cons i levels =>
        rw [hgs] at hmaster
        refine iff_of_false (fun hin => hmaster.not_endFirst ?_)
          (not_not.mpr ⟨hspurious, List.cons_ne_nil i levels⟩)
        rw [← hgs]
        exact hin.master
    | some i =>
      rw [List.filterMap_cons_some hlevel] at hmaster
      have hne : g.source ≠ .spurious := fun heq => by
        rw [Handler.masterLevel, masterLevel_eq_none.mpr heq] at hlevel
        cases hlevel
      exact iff_of_true ⟨hmaster.leave, hslave⟩ fun hends => hne hends.1

/-! ### Runs -/

/-- Devices and handlers do what they do, and interrupts are taken. -/
abbrev IrqStep (s : Irqs) (i : IrqLabel) (t : Irqs) : Prop := s.step i = some t

/-- After `isr_install`, with no handler running. -/
def Irqs.start (c : Pics) : Irqs := ⟨c, [], [], []⟩

theorem Pics.Remapped.raise {c : Pics} (h : c.Remapped) (n : Fin 16) : (c.raise n).Remapped := by
  unfold Pics.raise
  split
  · exact ⟨h.1, h.2, h.3, h.4, h.5, h.6⟩
  · exact ⟨h.1, h.2, h.3, h.4, h.5, h.6⟩

theorem Irqs.Sound.step {s t : Irqs} {i : IrqLabel} (h : s.Sound) (ht : s.step i = some t) :
    t.Sound := by
  have hr := h.remapped
  cases i with
  | raise n =>
    simp only [Irqs.step] at ht
    split at ht
    · cases ht
    · rw [← Option.some.inj ht]
      exact ⟨hr.raise n, h.handlers⟩
  | lower n =>
    rw [← Option.some.inj ht]
    exact ⟨⟨hr.1, hr.2, hr.3, hr.4, hr.5, hr.6⟩, h.handlers⟩
  | take gone late =>
    obtain ⟨source, c', -, -, hanswers, rfl⟩ := take_cases h ht
    refine ⟨hanswers.remapped ⟨hr.1, hr.2, hr.3, hr.4, hr.5, hr.6⟩, fun g hg => ?_⟩
    rcases List.mem_cons.mp hg with rfl | hg
    · exact ⟨rfl, Or.inl rfl⟩
    · exact h.handlers g hg
  | out =>
    obtain ⟨g, gs, hhandlers, ⟨hirq, -, rfl⟩ | ⟨-, rfl⟩⟩ := out_cases h ht
    · refine ⟨⟨hr.1, hr.2, hr.3, hr.4, hr.5, hr.6⟩, fun g' hg' => ?_⟩
      rcases List.mem_cons.mp hg' with rfl | hg'
      · exact ⟨(h.handlers g (hhandlers ▸ List.mem_cons_self)).number, Or.inr ⟨hirq, rfl⟩⟩
      · exact h.handlers g' (hhandlers ▸ List.mem_cons_of_mem g hg')
    · exact ⟨⟨hr.1, hr.2, hr.3, hr.4, hr.5, hr.6⟩,
        fun g' hg' => h.handlers g' (hhandlers ▸ List.mem_cons_of_mem g hg')⟩

/-- A handler that is not over can send. -/
theorem Irqs.Sound.out_isSome {s : Irqs} (h : s.Sound) (hne : s.handlers ≠ []) :
    (s.step .out).isSome := by
  obtain ⟨g, gs, hhandlers⟩ := List.exists_cons_of_ne_nil hne
  have htodo : g.todo = [.outb 0x20 0x20] ∨ g.todo = [.outb 0xA0 0x20, .outb 0x20 0x20] := by
    rcases (h.handlers g (hhandlers ▸ List.mem_cons_self)).todo with htodo | ⟨-, htodo⟩
    · rw [endOfInterrupt] at htodo
      split at htodo
      · exact Or.inr htodo
      · exact Or.inl htodo
    · exact Or.inl htodo
  rw [Irqs.step, hhandlers]
  rcases htodo with htodo | htodo
  · simp only [htodo]
    rfl
  · simp only [htodo]
    rfl

theorem Irqs.Sound.start {c c' : Pics} (h : picRemap 32 40 c = some c') :
    (Irqs.start c').Sound :=
  ⟨remapped_of_picRemap h, fun _ hg => absurd hg List.not_mem_nil⟩

theorem InService.start {c c' : Pics} (h : picRemap 32 40 c = some c') :
    InService (Irqs.start c') := by
  rw [picRemap_eq] at h
  rw [← Option.some.inj h]
  exact ⟨Serves.nil, Serves.nil⟩

/-- Devices do not change what is in service. -/
theorem InService.raise_lower {s t : Irqs} {i : IrqLabel} (h : InService s)
    (ht : s.step i = some t) (hi : (∃ n, i = .raise n) ∨ ∃ n, i = .lower n) : InService t := by
  rcases hi with ⟨n, rfl⟩ | ⟨n, rfl⟩
  · simp only [Irqs.step] at ht
    split at ht
    · cases ht
    · rw [← Option.some.inj ht]
      have hisr : (s.pics.raise n).master.isr = s.pics.master.isr ∧
          (s.pics.raise n).slave.isr = s.pics.slave.isr := by
        unfold Pics.raise
        split <;> exact ⟨rfl, rfl⟩
      exact ⟨hisr.1 ▸ h.master, hisr.2 ▸ h.slave⟩
  · rw [← Option.some.inj ht]
    exact ⟨h.master, h.slave⟩

/-- **One step, exactly.** -/
theorem inService_step_iff {s : Irqs} {i : IrqLabel} (hs : s.Sound) (h : InService s) :
    (∀ t, IrqStep s i t → InService t) ↔ (i = .out → ¬ s.EndsAnother) := by
  cases i with
  | raise n =>
    exact iff_of_true (fun t ht => h.raise_lower ht (Or.inl ⟨n, rfl⟩)) fun heq => by cases heq
  | lower n =>
    exact iff_of_true (fun t ht => h.raise_lower ht (Or.inr ⟨n, rfl⟩)) fun heq => by cases heq
  | take gone late => exact iff_of_true (fun t ht => h.take hs ht) fun heq => by cases heq
  | out =>
    constructor
    · rintro hall - ⟨g, gs, hhandlers, hrest⟩
      have hne : s.handlers ≠ [] := by rw [hhandlers]; exact List.cons_ne_nil g gs
      obtain ⟨t, ht⟩ := Option.isSome_iff_exists.mp (hs.out_isSome hne)
      exact (inService_out_iff hs h ht).mp (hall t ht) ⟨g, gs, hhandlers, hrest⟩
    · exact fun hends t ht => (inService_out_iff hs h ht).mpr (hends rfl)

/-- **When the levels in service are those of the handlers.**  From `pic_remap` on, whatever
devices do, and however handlers are interrupted: all along the run, unless a spurious
interrupt of the master sends its end while it has interrupted a handler in service. -/
theorem in_service_iff {c c' : Pics} (h : picRemap 32 40 c = some c') (labels : List IrqLabel) :
    Always IrqStep (fun s i => ∀ t, IrqStep s i t → InService t) (Irqs.start c') labels ↔
      Always IrqStep (fun s i => i = .out → ¬ s.EndsAnother) (Irqs.start c') labels :=
  @always_iff _ _ IrqStep _ _ (fun s => s.Sound ∧ InService s)
    (fun _ _ hs => inService_step_iff hs.1 hs.2) (fun _ _ t hs hp ht => ⟨hs.1.step ht, hp t ht⟩)
    _ _ ⟨.start h, .start h⟩

/-- The keyboard interrupts the serial port, and lets go before it is served: the end of the
interrupt that is left ends the serial port's. -/
theorem in_service_iff_sample : ¬ Always IrqStep (fun s i => ∀ t, IrqStep s i t → InService t)
    (Irqs.start ⟨.initialized 32 4 0, .initialized 40 2 0⟩)
    [.raise 4, .take ∅ ∅, .raise 1, .take {1} ∅, .out] := by
  intro hall
  obtain ⟨-, h⟩ := (in_service_iff (picRemap_eq 32 40 ⟨.initialized 0 0 0, .initialized 0 0 0⟩)
    [.raise 4, .take ∅ ∅, .raise 1, .take {1} ∅, .out]).mp hall
  obtain ⟨-, h⟩ := h _ rfl
  obtain ⟨-, h⟩ := h _ rfl
  obtain ⟨-, h⟩ := h _ rfl
  obtain ⟨h, -⟩ := h _ rfl
  exact h rfl ⟨_, _, rfl, by decide, by decide⟩

/-- Every state of a run in which no end is another's is in order. -/
theorem reached {c c' : Pics} (h : picRemap 32 40 c = some c') {labels : List IrqLabel} {s : Irqs}
    (hrun : Run IrqStep (Irqs.start c') labels s)
    (hends : Always IrqStep (fun s i => i = .out → ¬ s.EndsAnother) (Irqs.start c') labels) :
    s.Sound ∧ InService s :=
  @Always.invariant _ _ IrqStep _ (fun s => s.Sound ∧ InService s)
    (fun _ _ t hs hends ht => ⟨hs.1.step ht, (inService_step_iff hs.1 hs.2).mpr hends t ht⟩)
    _ _ _ hends hrun ⟨.start h, .start h⟩

/-! ### Which interrupt is taken -/

/-- The lines from the first to the last, in the order in which they are served. -/
def priorityOrder : List ℕ := [0, 1, 8, 9, 10, 11, 12, 13, 14, 15, 3, 4, 5, 6, 7]

def Outranks (n m : Fin 16) : Prop := priorityOrder.idxOf n.val < priorityOrder.idxOf m.val

instance (n m : Fin 16) : Decidable (Outranks n m) := inferInstanceAs (Decidable (_ < _))

theorem outranks_master {i k : Fin 8} (hlt : i < k) (hi : i ≠ cascadeInput)
    (hk : k ≠ cascadeInput) : Outranks (masterLine i) (masterLine k) := by
  revert i k
  decide

theorem outranks_slave {j k : Fin 8} (hlt : j < k) : Outranks (slaveLine j) (slaveLine k) := by
  revert j k
  decide

theorem outranks_slave_master {j k : Fin 8} (hlt : cascadeInput < k) :
    Outranks (slaveLine j) (masterLine k) := by
  revert j k
  decide

theorem outranks_master_slave {i k : Fin 8} (hlt : i < cascadeInput) :
    Outranks (masterLine i) (slaveLine k) := by
  revert i k
  decide

/-- The handlers that are running let the source through. -/
def Irqs.Lets (s : Irqs) (source : Source) : Prop :=
  ∀ k, source.masterLevel = some k → ∀ g ∈ s.handlers, ∀ j, g.masterLevel = some j → k < j

/-- A line that an interrupt could be taken for, if those in `gone` are lowered before. -/
structure Irqs.Candidate (s : Irqs) (gone : Finset (Fin 16)) (n : Fin 16) : Prop where
  waits : s.pics.Waits n
  stays : n ∉ gone
  enabled : s.pics.Enabled n
  device : n ≠ masterLine cascadeInput
  lets : s.Lets (.line n)

/-- What an interrupt is taken for, when some lines are lowered before and during it. -/
structure InOrder (s : Irqs) (gone late : Finset (Fin 16)) (source : Source) : Prop where
  lets : s.Lets source
  candidate : ∀ n, source = .line n → s.Candidate gone n
  first : ∀ n m, source = .line n → s.Candidate (gone ∪ late) m → m = n ∨ Outranks n m
  device : gone = ∅ → late = ∅ → ∃ n, source = .line n

section Taken

variable {s : Irqs} {gone late : Finset (Fin 16)} (h : InService s)

include h

theorem InService.lets {source : Source} {k : Fin 8} (hlevel : source.masterLevel = some k)
    (hbefore : ∀ j ∈ s.pics.master.isr, k < j) : s.Lets source := by
  intro k' hk' g hg j hj
  obtain rfl := Option.some.inj (hlevel.symm.trans hk')
  exact hbefore j ((h.master.mem j).mpr (List.mem_filterMap.mpr ⟨g, hg, hj⟩))

/-- What is let through comes before what is in service. -/
theorem Irqs.Lets.before {source : Source} {k : Fin 8} (hlets : s.Lets source)
    (hlevel : source.masterLevel = some k) : ∀ j ∈ s.pics.master.isr, k < j := by
  intro j hj
  obtain ⟨g, hg, hj'⟩ := List.mem_filterMap.mp ((h.master.mem j).mp hj)
  exact hlets k hlevel g hg j hj'

/-- When the slave's input is let through, nothing is in service in the slave. -/
theorem InService.slave_quiet (hbefore : ∀ j ∈ s.pics.master.isr, cascadeInput < j) :
    s.pics.slave.isr = ∅ := by
  refine Finset.eq_empty_of_forall_notMem fun j hj => ?_
  obtain ⟨g, hg, hj'⟩ := List.mem_filterMap.mp ((h.slave.mem j).mp hj)
  unfold Handler.slaveLevel at hj'
  split at hj'
  · have hcascade : g.masterLevel = some cascadeInput := masterLevel_of_slaveLevel hj'
    have hmem := (h.master.mem cascadeInput).mpr (List.mem_filterMap.mpr ⟨g, hg, hcascade⟩)
    exact absurd (hbefore cascadeInput hmem) (lt_irrefl _)
  · cases hj'

/-- A candidate of the master gets through to the processor. -/
theorem Irqs.Candidate.master {k : Fin 8} (hm : s.Candidate gone (masterLine k)) :
    k ∈ (s.pics.withdraw gone).wired.requests ∧ ∀ j ∈ s.pics.master.isr, k < j := by
  have hk : k ≠ cascadeInput := fun heq => hm.device (heq ▸ rfl)
  refine ⟨(mem_wired_requests hk).mpr ⟨withdraw_waits.mpr ⟨hm.waits, hm.stays⟩, hm.enabled⟩, ?_⟩
  exact hm.lets.before h (masterLevel_masterLine k)

/-- So does one of the slave, through the slave. -/
theorem Irqs.Candidate.slave {k : Fin 8} (hm : s.Candidate gone (slaveLine k)) :
    k ∈ (s.pics.withdraw gone).slave.requests ∧ s.pics.slave.isr = ∅ ∧
      cascadeInput ∈ (s.pics.withdraw gone).wired.requests ∧
      ∀ j ∈ s.pics.master.isr, cascadeInput < j := by
  have hbefore := hm.lets.before h (masterLevel_slaveLine k)
  have hquiet := h.slave_quiet hbefore
  obtain ⟨hslave, hmaster⟩ := enabled_slaveLine.mp hm.enabled
  have hk : k ∈ (s.pics.withdraw gone).slave.requests :=
    mem_slave_requests.mpr ⟨withdraw_waits.mpr ⟨hm.waits, hm.stays⟩, hslave⟩
  refine ⟨hk, hquiet, cascade_mem_wired_requests.mpr ⟨?_, hmaster⟩, hbefore⟩
  change (winner _ s.pics.slave.isr).isSome = true
  rw [hquiet]
  exact winner_isSome_of_quiet ⟨k, hk⟩

/-- **The answer is in order.** -/
theorem inOrder_of_answers {source : Source} {c' : Pics}
    (hasserts : s.pics.asserts = true)
    (hanswers : Answers (s.pics.withdraw gone) late source c') : InOrder s gone late source := by
  cases hanswers with
  | @line i request ne =>
    obtain ⟨hmem, hbefore, hfirst⟩ := winner_eq_some.mp request
    obtain ⟨hwaits, henabled⟩ := (mem_wired_requests ne).mp hmem
    obtain ⟨hwaits, hstays⟩ := withdraw_waits.mp hwaits
    have hlets := h.lets (masterLevel_masterLine i) hbefore
    refine ⟨hlets, ?_, ?_, fun _ _ => ⟨_, rfl⟩⟩
    · rintro n ⟨⟩
      exact ⟨hwaits, hstays, henabled, fun heq => ne (masterLine_inj.mp heq), hlets⟩
    · rintro n m ⟨⟩ hm
      have hm' : s.Candidate gone m := { hm with stays := fun hin => hm.stays (by simp [hin]) }
      rcases line_cases m with ⟨k, rfl⟩ | ⟨k, rfl⟩
      · obtain ⟨hk, hbefore'⟩ := hm'.master h
        rcases (hfirst k hk hbefore').eq_or_lt with rfl | hlt
        · exact Or.inl rfl
        · exact Or.inr (outranks_master hlt ne fun heq => hm.device (heq ▸ rfl))
      · obtain ⟨-, -, hk, hbefore'⟩ := hm'.slave h
        exact Or.inr (outranks_master_slave (lt_of_le_of_ne (hfirst _ hk hbefore') ne))
  | @slaveLine j request slave =>
    obtain ⟨hmem, hbefore, hfirst⟩ := winner_eq_some.mp request
    obtain ⟨hmem', hbefore', hfirst'⟩ := winner_eq_some.mp slave
    obtain ⟨hwaits, henabled⟩ := mem_slave_requests.mp hmem'
    have hstays := (withdraw_waits.mp (withdraw_waits.mp hwaits).1)
    have hmask := (cascade_mem_wired_requests.mp hmem).2
    have hlets := h.lets (masterLevel_slaveLine j) hbefore
    refine ⟨hlets, ?_, ?_, fun _ _ => ⟨_, rfl⟩⟩
    · rintro n ⟨⟩
      exact ⟨hstays.1, hstays.2, enabled_slaveLine.mpr ⟨henabled, hmask⟩,
        slaveLine_ne_masterLine j cascadeInput, hlets⟩
    · rintro n m ⟨⟩ hm
      have hm' : s.Candidate gone m := { hm with stays := fun hin => hm.stays (by simp [hin]) }
      rcases line_cases m with ⟨k, rfl⟩ | ⟨k, rfl⟩
      · obtain ⟨hk, hk'⟩ := hm'.master h
        have hne : cascadeInput ≠ k := fun heq => hm.device (heq ▸ rfl)
        exact Or.inr (outranks_slave_master (lt_of_le_of_ne (hfirst k hk hk') hne))
      · obtain ⟨hk, hquiet, -, -⟩ := hm'.slave h
        have hlate : k ∈ ((s.pics.withdraw gone).withdraw late).slave.requests := by
          refine mem_slave_requests.mpr ⟨withdraw_waits.mpr ⟨?_, ?_⟩, (mem_slave_requests.mp hk).2⟩
          · exact (mem_slave_requests.mp hk).1
          · exact fun hin => hm.stays (by simp [hin])
        have hle := hfirst' k hlate fun l hl => by
          change l ∈ s.pics.slave.isr at hl
          rw [hquiet] at hl
          exact absurd hl (Finset.notMem_empty l)
        rcases hle.eq_or_lt with rfl | hlt
        · exact Or.inl rfl
        · exact Or.inr (outranks_slave hlt)
  | spurious request =>
    refine ⟨fun k hk => (by cases hk), fun n hn => (by cases hn), fun n m hn => (by cases hn), ?_⟩
    rintro rfl -
    rw [withdraw_empty] at request
    rw [Pics.asserts, request] at hasserts
    cases hasserts
  | spuriousSlave request slave =>
    obtain ⟨hmem, hbefore, -⟩ := winner_eq_some.mp request
    refine ⟨h.lets rfl hbefore, fun n hn => (by cases hn), fun n m hn => (by cases hn), ?_⟩
    rintro rfl rfl
    rw [withdraw_empty] at hmem slave
    rw [withdraw_empty] at slave
    have hsome := (cascade_mem_wired_requests.mp hmem).1
    rw [slave] at hsome
    cases hsome

end Taken

/-- **Interrupts are taken in order.**  What is taken is handled under its own number, or, when
its line was lowered in time, under the last of its chip.  It comes before all handlers in
service in the master, so no two of the slave are served at once, and before every other line
that could be taken. -/
theorem interrupts_in_order {c c' : Pics} (h : picRemap 32 40 c = some c')
    {labels : List IrqLabel} {s t : Irqs} {gone late : Finset (Fin 16)}
    (hrun : Run IrqStep (Irqs.start c') labels s)
    (hends : Always IrqStep (fun s i => i = .out → ¬ s.EndsAnother) (Irqs.start c') labels)
    (ht : s.step (.take gone late) = some t) :
    ∃ source, t.handlers = ⟨source, source.irq, endOfInterrupt source.irq⟩ :: s.handlers ∧
      InOrder s gone late source := by
  obtain ⟨hsound, hin⟩ := reached h hrun hends
  obtain ⟨source, c', hasserts, -, hanswers, rfl⟩ := take_cases hsound ht
  exact ⟨source, rfl, inOrder_of_answers hin hasserts hanswers⟩

/-- The keyboard is served within the handler of the serial port, before the clock of the
slave. -/
theorem interrupts_in_order_sample : ∃ s t, Run IrqStep
    (Irqs.start ⟨.initialized 32 4 0, .initialized 40 2 0⟩)
      [.raise 4, .take ∅ ∅, .raise 8, .raise 1] s ∧ s.step (.take ∅ ∅) = some t ∧
    t.handlers.head?.map Handler.number = some 1 ∧ InOrder s ∅ ∅ (.line 1) := by
  have hrun : ∃ s t, Run IrqStep (Irqs.start ⟨.initialized 32 4 0, .initialized 40 2 0⟩)
      [.raise 4, .take ∅ ∅, .raise 8, .raise 1] s ∧ s.step (.take ∅ ∅) = some t ∧
      t.handlers.head?.map Handler.source = some (.line 1) :=
    ⟨_, _, .cons rfl (.cons rfl (.cons rfl (.cons rfl (.nil _)))), rfl, by decide⟩
  obtain ⟨s, t, hrun, ht, hhead⟩ := hrun
  obtain ⟨source, hhandlers, horder⟩ := interrupts_in_order
    (picRemap_eq 32 40 ⟨.initialized 0 0 0, .initialized 0 0 0⟩) hrun (by simp [Always]) ht
  rw [hhandlers] at hhead
  obtain rfl : source = .line 1 := Option.some.inj hhead
  exact ⟨s, t, hrun, ht, by rw [hhandlers]; rfl, horder⟩

/-! ### No request is lost -/

/-- No line is lowered before it was served. -/
def IrqLabel.Patient : IrqLabel → Prop
  | .raise _ => True
  | .lower _ => False
  | .take gone late => gone = ∅ ∧ late = ∅
  | .out => True

/-- The books are kept: what was latched was served, or waits, and every handler is that of a
line. -/
structure Kept (s : Irqs) : Prop where
  sound : s.Sound
  inService : InService s
  device : ∀ g ∈ s.handlers, ∃ n, g.source = .line n
  count : ∀ n, n ≠ masterLine cascadeInput →
    s.latched.count n = s.served.count n + if s.pics.Waits n then 1 else 0

/-- Raising a line makes it wait, and no other. -/
theorem raise_waits {c : Pics} {n m : Fin 16} : (c.raise n).Waits m ↔ m = n ∨ c.Waits m := by
  rcases line_cases n with ⟨i, rfl⟩ | ⟨j, rfl⟩
  · have hlt : (masterLine i).val < 8 := i.isLt
    have hraise : c.raise (masterLine i) = { c with master.irr := insert i c.master.irr } :=
      dif_pos hlt
    rw [hraise]
    rcases line_cases m with ⟨k, rfl⟩ | ⟨k, rfl⟩
    · rw [waits_masterLine, waits_masterLine, masterLine_inj]
      exact Finset.mem_insert
    · rw [waits_slaveLine, waits_slaveLine, or_iff_right (slaveLine_ne_masterLine k i)]
  · have hge : ¬ (slaveLine j).val < 8 := Nat.not_lt.mpr (Nat.le_add_right 8 j)
    have hj : (⟨(slaveLine j).val - 8, by omega⟩ : Fin 8) = j :=
      Fin.ext (Nat.add_sub_cancel_left 8 j.val)
    have hraise : c.raise (slaveLine j) = { c with slave.irr := insert j c.slave.irr } := by
      rw [Pics.raise, dif_neg hge, hj]
    rw [hraise]
    rcases line_cases m with ⟨k, rfl⟩ | ⟨k, rfl⟩
    · rw [waits_masterLine, waits_masterLine,
        or_iff_right (Ne.symm (slaveLine_ne_masterLine j k))]
    · rw [waits_slaveLine, waits_slaveLine, slaveLine_inj]
      exact Finset.mem_insert

/-- Serving a line stops it waiting, and no other. -/
theorem Answers.waits {c c' : Pics} {n m : Fin 16} (h : Answers c ∅ (.line n) c')
    (hm : m ≠ masterLine cascadeInput) : c'.Waits m ↔ m ≠ n ∧ c.Waits m := by
  -- the wiring touches the cascade input only
  have hwired : ∀ k, masterLine k ≠ masterLine cascadeInput →
      (k ∈ c.wired.irr ↔ k ∈ c.master.irr) := by
    intro k hk
    have hne : k ≠ cascadeInput := fun heq => hk (heq ▸ rfl)
    rw [Pics.wired]
    dsimp only
    split
    · rw [Finset.mem_insert, or_iff_right hne]
    · rw [Finset.mem_erase, and_iff_right hne]
  cases h with
  | @line i request ne =>
    rcases line_cases m with ⟨k, rfl⟩ | ⟨k, rfl⟩
    · rw [waits_masterLine, waits_masterLine, Ne, masterLine_inj, ← hwired k hm]
      exact Finset.mem_erase
    · rw [waits_slaveLine, waits_slaveLine, and_iff_right (slaveLine_ne_masterLine k i)]
  | @slaveLine j request slave =>
    rcases line_cases m with ⟨k, rfl⟩ | ⟨k, rfl⟩
    · have hne : k ≠ cascadeInput := fun heq => hm (heq ▸ rfl)
      rw [waits_masterLine, waits_masterLine,
        and_iff_right (Ne.symm (slaveLine_ne_masterLine j k)), ← hwired k hm]
      exact Finset.mem_erase.trans (and_iff_right hne)
    · rw [waits_slaveLine, waits_slaveLine, Ne, slaveLine_inj, withdraw_empty]
      exact Finset.mem_erase

section Steps

variable {s t : Irqs} {i : IrqLabel} (h : Kept s)

include h

theorem Kept.not_endsAnother : ¬ s.EndsAnother := by
  rintro ⟨g, gs, hhandlers, hspurious, -⟩
  obtain ⟨n, hn⟩ := h.device g (hhandlers ▸ List.mem_cons_self)
  rw [hspurious] at hn
  cases hn

/-- A line is raised. -/
theorem Kept.raise {n : Fin 16} (ht : s.step (.raise n) = some t) : Kept t := by
  have hin := h.inService.raise_lower ht (Or.inl ⟨n, rfl⟩)
  have hsound := h.sound.step ht
  simp only [Irqs.step] at ht
  split at ht
  · cases ht
  · obtain rfl := Option.some.inj ht
    refine ⟨hsound, hin, h.device, fun m hm => ?_⟩
    have hcount := h.count m hm
    dsimp only
    by_cases hnm : m = n
    · subst hnm
      rw [if_pos (raise_waits.mpr (Or.inl rfl))]
      split
      · next hwaits => rw [hcount, if_pos hwaits]
      · next hnot => rw [List.count_cons_self, hcount, if_neg hnot]
    · have hsame : (s.pics.raise n).Waits m ↔ s.pics.Waits m :=
        raise_waits.trans (or_iff_right hnm)
      rw [if_congr hsame rfl rfl, ← hcount]
      split
      · rfl
      · exact List.count_cons_of_ne (Ne.symm hnm)

/-- An interrupt is taken, for a line that was waiting. -/
theorem Kept.take (ht : s.step (.take ∅ ∅) = some t) : Kept t := by
  have hin := h.inService.take h.sound ht
  have hsound := h.sound.step ht
  obtain ⟨source, c', hasserts, -, hanswers, rfl⟩ := take_cases h.sound ht
  have horder := inOrder_of_answers h.inService hasserts hanswers
  obtain ⟨n, rfl⟩ := horder.device rfl rfl
  rw [withdraw_empty] at hanswers
  refine ⟨hsound, hin, fun g hg => ?_, fun m hm => ?_⟩
  · rcases List.mem_cons.mp hg with rfl | hg
    · exact ⟨n, rfl⟩
    · exact h.device g hg
  · have hwaits := hanswers.waits hm
    have hcount := h.count m hm
    dsimp only
    by_cases hnm : m = n
    · subst hnm
      rw [if_neg fun hw => (hwaits.mp hw).1 rfl, List.count_cons_self, hcount,
        if_pos (horder.candidate m rfl).waits]
    · have hsame := hwaits.trans (and_iff_right hnm)
      rw [if_congr hsame rfl rfl, List.count_cons_of_ne (Ne.symm hnm), hcount]

/-- A handler sends. -/
theorem Kept.out (ht : s.step .out = some t) : Kept t := by
  have hin := (inService_out_iff h.sound h.inService ht).mpr h.not_endsAnother
  have hsound := h.sound.step ht
  obtain ⟨g, gs, hhandlers, ⟨-, -, rfl⟩ | ⟨-, rfl⟩⟩ := out_cases h.sound ht
  · refine ⟨hsound, hin, fun g' hg' => ?_, h.count⟩
    rcases List.mem_cons.mp hg' with rfl | hg'
    · exact h.device g (hhandlers ▸ List.mem_cons_self)
    · exact h.device g' (hhandlers ▸ List.mem_cons_of_mem g hg')
  · exact ⟨hsound, hin, fun g' hg' => h.device g' (hhandlers ▸ List.mem_cons_of_mem g hg'),
      h.count⟩

theorem Kept.step (hi : i.Patient) (ht : s.step i = some t) : Kept t := by
  cases i with
  | raise n => exact h.raise ht
  | lower n => exact hi.elim
  | take gone late =>
    obtain ⟨rfl, rfl⟩ := hi
    exact h.take ht
  | out => exact h.out ht

/-- When the processor is not interrupted and no handler is left, no line waits that is not
masked. -/
theorem Kept.quiet (hhandlers : s.handlers = []) (hasserts : s.pics.asserts = false) {n : Fin 16}
    (hn : n ≠ masterLine cascadeInput) (henabled : s.pics.Enabled n) : ¬ s.pics.Waits n := by
  intro hwaits
  have hm : s.Candidate ∅ n :=
    ⟨hwaits, Finset.notMem_empty n, henabled, hn, fun k _ g hg => by simp [hhandlers] at hg⟩
  have hnone : winner s.pics.wired.requests s.pics.master.isr = none :=
    Option.not_isSome_iff_eq_none.mp (ne_true_of_eq_false hasserts)
  rcases line_cases n with ⟨i, rfl⟩ | ⟨j, rfl⟩
  · obtain ⟨hi, hbefore⟩ := hm.master h.inService
    rw [withdraw_empty] at hi
    obtain ⟨j, hj, hle⟩ := winner_eq_none.mp hnone i hi
    exact absurd (hbefore j hj) (not_lt.mpr hle)
  · obtain ⟨-, -, hi, hbefore⟩ := hm.slave h.inService
    rw [withdraw_empty] at hi
    obtain ⟨j, hj, hle⟩ := winner_eq_none.mp hnone cascadeInput hi
    exact absurd (hbefore j hj) (not_lt.mpr hle)

end Steps

theorem Kept.start {c c' : Pics} (h : picRemap 32 40 c = some c') : Kept (Irqs.start c') := by
  refine ⟨.start h, .start h, fun g hg => absurd hg List.not_mem_nil, fun n _ => ?_⟩
  rw [picRemap_eq] at h
  rw [← Option.some.inj h, if_neg]
  · rfl
  · rcases line_cases n with ⟨i, rfl⟩ | ⟨j, rfl⟩
    · exact fun hw => absurd (waits_masterLine.mp hw) (Finset.notMem_empty i)
    · exact fun hw => absurd (waits_slaveLine.mp hw) (Finset.notMem_empty j)

/-- **No request is lost, and none is served twice.**  When devices wait to be served, each
line was served as often as it was latched, but for one time if it still waits; what is in
service are the handlers; and when no handler is left and the processor is not interrupted,
nothing waits that is not masked. -/
theorem requests_served_once {c c' : Pics} (h : picRemap 32 40 c = some c')
    {labels : List IrqLabel} (hpatient : ∀ i ∈ labels, i.Patient) {s : Irqs}
    (hrun : Run IrqStep (Irqs.start c') labels s) :
    (∀ n, n ≠ masterLine cascadeInput →
      s.latched.count n = s.served.count n + if s.pics.Waits n then 1 else 0) ∧
    InService s ∧
    (s.handlers = [] → s.pics.asserts = false → ∀ n, n ≠ masterLine cascadeInput →
      s.pics.Enabled n → s.served.count n = s.latched.count n) := by
  have hkept : Kept s := by
    have hstart := Kept.start h
    generalize Irqs.start c' = s₀ at hrun hstart
    induction hrun with
    | nil => exact hstart
    | cons hstep _ ih =>
      exact ih (fun i hi => hpatient i (List.mem_cons_of_mem _ hi))
        (hstart.step (hpatient _ List.mem_cons_self) hstep)
  refine ⟨hkept.count, hkept.inService, fun hhandlers hasserts n hn henabled => ?_⟩
  rw [hkept.count n hn, if_neg (hkept.quiet hhandlers hasserts hn henabled), Nat.add_zero]

/-- The clock of the slave and the keyboard, both at once. -/
theorem requests_served_once_sample : ∃ s, Run IrqStep
    (Irqs.start ⟨.initialized 32 4 0, .initialized 40 2 0⟩)
      [.raise 8, .raise 1, .take ∅ ∅, .out, .take ∅ ∅, .out, .out] s ∧
    s.served.count 8 = s.latched.count 8 := by
  have hrun : ∃ s, Run IrqStep (Irqs.start ⟨.initialized 32 4 0, .initialized 40 2 0⟩)
      [.raise 8, .raise 1, .take ∅ ∅, .out, .take ∅ ∅, .out, .out] s ∧
      s.handlers = [] ∧ s.pics.asserts = false ∧ s.pics.Enabled 8 :=
    ⟨_, .cons rfl (.cons rfl (.cons rfl (.cons rfl (.cons rfl (.cons rfl (.cons rfl (.nil _))))))),
      rfl, by decide, by decide⟩
  obtain ⟨s, hrun, hhandlers, hasserts, henabled⟩ := hrun
  obtain ⟨-, -, hserved⟩ := requests_served_once
    (picRemap_eq 32 40 ⟨.initialized 0 0 0, .initialized 0 0 0⟩) (by simp [IrqLabel.Patient]) hrun
  exact ⟨s, hrun, hserved hhandlers hasserts 8 (by decide) henabled⟩

end MVK
