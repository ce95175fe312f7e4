import MVK.Isr

/-!
# The common stub of the interrupts

What `irq_common_stub` does to the processor and its stack, up to its call and after it,
and what `irq_handler` does with the frame it is given.  The stack is followed as a list
of words from `%esp` up: each group of instructions pushes or pops a known part of it, and
`restoreContext` pops what `saveContext` pushed, if the handler left the frame alone.

## Main definitions

* `Cpu.Holds` — the words on the stack.
* `Cpu.saved`, `Cpu.restored` — the processor before the call and behind the last `sti`.
* `InterruptInfo.pushed` — a frame as words on the stack.
* `Handled` — what an interrupt leaves, given the processor on entry to `irq_handler`.
* `Cpu.Pushed` — so many words were pushed, and nothing else was written.

## Main results

* `run_saveContext`, `Cpu.Holds.saved` — the processor and the stack before the call.
* `run_restoreContext` — the registers come back from the stack.
* `callIrqHandler_spec` — the handler of the interrupt is called, once, and the frame stays.
-/

namespace MVK

open DownStack

/-! ### The stack of the processor -/

/-- The words on the stack. -/
def Cpu.Holds (c : Cpu) (words : List Word) : Prop := StackAt c.mem c.regs.esp words

section Stack

variable {c : Cpu} {w : Word} {ws : List Word}

theorem Cpu.Holds.push (h : c.Holds ws) (w : Word) (hfit : ws.length < 2 ^ 29) :
    (c.push w).Holds (w :: ws) :=
  Access.Holds.push w (show 4 * (ws.length + 1) ≤ 2 ^ 32 by omega) h

theorem Cpu.Holds.top_eq (h : c.Holds (w :: ws)) : c.top = w := h.1

theorem Cpu.Holds.drop (h : c.Holds (w :: ws)) : c.drop.Holds ws := h.2

end Stack

theorem setWidth_setAx (eax : Word) (ax : BitVec 16) : (setAx eax ax).setWidth 16 = ax :=
  BitVec.setWidth_append_eq_right

/-- The data segment registers, all loaded with one selector. -/
def Cpu.withSelector (c : Cpu) (selector : BitVec 16) : Cpu :=
  { c with regs.ds := selector, regs.es := selector, regs.fs := selector, regs.gs := selector }

/-- The four loads of the common stubs. -/
theorem run_loadSegments {c : Cpu} {selector : BitVec 16} (hload : loadable selector = true)
    (hax : c.regs.eax.setWidth 16 = selector) :
    loadSegments.foldlM Cpu.exec c = some (c.withSelector selector) := by
  subst hax
  simp only [loadSegments, List.foldlM_cons, List.foldlM_nil, Cpu.exec, Cpu.loadSegment, hload,
    if_true, Option.bind_eq_bind, Option.bind_some]
  rfl

/-- What the common stubs push after `pusha`, up to the selector they load. -/
def Cpu.savePointers (p : Cpu) : Cpu :=
  { (p.push p.cr2).push (setAx p.cr2 p.regs.ds) with
    regs.eax := setAx (setAx p.cr2 p.regs.ds) dataSelector }

theorem run_savePointers (p : Cpu) :
    [Instr.movlCr2Eax, .pushl .eax, .movwDsAx, .pushl .eax, .movwImmAx 0x10].foldlM Cpu.exec p =
      some p.savePointers := rfl

theorem savePointers_ax (p : Cpu) : p.savePointers.regs.eax.setWidth 16 = dataSelector :=
  setWidth_setAx _ _

/-- The processor when the common stub calls its handler. -/
def Cpu.saved (c : Cpu) : Cpu :=
  let p := c.pusha.savePointers.withSelector dataSelector
  p.push p.regs.esp

theorem run_saveContext (c : Cpu) : saveContext.foldlM Cpu.exec c = some c.saved := by
  have hpointer : ∀ p : Cpu, [Instr.pushl .esp].foldlM Cpu.exec p = some (p.push p.regs.esp) :=
    fun _ => rfl
  have hpusha : c.exec .pusha = some c.pusha := by rw [Cpu.exec]
  rw [saveContext, List.foldlM_append, List.foldlM_append, List.foldlM_cons, hpusha,
    Option.bind_eq_bind, Option.bind_some, run_savePointers, Option.bind_some,
    run_loadSegments rfl (savePointers_ax _), Option.bind_some, hpointer, Cpu.saved]

/-- The words that `pusha` pushes, the last one first. -/
def Regs.general (r : Regs) : List Word :=
  [r.edi, r.esi, r.ebp, r.esp, r.ebx, r.edx, r.ecx, r.eax]

/-- The words that the common stub pushes, the last one first. -/
def Cpu.context (c : Cpu) : List Word :=
  setAx c.cr2 c.regs.ds :: c.cr2 :: c.regs.general

section Saved

variable {c : Cpu} {ws : List Word}

theorem Cpu.Holds.pusha (h : c.Holds ws) (hfit : ws.length < 2 ^ 28) :
    c.pusha.Holds (c.regs.general ++ ws) := by
  have h1 := h.push c.regs.eax (by omega)
  have h2 := h1.push c.regs.ecx (by simp only [List.length_cons]; omega)
  have h3 := h2.push c.regs.edx (by simp only [List.length_cons]; omega)
  have h4 := h3.push c.regs.ebx (by simp only [List.length_cons]; omega)
  have h5 := h4.push c.regs.esp (by simp only [List.length_cons]; omega)
  have h6 := h5.push c.regs.ebp (by simp only [List.length_cons]; omega)
  have h7 := h6.push c.regs.esi (by simp only [List.length_cons]; omega)
  exact h7.push c.regs.edi (by simp only [List.length_cons]; omega)

theorem Cpu.Holds.savePointers (h : c.Holds ws) (hfit : ws.length < 2 ^ 28) :
    c.savePointers.Holds (setAx c.cr2 c.regs.ds :: c.cr2 :: ws) := by
  have h1 := h.push c.cr2 (by omega)
  exact h1.push (setAx c.cr2 c.regs.ds) (by rw [List.length_cons]; omega)

theorem Cpu.Holds.withSelector (h : c.Holds ws) (selector : BitVec 16) :
    (c.withSelector selector).Holds ws := h

theorem push_esp_add (c : Cpu) (w : Word) : (c.push w).regs.esp + 4 = c.regs.esp :=
  BitVec.sub_add_cancel c.regs.esp 4

/-- The words are on the stack, with a pointer to them pushed last. -/
theorem Cpu.Holds.saved (h : c.Holds ws) (hfit : ws.length < 2 ^ 27) :
    c.saved.Holds ((c.saved.regs.esp + 4) :: (c.context ++ ws)) := by
  have hlen : (c.regs.general ++ ws).length = ws.length + 8 := by
    rw [List.length_append, Nat.add_comm]
    rfl
  have hpointers := (h.pusha (by omega)).savePointers (by omega)
  have hcontext : setAx c.pusha.cr2 c.pusha.regs.ds :: c.pusha.cr2 :: (c.regs.general ++ ws) =
      c.context ++ ws := by
    rw [Cpu.pusha_regs, Cpu.pusha_cr2]
    rfl
  have hfit' : (c.context ++ ws).length < 2 ^ 29 := by
    rw [← hcontext, List.length_cons, List.length_cons]
    omega
  rw [hcontext] at hpointers
  rw [Cpu.saved, push_esp_add]
  exact (hpointers.withSelector dataSelector).push _ hfit'

end Saved

/-! ### Leaving the common stub -/

/-- The registers that `popa` restores. -/
def Cpu.withGeneral (c : Cpu) (r : Regs) : Cpu :=
  { c with
    regs := { c.regs with
      eax := r.eax
      ecx := r.ecx
      edx := r.edx
      ebx := r.ebx
      esp := c.regs.esp + 32
      ebp := r.ebp
      esi := r.esi
      edi := r.edi } }

theorem Cpu.Holds.popa {c : Cpu} {r : Regs} {ws : List Word} (h : c.Holds (r.general ++ ws)) :
    c.popa = c.withGeneral r := by
  have hedi := h.top_eq
  have hesi := h.drop.top_eq
  have hebp := h.drop.drop.top_eq
  have hebx := h.drop.drop.drop.drop.top_eq
  have hedx := h.drop.drop.drop.drop.drop.top_eq
  have hecx := h.drop.drop.drop.drop.drop.drop.top_eq
  have heax := h.drop.drop.drop.drop.drop.drop.drop.top_eq
  have hesp : c.regs.esp + 4 + 4 + 4 + 4 + 4 + 4 + 4 + 4 = c.regs.esp + 32 := by bv_omega
  simp only [Cpu.top, Cpu.drop] at hedi hesi hebp hebx hedx hecx heax
  simp only [Cpu.popa, Cpu.top, Cpu.drop, Cpu.withGeneral, hedi, hesi, hebp, hebx, hedx, hecx,
    heax, hesp]

/-- The processor when the common stub is about to return. -/
def Cpu.restored (c : Cpu) (r : Regs) (selector : BitVec 16) (eflags : Word) : Cpu :=
  { c with
    regs := { c.regs with
      eax := r.eax
      ecx := r.ecx
      edx := r.edx
      ebx := r.ebx
      esp := c.regs.esp + 52
      ebp := r.ebp
      esi := r.esi
      edi := r.edi
      eflags := eflags
      ds := selector
      es := selector
      fs := selector
      gs := selector } }

/-- The two numbers that the stub pushed are skipped, and interrupts enabled. -/
theorem run_dropNumbers (c : Cpu) : [Instr.addlEsp 8, .sti].foldlM Cpu.exec c =
    some { c with
      regs.esp := c.regs.esp + 8
      regs.eflags := addFlags c.regs.eflags c.regs.esp 8 ||| flagIF } := rfl

theorem run_restoreContext {c : Cpu} {info selector cr2 intNo irqNo : Word} {r : Regs}
    {ws : List Word} (hload : loadable (selector.setWidth 16) = true)
    (h : c.Holds (info :: selector :: cr2 :: (r.general ++ intNo :: irqNo :: ws))) :
    ∃ eflags, eflags &&& flagNT = c.regs.eflags &&& flagNT ∧
      restoreContext.foldlM Cpu.exec c = some (c.restored r (selector.setWidth 16) eflags) ∧
        (c.restored r (selector.setWidth 16) eflags).Holds ws := by
  let c₁ := { c with regs.eax := c.top }.drop
  let c₂ := { c₁ with regs.eax := c₁.top }.drop
  let c₃ := c₂.withSelector (selector.setWidth 16)
  let c₄ := { c₃ with regs.eax := c₃.top }.drop
  have hpops : [Instr.poplEax, .poplEax].foldlM Cpu.exec c = some c₂ := rfl
  have hax : c₂.regs.eax.setWidth 16 = selector.setWidth 16 := by
    rw [show c₂.regs.eax = selector from h.drop.top_eq]
  have hpopa : c₄.popa = c₄.withGeneral r := Cpu.Holds.popa h.drop.drop.drop
  have hesp : c.regs.esp + 4 + 4 + 4 + 32 + 8 = c.regs.esp + 52 := by bv_omega
  have hfour : c₃.exec .poplEax = some c₄ := by rw [Cpu.exec]
  have hfive : c₄.exec .popa = some (c₄.withGeneral r) := by rw [Cpu.exec, hpopa]
  refine ⟨addFlags c.regs.eflags (c₄.regs.esp + 32) 8 ||| flagIF, ?_, ?_, ?_⟩
  · rw [or_nt _ rfl, addFlags_nt]
  · rw [restoreContext, List.foldlM_append, List.foldlM_append, hpops, Option.bind_eq_bind,
      Option.bind_some, run_loadSegments hload hax, Option.bind_some, List.foldlM_cons, hfour,
      Option.bind_eq_bind, Option.bind_some, List.foldlM_cons, hfive, Option.bind_eq_bind,
      Option.bind_some, run_dropNumbers]
    simp only [Cpu.restored, Cpu.withGeneral, c₄, c₃, Cpu.withSelector, c₂, c₁, Cpu.drop, hesp]
  · -- thirteen words have gone
    have hthirteen : (info :: selector :: cr2 :: (r.general ++ intNo :: irqNo :: ws)) =
        (info :: selector :: cr2 :: (r.general ++ [intNo, irqNo])) ++ ws := by
      rw [List.cons_append, List.cons_append, List.cons_append, List.append_assoc,
        List.cons_append, List.singleton_append]
    rw [hthirteen] at h
    exact Access.Holds.right_of_append h

/-! ### The call of the handler -/

/-- The words of the frame that are pushed on entry. -/
def InterruptInfo.pushed (info : InterruptInfo) : List Word :=
  [info.ds, info.cr2, info.edi, info.esi, info.ebp, info.useless, info.ebx, info.edx, info.ecx,
    info.eax, info.intNo, info.errCode, info.eip, info.cs, info.eflags]

theorem readInfo_eq {mem : Memory} {a : Word} {info : InterruptInfo}
    (h : StackAt mem a (info.pushed ++ [info.esp, info.ss])) : readInfo mem a = info := by
  have hword : ∀ k (hk : k < 17), read32 mem (a + BitVec.ofNat 32 (4 * k)) =
      (info.pushed ++ [info.esp, info.ss]).get ⟨k, hk⟩ := fun k hk => Access.Holds.read h hk
  exact InterruptInfo.ext h.head (hword 1 (by decide)) (hword 2 (by decide))
    (hword 3 (by decide)) (hword 4 (by decide)) (hword 5 (by decide)) (hword 6 (by decide))
    (hword 7 (by decide)) (hword 8 (by decide)) (hword 9 (by decide)) (hword 10 (by decide))
    (hword 11 (by decide)) (hword 12 (by decide)) (hword 13 (by decide)) (hword 14 (by decide))
    (hword 15 (by decide)) (hword 16 (by decide))

theorem readInfo_irqNo {mem : Memory} {a : Word} {info : InterruptInfo}
    (h : StackAt mem a info.pushed) : (readInfo mem a).irqNo = info.irqNo :=
  Access.Holds.read h (show 11 < 15 by decide)

/-- A change that leaves the bytes that were pushed leaves the frame. -/
theorem keeps_pushed {mem mem' : Memory} {a : Word} {info : InterruptInfo}
    (h : StackAt mem a info.pushed)
    (hkeep : ∀ i < pushedSize, mem' (a + BitVec.ofNat 32 i) = mem (a + BitVec.ofNat 32 i)) :
    StackAt mem' a info.pushed := h.congr hkeep

/-- The call of a registered function that sends `sent`; none if none is registered. -/
def handled (handler : Word) (info : InterruptInfo) (sent : List (BitVec 16 × Byte)) :
    List Event :=
  if handler ≠ 0 then .call handler info :: sent.map fun out => .outb out.1 out.2 else []

/-- The end of interrupt `n`: the slave is told when it is one of its interrupts, and the
master always. -/
def endOfInterrupt (n : Fin 16) : List Event :=
  (if 8 ≤ n.val then [.outb 0xA0 0x20] else []) ++ [.outb 0x20 0x20]

theorem picEoi_irq (n : Fin 16) :
    picEoi ((BitVec.ofNat 32 n).setWidth 8) = endOfInterrupt n := by
  revert n
  decide

/-- What the function registered for an interrupt does and sends; nothing if there is none. -/
def ranRegistered (funcs : Word → IrqFunc) (handler info : Word) (k : Kernel) :
    Kernel × List (BitVec 16 × Byte) :=
  if handler ≠ 0 then (funcs handler).run info k else (k, [])

/-- The registered function is called once, and leaves the frame. -/
theorem callRegistered_spec (funcs : Word → IrqFunc) (handler a : Word) {k : Kernel}
    {info : InterruptInfo} (h : StackAt k.mem a (info.pushed ++ [info.esp, info.ss])) :
    callRegistered funcs handler a k = ((ranRegistered funcs handler a k).1,
        handled handler info (ranRegistered funcs handler a k).2) ∧
      StackAt (ranRegistered funcs handler a k).1.mem a info.pushed := by
  by_cases hset : handler = 0
  · rw [callRegistered, ranRegistered, handled, if_neg (not_not.mpr hset),
      if_neg (not_not.mpr hset), if_neg (not_not.mpr hset)]
    exact ⟨rfl, Access.Holds.left_of_append h⟩
  · rw [callRegistered, ranRegistered, handled, if_pos hset, if_pos hset, if_pos hset,
      readInfo_eq h]
    exact ⟨rfl,
      keeps_pushed (Access.Holds.left_of_append h) ((funcs handler).keeps_frame a k)⟩

theorem irqHandler_spec (funcs : Word → IrqFunc) {a : Word} {k : Kernel} {info : InterruptInfo}
    {n : Fin 16} (h : StackAt k.mem a (info.pushed ++ [info.esp, info.ss]))
    (hn : info.irqNo = BitVec.ofNat 32 n) :
    irqHandler funcs a k = some ((ranRegistered funcs (k.irqHandlers.get n) a k).1,
        handled (k.irqHandlers.get n) info (ranRegistered funcs (k.irqHandlers.get n) a k).2 ++
          endOfInterrupt n) ∧
      StackAt (ranRegistered funcs (k.irqHandlers.get n) a k).1.mem a info.pushed := by
  obtain ⟨hcalled, hkeep⟩ := callRegistered_spec funcs (k.irqHandlers.get n) a h
  have hlt := n.isLt
  have hirq : (BitVec.ofNat 32 n).toNat = n.val := by
    rw [BitVec.toNat_ofNat]
    omega
  refine ⟨?_, hkeep⟩
  rw [irqHandler, readInfo_eq h, hn]
  simp only [hirq, hlt, dif_pos]
  rw [show k.irqHandlers[n.val] = k.irqHandlers.get n from rfl, hcalled, readInfo_irqNo hkeep, hn,
    picEoi_irq]

/-- What an interrupt leaves: memory, `irq_handlers` and the events are what the function at
`handler` makes of the frame and the kernel that `c`, the processor on entry to `irq_handler`,
shows it. -/
structure Handled (image : Image) (handler : Word) (n : Fin 16) (s : State) (c : Cpu)
    (t : State) : Prop where
  mem : t.cpu.mem = image.leaves.mem c
    (ranRegistered image.funcs handler c.argument ⟨c.mem, s.irqHandlers⟩).1.mem
  irqHandlers : t.irqHandlers =
    (ranRegistered image.funcs handler c.argument ⟨c.mem, s.irqHandlers⟩).1.irqHandlers
  events : t.events = s.events ++ (handled handler (readInfo c.mem c.argument)
    (ranRegistered image.funcs handler c.argument ⟨c.mem, s.irqHandlers⟩).2 ++ endOfInterrupt n)

/-- The call gives the stack back as it was, but for the argument. -/
theorem callIrqHandler_spec (image : Image) {s : State} {info : InterruptInfo} {n : Fin 16}
    (h : s.cpu.Holds ((s.cpu.regs.esp + 4) :: (info.pushed ++ [info.esp, info.ss])))
    (hn : info.irqNo = BitVec.ofNat 32 n) :
    ∃ t argument, callIrqHandler image s = .ok t ∧ t.cpu.Holds (argument :: info.pushed) ∧
      t.cpu.regs.esp = s.cpu.regs.esp ∧
      t.cpu.regs.eflags &&& flagNT = s.cpu.regs.eflags &&& flagNT ∧
      readInfo (s.cpu.push image.afterCall).mem (s.cpu.push image.afterCall).argument = info ∧
      Handled image (s.irqHandlers.get n) n s (s.cpu.push image.afterCall) t := by
  obtain ⟨c, hc⟩ : ∃ c, c = s.cpu.push image.afterCall := ⟨_, rfl⟩
  have hcall : c.Holds (image.afterCall :: (s.cpu.regs.esp + 4) ::
      (info.pushed ++ [info.esp, info.ss])) := by
    rw [hc]
    exact h.push _ (by rw [List.length_cons]; exact (by decide : 18 < 2 ^ 29))
  have hesp : c.regs.esp + 4 = s.cpu.regs.esp := by rw [hc, push_esp_add]
  have hargument : c.argument = s.cpu.regs.esp + 4 := hcall.drop.top_eq
  have hinfo : StackAt c.mem (s.cpu.regs.esp + 4) (info.pushed ++ [info.esp, info.ss]) := by
    rw [← hesp]
    exact hcall.drop.drop
  rw [← hargument] at hinfo
  obtain ⟨hrun, hkeep⟩ := @irqHandler_spec image.funcs _
    { mem := c.mem, irqHandlers := s.irqHandlers } info n hinfo hn
  obtain ⟨ran, hran⟩ : ∃ ran, ran = ranRegistered image.funcs (s.irqHandlers.get n) c.argument
    ⟨c.mem, s.irqHandlers⟩ := ⟨_, rfl⟩
  rw [← hran] at hrun hkeep
  have hleft : StackAt (image.leaves.mem c ran.1.mem) c.argument info.pushed :=
    keeps_pushed hkeep fun i hi => image.leaves.keeps_frame c ran.1.mem i hi
  let t : State :=
    { cpu := { c with
        regs.eax := image.leaves.eax c
        regs.ecx := image.leaves.ecx c
        regs.edx := image.leaves.edx c
        regs.eflags := image.leaves.eflags c
        regs.esp := c.regs.esp + 4
        mem := image.leaves.mem c ran.1.mem }
      irqHandlers := ran.1.irqHandlers
      events := s.events ++ (handled (s.irqHandlers.get n) info ran.2 ++ endOfInterrupt n) }
  have hstack : t.cpu.Holds (t.cpu.top :: info.pushed) := by
    refine ⟨rfl, ?_⟩
    rw [hargument, ← hesp] at hleft
    exact hleft
  have hread := readInfo_eq hinfo
  rw [← hc]
  refine ⟨t, t.cpu.top, ?_, hstack, hesp, ?_, hread, ?_⟩
  · rw [callIrqHandler]
    dsimp only
    rw [← hc, hrun]
  · rw [show t.cpu.regs.eflags = image.leaves.eflags c from rfl, image.leaves.keeps_nt, hc]
    rfl
  · exact ⟨by rw [← hran], by rw [← hran], by rw [← hran, hread]⟩

/-! ### Below the stack -/

/-- So many words were pushed, and only below the stack was memory written. -/
structure Cpu.Pushed (before : Cpu) (words : ℕ) (after : Cpu) : Prop where
  esp : after.regs.esp + BitVec.ofNat 32 (4 * words) = before.regs.esp
  mem : ∀ i, 4 * words ≤ i → i < 2 ^ 32 →
    after.mem (after.regs.esp + BitVec.ofNat 32 i) = before.mem (after.regs.esp + BitVec.ofNat 32 i)

namespace Cpu.Pushed

variable {before after : Cpu} {words : ℕ}

theorem refl (c : Cpu) : c.Pushed 0 c := ⟨BitVec.add_zero _, fun _ _ _ => rfl⟩

theorem push (h : before.Pushed words after) (w : Word) : before.Pushed (words + 1) (after.push w)
    where
  esp := by
    have hesp := h.esp
    rw [Cpu.push_regs]
    bv_omega
  mem := by
    intro i hlow hhigh
    have haddr : (after.push w).regs.esp + BitVec.ofNat 32 i =
        after.regs.esp + BitVec.ofNat 32 (i - 4) := by
      rw [Cpu.push_regs]
      bv_omega
    have hwrite := write32_apart after.mem (after.regs.esp - 4) w (d := i) (by omega) hhigh
    rw [haddr, ← h.mem (i - 4) (by omega) (by omega), ← haddr]
    exact hwrite

/-- Other registers may change besides. -/
theorem congr {after' : Cpu} (h : before.Pushed words after) (hesp : after'.regs.esp = after.regs.esp)
    (hmem : after'.mem = after.mem) : before.Pushed words after' where
  esp := by rw [hesp, h.esp]
  mem := by
    rw [hesp, hmem]
    exact h.mem

theorem trans {after' : Cpu} {words' : ℕ} (h : before.Pushed words after)
    (h' : after.Pushed words' after') (hfit : words + words' < 2 ^ 30) :
    before.Pushed (words + words') after' where
  esp := by
    have hesp := h.esp
    have hesp' := h'.esp
    bv_omega
  mem := by
    intro i hlow hhigh
    have hesp' := h'.esp
    have haddr : after'.regs.esp + BitVec.ofNat 32 i =
        after.regs.esp + BitVec.ofNat 32 (i - 4 * words') := by
      bv_omega
    rw [h'.mem i (by omega) hhigh, haddr, h.mem _ (by omega) (by omega)]

theorem pusha (h : before.Pushed words after) : before.Pushed (words + 8) after.pusha :=
  (((((((h.push _).push _).push _).push _).push _).push _).push _).push _

theorem saved (h : before.Pushed words after) : before.Pushed (words + 11) after.saved := by
  have hpointers : before.Pushed (words + 10) (after.pusha.savePointers.withSelector dataSelector) :=
    ((h.pusha.push after.pusha.cr2).push (setAx after.pusha.cr2 after.pusha.regs.ds)).congr rfl rfl
  exact hpointers.push _

end Cpu.Pushed

end MVK
