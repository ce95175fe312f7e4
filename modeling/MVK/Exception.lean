import MVK.Irq

/-!
# Exceptions

From the gate of an exception to `isr_handler`, and what the frame says there.  The
processor pushes an error code for some of the exceptions; the stub of each vector has to
know for which, and to push a 0 in its place for the others.  Two stubs do not: those of
the alignment check and of the control protection exception push a 0 on top of the error
code, and every field from there on shows its neighbour.

## Main definitions

* `hasErrorCode`, `errorCode` — the error codes of the architecture.
* `Cpu.pushAll` — several pushes.
* `Reports` — the frame shows the exception and the interrupted code.

## Main results

* `isrInstall_exc` — each exception leads to its stub, through a trap gate.
* `runFrom_isrCommonStub` — the frame is the words on the stack.
* `exception_frame_iff` — **the frame is truthful for all vectors but 17 and 21.**
-/

namespace MVK

/-! ### Error codes -/

/-- The exceptions for which the processor pushes an error code. -/
def hasErrorCode (v : Fin 32) : Bool := v.val ∈ [8, 10, 11, 12, 13, 14, 17, 21]

/-- What the processor pushes last, when the error code is `e`. -/
def errorCode (v : Fin 32) (e : Word) : Option Word := if hasErrorCode v then some e else none

/-- The stubs agree with the processor but for two vectors. -/
theorem mem_cpuPushesErrorCode {v : Fin 32} :
    v.val ∈ cpuPushesErrorCode ↔ hasErrorCode v ∧ v ≠ 17 ∧ v ≠ 21 := by
  revert v
  decide

theorem hasErrorCode_of_eq {v : Fin 32} (h : v = 17 ∨ v = 21) : hasErrorCode v = true := by
  rcases h with rfl | rfl
  · rfl
  · rfl

/-! ### Pushing words -/

/-- The words are pushed, the first one last. -/
def Cpu.pushAll (c : Cpu) (words : List Word) : Cpu := words.foldr (fun w c => c.push w) c

theorem Cpu.pushAll_cons (c : Cpu) (w : Word) (words : List Word) :
    c.pushAll (w :: words) = (c.pushAll words).push w := rfl

theorem Cpu.pushAll_cr2 (c : Cpu) (words : List Word) : (c.pushAll words).cr2 = c.cr2 := by
  induction words with
  | nil => rfl
  | cons w words ih => rw [Cpu.pushAll_cons, Cpu.push_cr2, ih]

theorem Cpu.pushAll_regs (c : Cpu) (words : List Word) :
    (c.pushAll words).regs = { c.regs with esp := (c.pushAll words).regs.esp } := by
  induction words with
  | nil => rfl
  | cons w words ih =>
    rw [Cpu.pushAll_cons, Cpu.push_regs, ih]

theorem Cpu.Holds.pushAll {c : Cpu} {words ws : List Word} (h : c.Holds ws)
    (hfit : words.length + ws.length < 2 ^ 29) : (c.pushAll words).Holds (words ++ ws) := by
  induction words with
  | nil => exact h
  | cons w words ih =>
    rw [List.length_cons] at hfit
    have hrest := ih (by omega)
    rw [Cpu.pushAll_cons, List.cons_append]
    exact hrest.push w (by rw [List.length_append]; omega)

/-! ### Through the gate and the stub -/

/-- The processor at the first instruction behind the gate of an exception. -/
def Cpu.trapped (c : Cpu) (gate : IdtEntry) (code : Option Word) : Cpu :=
  let c' := c.pushAll (code.toList ++ [c.regs.eip, c.regs.cs.setWidth 32, c.regs.eflags])
  { c' with
    regs.cs := gate.selector
    regs.eip := gate.offset
    regs.eflags := gate.enterFlags c'.regs.eflags }

/-- A trap gate is taken. -/
theorem deliver_trapGate (c : Cpu) (handler : Word) (code : Option Word) :
    c.deliver (gateTo handler trapGate) code =
      some (c.trapped (gateTo handler trapGate) code) := by
  have husable : (gateTo handler trapGate).usable = true := by
    show (trapGate.getLsbD 7 && decide (trapGate.extractLsb' 0 5 = 14 ∨
      trapGate.extractLsb' 0 5 = 15)) = true
    decide
  rw [Cpu.deliver, if_pos ⟨husable, rfl⟩]
  cases code with
  | none => rfl
  | some e => rfl

theorem excVector_inj : Function.Injective excVector := by
  intro v w h
  have hval := congrArg Fin.val h
  exact Fin.ext hval

/-- `isr_install` leads each exception to its stub, through a trap gate. -/
theorem isrInstall_exc (image : Image) (idt : Idt) (v : Fin 32) :
    isrInstall image idt (excVector v) = gateTo (image.symbol (.isr v)) trapGate := by
  have hne : ∀ n ∈ List.finRange 16, irqVector n ≠ excVector v := by
    intro n _ h
    have hval : 32 + n.val = v.val := congrArg Fin.val h
    omega
  exact (foldl_update_of_ne (fun n => gateTo (image.symbol (.irq n)) interruptGate) hne).trans
    (foldl_update excVector_inj (fun v => gateTo (image.symbol (.isr v)) trapGate) _
      (List.mem_finRange v))

/-- The words that the stub of a vector pushes, the last one first. -/
def isrNumbers (v : Fin 32) : List Word :=
  if v.val ∈ cpuPushesErrorCode then [BitVec.ofNat 32 v] else [BitVec.ofNat 32 v, 0]

theorem run_isrStub (v : Fin 32) (c : Cpu) :
    (isrStub v).foldlM Cpu.exec c =
      some (({ c with regs.eflags := c.regs.eflags &&& ~~~flagIF } : Cpu).pushAll
        (isrNumbers v)) := by
  rw [isrStub, isrNumbers]
  split
  · rfl
  · rfl

/-- The processor behind the stub of a vector. -/
def Cpu.stubbed (c : Cpu) (v : Fin 32) : Cpu :=
  ({ c with regs.eflags := c.regs.eflags &&& ~~~flagIF } : Cpu).pushAll (isrNumbers v)

/-- All words from the exception to the common stub. -/
theorem stubbed_holds {c : Cpu} {ws : List Word} (h : c.Holds ws) (hfit : ws.length < 2 ^ 27)
    (gate : IdtEntry) (v : Fin 32) (code : Option Word) :
    ((c.trapped gate code).stubbed v).Holds (isrNumbers v ++ (code.toList ++
      [c.regs.eip, c.regs.cs.setWidth 32, c.regs.eflags] ++ ws)) := by
  have hcode : code.toList.length ≤ 1 := by
    cases code with
    | none => exact Nat.zero_le 1
    | some e => exact le_rfl
  have hnumbers : (isrNumbers v).length ≤ 2 := by
    rw [isrNumbers]
    split
    · exact Nat.le_succ 1
    · exact le_rfl
  have hlen : (code.toList ++ [c.regs.eip, c.regs.cs.setWidth 32, c.regs.eflags]).length ≤ 4 := by
    rw [List.length_append]
    exact Nat.add_le_add_right hcode 3
  have htrapped : ({ c.trapped gate code with regs.eflags :=
      (c.trapped gate code).regs.eflags &&& ~~~flagIF } : Cpu).Holds _ :=
    @Cpu.Holds.pushAll c (code.toList ++ [c.regs.eip, c.regs.cs.setWidth 32, c.regs.eflags]) ws h
      (by omega)
  exact htrapped.pushAll (by rw [List.length_append]; omega)

/-- Besides the stack pointer, `cs`, `eip` and the flags nothing has changed. -/
theorem stubbed_regs (c : Cpu) (gate : IdtEntry) (v : Fin 32) (code : Option Word) :
    ((c.trapped gate code).stubbed v).regs = { c.regs with
      esp := ((c.trapped gate code).stubbed v).regs.esp
      cs := gate.selector
      eip := gate.offset
      eflags := gate.enterFlags c.regs.eflags &&& ~~~flagIF } := by
  rw [Cpu.stubbed, Cpu.pushAll_regs]
  dsimp only [Cpu.trapped]
  rw [Cpu.pushAll_regs c]

theorem stubbed_cr2 (c : Cpu) (gate : IdtEntry) (v : Fin 32) (code : Option Word) :
    ((c.trapped gate code).stubbed v).cr2 = c.cr2 := by
  rw [Cpu.stubbed, Cpu.pushAll_cr2]
  dsimp only [Cpu.trapped]
  rw [Cpu.pushAll_cr2]

/-! ### The common stub -/

/-- `isr_handler` is given the seven words on the stack and the saved registers. -/
theorem runFrom_isrCommonStub (image : Image) {s : State}
    {intNo errCode eip cs eflags esp ss : Word}
    (h : s.cpu.Holds [intNo, errCode, eip, cs, eflags, esp, ss]) :
    runFrom image 1 .isrCommonStub s =
      .error (.aborted (s.cpu.frame intNo errCode eip cs eflags esp ss)) := by
  have hsave := @run_instrs image _ s _ (run_saveContext s.cpu)
  have htext : (listing .isrCommonStub).body = saveContext.map .instr ++
      [.call .isrHandler] ++ restoreContext.map .instr := rfl
  obtain ⟨info, hinfo⟩ : ∃ info, info = s.cpu.frame intNo errCode eip cs eflags esp ss := ⟨_, rfl⟩
  have hwords : info.pushed ++ [info.esp, info.ss] =
      s.cpu.context ++ [intNo, errCode, eip, cs, eflags, esp, ss] := by
    rw [hinfo]
    rfl
  have hsaved := h.saved (by exact (by decide : 7 < 2 ^ 27))
  rw [← hwords] at hsaved
  obtain ⟨c, hc⟩ : ∃ c, c = s.cpu.saved.push image.afterCall := ⟨_, rfl⟩
  have hcall : c.Holds (image.afterCall :: (s.cpu.saved.regs.esp + 4) ::
      (info.pushed ++ [info.esp, info.ss])) := by
    rw [hc]
    exact hsaved.push _ (by rw [List.length_cons]; exact (by decide : 18 < 2 ^ 29))
  have hargument : c.argument = s.cpu.saved.regs.esp + 4 := hcall.drop.top_eq
  have hread : readInfo c.mem c.argument = info := by
    refine readInfo_eq ?_
    have hesp : c.regs.esp + 4 + 4 = c.argument := by rw [hargument, hc, push_esp_add]
    rw [← hesp]
    exact hcall.drop.drop
  have hhandler : execOp image { s with cpu := s.cpu.saved } (.call .isrHandler) =
      .error (.aborted info) := by
    rw [execOp, ← hread, hc]
  rw [runFrom, htext, List.foldlM_append, List.foldlM_append, hsave, ok_bind, List.foldlM_cons,
    hhandler, hinfo]
  rfl

/-! ### The frame -/

/-- The frame shows exception `v` with what the processor pushed, and the registers of the
interrupted code. -/
structure Reports (v : Fin 32) (code : Option Word) (c : Cpu) (info : InterruptInfo) : Prop where
  intNo : info.intNo = BitVec.ofNat 32 v
  errCode : info.errCode = code.getD 0
  eip : info.eip = c.regs.eip
  cs : info.cs = c.regs.cs.setWidth 32
  eflags : info.eflags = c.regs.eflags
  cr2 : info.cr2 = c.cr2
  eax : info.eax = c.regs.eax
  ecx : info.ecx = c.regs.ecx
  edx : info.edx = c.regs.edx
  ebx : info.ebx = c.regs.ebx
  ebp : info.ebp = c.regs.ebp
  esi : info.esi = c.regs.esi
  edi : info.edi = c.regs.edi

/-- The words that the processor and the stub push are the ones that the frame has a place
for. -/
theorem isrNumbers_append {v : Fin 32} (hv : v ≠ 17 ∧ v ≠ 21) (e : Word) :
    isrNumbers v ++ (errorCode v e).toList = [BitVec.ofNat 32 v, (errorCode v e).getD 0] := by
  rw [isrNumbers, errorCode]
  by_cases hcode : hasErrorCode v = true
  · rw [if_pos (mem_cpuPushesErrorCode.mpr ⟨hcode, hv⟩), if_pos hcode]
    rfl
  · rw [if_neg fun h => hcode (mem_cpuPushesErrorCode.mp h).1, if_neg hcode]
    rfl

/-- The stubs of vectors 17 and 21 push a 0 on top of the error code. -/
theorem isrNumbers_append_of_eq {v : Fin 32} (hv : v = 17 ∨ v = 21) (e : Word) :
    isrNumbers v ++ (errorCode v e).toList = [BitVec.ofNat 32 v, 0, e] := by
  rcases hv with rfl | rfl
  · rfl
  · rfl

/-- From the exception to `isr_handler`. -/
theorem interrupt_exc (image : Image) (idt : Idt) (v : Fin 32) (code : Option Word) (s : State)
    {intNo errCode eip cs eflags esp ss : Word} {ws : List Word} (hstack : s.cpu.Holds ws)
    (hfit : ws.length < 2 ^ 27)
    (hwords : isrNumbers v ++ code.toList ++
      ([s.cpu.regs.eip, s.cpu.regs.cs.setWidth 32, s.cpu.regs.eflags] ++ ws) =
        [intNo, errCode, eip, cs, eflags, esp, ss]) :
    interrupt image (isrInstall image idt) (excVector v) code s =
      .error (.aborted (((s.cpu.trapped (gateTo (image.symbol (.isr v)) trapGate) code).stubbed
        v).frame intNo errCode eip cs eflags esp ss)) := by
  rw [List.append_assoc, ← List.append_assoc code.toList] at hwords
  obtain ⟨gate, hgate⟩ : ∃ gate, gate = gateTo (image.symbol (.isr v)) trapGate := ⟨_, rfl⟩
  let s₁ : State := { s with cpu := s.cpu.trapped gate code }
  let s₂ : State := { s with cpu := (s.cpu.trapped gate code).stubbed v }
  have hdeliver : s.onCpu (s.cpu.deliver gate code) = .ok s₁ := by
    rw [hgate, deliver_trapGate, ← hgate]
    rfl
  have hsymbol : image.symbolAt s₁.cpu.regs.eip = some (.isr v) := by
    rw [show s₁.cpu.regs.eip = gate.offset from rfl, hgate, gateTo_offset, symbolAt_symbol]
  have hstub : (listing (.isr v)).body.foldlM (execOp image) s₁ = .ok s₂ :=
    run_instrs image (run_isrStub v s₁.cpu)
  have hframe : s₂.cpu.Holds _ := hwords ▸ stubbed_holds hstack hfit gate v code
  rw [interrupt, isrInstall_exc, ← hgate, hdeliver, ok_bind, hsymbol]
  show runFrom image 2 (.isr v) s₁ = _
  rw [runFrom, hstub, ok_bind]
  exact runFrom_isrCommonStub image hframe

/-- The saved registers are those of the interrupted code in any case. -/
theorem reports_iff {c : Cpu} {gate : IdtEntry} {v : Fin 32} {code : Option Word}
    {errCode eip cs eflags esp ss : Word} :
    Reports v code c (((c.trapped gate code).stubbed v).frame (BitVec.ofNat 32 v) errCode eip cs
        eflags esp ss) ↔
      errCode = code.getD 0 ∧ eip = c.regs.eip ∧ cs = c.regs.cs.setWidth 32 ∧
        eflags = c.regs.eflags := by
  have hregs := stubbed_regs c gate v code
  constructor
  · intro h
    exact ⟨h.errCode, h.eip, h.cs, h.eflags⟩
  · rintro ⟨herr, heip, hcs, heflags⟩
    exact
      { intNo := rfl
        errCode := herr
        eip := heip
        cs := hcs
        eflags := heflags
        cr2 := stubbed_cr2 c gate v code
        eax := (congrArg Regs.eax hregs :)
        ecx := (congrArg Regs.ecx hregs :)
        edx := (congrArg Regs.edx hregs :)
        ebx := (congrArg Regs.ebx hregs :)
        ebp := (congrArg Regs.ebp hregs :)
        esi := (congrArg Regs.esi hregs :)
        edi := (congrArg Regs.edi hregs :) }

/-- Running code of ring 0: the null selector cannot be loaded into `cs`. -/
structure RingZeroCode (r : Regs) : Prop extends RingZero r where
  notNull : r.cs ≠ 0

/-- **Where the exception frame is truthful.**  For every exception from ring 0, with the error
code that the processor pushes for it, `isr_handler` is called; and the frame it is given shows
the vector, the error code and the interrupted code exactly when the vector is neither 17 nor
21. -/
theorem exception_frame_iff (image : Image) (idt : Idt) (v : Fin 32) (e : Word) (s : State)
    (hring : RingZeroCode s.cpu.regs) :
    ∃ info, interrupt image (isrInstall image idt) (excVector v) (errorCode v e) s =
        .error (.aborted info) ∧
      (Reports v (errorCode v e) s.cpu info ↔ v ≠ 17 ∧ v ≠ 21) := by
  by_cases hv : v ≠ 17 ∧ v ≠ 21
  · have hstack : s.cpu.Holds [s.cpu.top, s.cpu.drop.top] := ⟨rfl, rfl, trivial⟩
    have hwords : isrNumbers v ++ (errorCode v e).toList ++
        ([s.cpu.regs.eip, s.cpu.regs.cs.setWidth 32, s.cpu.regs.eflags] ++
          [s.cpu.top, s.cpu.drop.top]) =
        [BitVec.ofNat 32 v, (errorCode v e).getD 0, s.cpu.regs.eip, s.cpu.regs.cs.setWidth 32,
          s.cpu.regs.eflags, s.cpu.top, s.cpu.drop.top] := by
      rw [isrNumbers_append hv]
      rfl
    refine ⟨_, interrupt_exc image idt v _ s hstack (by exact (by decide : 2 < 2 ^ 27)) hwords, ?_⟩
    rw [reports_iff]
    exact iff_of_true ⟨rfl, rfl, rfl, rfl⟩ hv
  · have hv' : v = 17 ∨ v = 21 := by
      rw [not_and_or, not_not, not_not] at hv
      exact hv
    have hstack : s.cpu.Holds [s.cpu.top] := ⟨rfl, trivial⟩
    have hwords : isrNumbers v ++ (errorCode v e).toList ++
        ([s.cpu.regs.eip, s.cpu.regs.cs.setWidth 32, s.cpu.regs.eflags] ++ [s.cpu.top]) =
        [BitVec.ofNat 32 v, 0, e, s.cpu.regs.eip, s.cpu.regs.cs.setWidth 32,
          s.cpu.regs.eflags, s.cpu.top] := by
      rw [isrNumbers_append_of_eq hv']
      rfl
    refine ⟨_, interrupt_exc image idt v _ s hstack (by exact (by decide : 1 < 2 ^ 27)) hwords, ?_⟩
    rw [reports_iff]
    refine iff_of_false ?_ hv
    -- each field shows its neighbour, so that `cs` would be 0 with the error code
    rintro ⟨herr, heip, hcs, -⟩
    rw [errorCode, if_pos (hasErrorCode_of_eq hv'), Option.getD_some] at herr
    have hzero : (s.cpu.regs.cs.setWidth 32 : Word) = 0 := by rw [← hcs, ← heip, ← herr]
    refine hring.notNull (BitVec.eq_of_toNat_eq ?_)
    have hnat := congrArg BitVec.toNat hzero
    rw [BitVec.toNat_setWidth, Nat.mod_eq_of_lt (by omega)] at hnat
    exact hnat

/-- An alignment check with error code 0: `eip` is reported as 0, and `eip` in the place of
`cs`. -/
theorem alignment_check_shifted :
    ∃ info, interrupt clockImage (isrInstall clockImage fun _ => gateTo 0 0) (excVector 17)
        (errorCode 17 0) clockState = .error (.aborted info) ∧
      info.eip = 0 ∧ info.cs = 0xC0101234 ∧ ¬ Reports 17 (errorCode 17 0) clockState.cpu info := by
  have hstack : clockState.cpu.Holds [clockState.cpu.top] := ⟨rfl, trivial⟩
  refine ⟨_, interrupt_exc clockImage (fun _ => gateTo 0 0) 17 (errorCode 17 0) clockState hstack
    (by exact (by decide : 1 < 2 ^ 27)) rfl, rfl, rfl, fun h => ?_⟩
  exact absurd h.eip (by decide)

theorem exception_frame_iff_sample :
    ∃ info, interrupt clockImage (isrInstall clockImage fun _ => gateTo 0 0) (excVector 14)
        (errorCode 14 2) clockState = .error (.aborted info) ∧
      (Reports 14 (errorCode 14 2) clockState.cpu info ↔ (14 : Fin 32) ≠ 17 ∧ (14 : Fin 32) ≠ 21) :=
  exception_frame_iff clockImage (fun _ => gateTo 0 0) 14 2 clockState
    { cs := by decide, vm := by decide, notNull := by decide }

end MVK
