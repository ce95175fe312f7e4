import MVK.IrqStub

/-!
# Hardware interrupts

From the gate of a vector to the `iret`: an interrupt runs the function registered for it
and gives the interrupted code all its registers back.

## Main definitions

* `registerAll`, `lastRegistered` — the history of registrations.
* `RingZero`, `HoldsSelector` — what interrupted code is.
* `Truthful` — the frame shows the registers of the interrupted code.

## Main results

* `isrInstall_irq`, `symbolAt_symbol` — each vector leads to its stub.
* `registerAll_get` — the last registration counts.
* `run_irqCommonStub` — the common stub, up to its `iret`.
* `irq_transparent` — **hardware interrupts are transparent.**
-/

namespace MVK

/-! ### Running the text -/

theorem ok_bind {ε α β : Type} (x : α) (f : α → Except ε β) : (Except.ok x >>= f) = f x := rfl

/-- Instructions are run by the processor alone. -/
theorem run_instrs (image : Image) {is : List Instr} {s : State} {c : Cpu}
    (h : is.foldlM Cpu.exec s.cpu = some c) :
    (is.map Op.instr).foldlM (execOp image) s = .ok { s with cpu := c } := by
  induction is generalizing s with
  | nil =>
    obtain rfl : s.cpu = c := Option.some.inj h
    rfl
  | cons i is ih =>
    rw [List.foldlM_cons, Option.bind_eq_bind, Option.bind_eq_some_iff] at h
    obtain ⟨mid, hexec, hrest⟩ := h
    have hstep : execOp image s (.instr i) = .ok { s with cpu := mid } := by
      rw [execOp, hexec]
      rfl
    rw [List.map_cons, List.foldlM_cons, hstep]
    exact @ih { s with cpu := mid } hrest

/-- The frame that the common stub shows to the handler. -/
def Cpu.frame (c : Cpu) (intNo irqNo eip cs eflags esp ss : Word) : InterruptInfo where
  ds := setAx c.cr2 c.regs.ds
  cr2 := c.cr2
  edi := c.regs.edi
  esi := c.regs.esi
  ebp := c.regs.ebp
  useless := c.regs.esp
  ebx := c.regs.ebx
  edx := c.regs.edx
  ecx := c.regs.ecx
  eax := c.regs.eax
  intNo := intNo
  errCode := irqNo
  eip := eip
  cs := cs
  eflags := eflags
  esp := esp
  ss := ss

theorem saved_regs (c : Cpu) : c.saved.regs =
    { c.regs with
      eax := setAx (setAx c.cr2 c.regs.ds) dataSelector
      esp := c.regs.esp - 44
      ds := dataSelector
      es := dataSelector
      fs := dataSelector
      gs := dataSelector } := by
  have hesp : c.regs.esp - 32 - 4 - 4 - 4 = c.regs.esp - 44 := by bv_omega
  simp only [Cpu.saved, Cpu.savePointers, Cpu.withSelector, Cpu.push_regs, Cpu.pusha_regs,
    Cpu.pusha_cr2, hesp]

/-- The text of the common stub, from a run of its call and of what follows. -/
theorem run_irqCommonText (image : Image) {s t : State} {c : Cpu}
    (hcall : callIrqHandler image { s with cpu := { s.cpu.saved with
      regs.eflags := s.cpu.saved.regs.eflags &&& ~~~flagDF } } = .ok t)
    (hrestore : restoreContext.foldlM Cpu.exec t.cpu = some c) :
    (listing .irqCommonStub).body.foldlM (execOp image) s = .ok { t with cpu := c } := by
  have hsave := @run_instrs image _ s _ (run_saveContext s.cpu)
  have hcld : execOp image { s with cpu := s.cpu.saved } (.instr .cld) =
      .ok { s with cpu := { s.cpu.saved with
        regs.eflags := s.cpu.saved.regs.eflags &&& ~~~flagDF } } := rfl
  have htext : (listing .irqCommonStub).body = saveContext.map .instr ++
      [.instr .cld, .call .irqHandler] ++ restoreContext.map .instr := rfl
  rw [htext, List.foldlM_append, List.foldlM_append, hsave, ok_bind, List.foldlM_cons, hcld,
    ok_bind, List.foldlM_cons, execOp, hcall, ok_bind, List.foldlM_nil, pure_bind,
    run_instrs image hrestore]

/-- The common stub up to its `iret`. -/
theorem run_irqCommonStub (image : Image) {s : State} {n : Fin 16}
    {intNo eip cs eflags esp ss : Word} (hds : s.cpu.regs.ds = dataSelector)
    (h : s.cpu.Holds [intNo, BitVec.ofNat 32 n, eip, cs, eflags, esp, ss]) :
    ∃ t c, (listing .irqCommonStub).body.foldlM (execOp image) s = .ok t ∧
      t.cpu.regs = { s.cpu.regs with
        esp := s.cpu.regs.esp + 8
        eip := t.cpu.regs.eip
        eflags := t.cpu.regs.eflags
        cs := t.cpu.regs.cs
        es := dataSelector
        fs := dataSelector
        gs := dataSelector } ∧
      t.cpu.regs.eflags &&& flagNT = s.cpu.regs.eflags &&& flagNT ∧
      t.cpu.Holds [eip, cs, eflags] ∧ s.cpu.Pushed 12 c ∧
      readInfo c.mem c.argument = s.cpu.frame intNo (BitVec.ofNat 32 n) eip cs eflags esp ss ∧
      Handled image (s.irqHandlers.get n) n s c t := by
  obtain ⟨info, hinfo⟩ : ∃ info, info =
    s.cpu.frame intNo (BitVec.ofNat 32 n) eip cs eflags esp ss := ⟨_, rfl⟩
  have hno : info.irqNo = BitVec.ofNat 32 n := by rw [hinfo]; rfl
  have hwords : info.pushed = s.cpu.context ++ [intNo, BitVec.ofNat 32 n, eip, cs, eflags] := by
    rw [hinfo]
    rfl
  have hlast : [info.esp, info.ss] = [esp, ss] := by
    rw [hinfo]
    rfl
  -- the frame is built, and the direction flag cleared
  let c₁ := { s.cpu.saved with regs.eflags := s.cpu.saved.regs.eflags &&& ~~~flagDF }
  have hsaved : c₁.Holds ((c₁.regs.esp + 4) :: (info.pushed ++ [info.esp, info.ss])) := by
    rw [hwords, hlast, List.append_assoc]
    exact h.saved (by exact (by decide : 7 < 2 ^ 27))
  have hpushed : s.cpu.Pushed 11 c₁ := (Cpu.Pushed.refl s.cpu).saved.congr rfl rfl
  -- the handler runs
  obtain ⟨t, argument, hcall, hstack, hesp, hnt, hread, hhandled⟩ :=
    @callIrqHandler_spec image { s with cpu := c₁ } info n hsaved hno
  -- the frame is taken down
  rw [hwords] at hstack
  obtain ⟨flags, hflags, hrestore, hleft⟩ :=
    @run_restoreContext t.cpu argument (setAx s.cpu.cr2 s.cpu.regs.ds) s.cpu.cr2 intNo
      (BitVec.ofNat 32 n) s.cpu.regs [eip, cs, eflags]
      (by rw [setWidth_setAx, hds]; rfl) hstack
  rw [setWidth_setAx, hds] at hrestore hleft
  refine ⟨{ t with cpu := t.cpu.restored s.cpu.regs dataSelector flags },
    c₁.push image.afterCall, run_irqCommonText image hcall hrestore, ?_, ?_, hleft,
    hpushed.push _, hread.trans hinfo, ⟨hhandled.mem, hhandled.irqHandlers, hhandled.events⟩⟩
  · have hsp : c₁.regs.esp + 52 = s.cpu.regs.esp + 8 := by
      rw [show c₁.regs.esp = s.cpu.saved.regs.esp from rfl, saved_regs]
      bv_omega
    have hesp' : t.cpu.regs.esp = c₁.regs.esp := hesp
    simp only [Cpu.restored, hesp', hsp, hds]
  · calc flags &&& flagNT = t.cpu.regs.eflags &&& flagNT := hflags
      _ = s.cpu.saved.regs.eflags &&& ~~~flagDF &&& flagNT := hnt
      _ = s.cpu.saved.regs.eflags &&& flagNT := andNot_nt _ rfl
      _ = s.cpu.regs.eflags &&& flagNT := by rw [saved_regs]

/-! ### The gates -/

theorem mem_allSymbols (sym : Symbol) : sym ∈ allSymbols := by
  cases sym <;> simp [allSymbols]

/-- The stub at the address of a label is the one of that label. -/
theorem symbolAt_symbol (image : Image) (sym : Symbol) :
    image.symbolAt (image.symbol sym) = some sym := by
  have hsome : (image.symbolAt (image.symbol sym)).isSome :=
    List.find?_isSome.mpr ⟨sym, mem_allSymbols sym, decide_eq_true rfl⟩
  obtain ⟨found, hfound⟩ := Option.isSome_iff_exists.mp hsome
  have heq : decide (image.symbol found = image.symbol sym) = true :=
    List.find?_some (p := fun t => decide (image.symbol t = image.symbol sym)) hfound
  rw [hfound, image.symbol_inj (of_decide_eq_true heq)]

/-- A table filled at places that differ. -/
theorem foldl_update {α κ β : Type} [DecidableEq κ] {key : α → κ}
    (hkey : Function.Injective key) (val : α → β) (f : κ → β) {a : α} {l : List α} (ha : a ∈ l) :
    l.foldl (fun f x => Function.update f (key x) (val x)) f (key a) = val a := by
  induction l using List.reverseRecOn with
  | nil => exact absurd ha List.not_mem_nil
  | append_singleton l x ih =>
    rw [List.foldl_append, List.foldl_cons, List.foldl_nil]
    by_cases hx : a = x
    · rw [hx, Function.update_self]
    · rw [Function.update_of_ne fun h => hx (hkey h)]
      rw [List.mem_append, List.mem_singleton] at ha
      exact ih (ha.resolve_right hx)

/-- A table is left alone at the places that are not filled. -/
theorem foldl_update_of_ne {α κ β : Type} [DecidableEq κ] {key : α → κ} (val : α → β) {f : κ → β}
    {k : κ} {l : List α} (hk : ∀ a ∈ l, key a ≠ k) :
    l.foldl (fun f x => Function.update f (key x) (val x)) f k = f k := by
  induction l generalizing f with
  | nil => rfl
  | cons a l ih =>
    rw [List.forall_mem_cons] at hk
    rw [List.foldl_cons, ih hk.2, Function.update_of_ne hk.1.symm]

theorem irqVector_inj : Function.Injective irqVector := by
  intro m n h
  have hval := congrArg Fin.val h
  apply Fin.ext
  simp only [irqVector] at hval
  omega

/-- The two halves of the address are put together again. -/
theorem gateTo_offset (handler : Word) (type : Byte) : (gateTo handler type).offset = handler := by
  apply BitVec.eq_of_toNat_eq
  have hmask : (handler &&& 0xFFFF).toNat = handler.toNat % 2 ^ 16 :=
    toNat_and_mask (by decide : 16 ≤ 32) handler
  have hlow : ((handler &&& 0xFFFF).setWidth 16).toNat = handler.toNat % 65536 := by
    rw [BitVec.toNat_setWidth, hmask, Nat.mod_mod]
    rfl
  have hlt : ((handler &&& 0xFFFF).setWidth 16).toNat < 2 ^ 16 := BitVec.isLt _
  have hhigh : ((handler >>> 16).setWidth 16).toNat = handler.toNat / 65536 := by
    have hhandler := handler.isLt
    rw [BitVec.toNat_setWidth, BitVec.toNat_ushiftRight, Nat.shiftRight_eq_div_pow]
    omega
  show ((handler >>> 16).setWidth 16 ++ (handler &&& 0xFFFF).setWidth 16 : BitVec 32).toNat = _
  rw [BitVec.toNat_append, ← Nat.shiftLeft_add_eq_or_of_lt hlt, Nat.shiftLeft_eq, hlow, hhigh]
  omega

/-- `isr_install` leads each interrupt to its stub, through an interrupt gate. -/
theorem isrInstall_irq (image : Image) (idt : Idt) (n : Fin 16) :
    isrInstall image idt (irqVector n) = gateTo (image.symbol (.irq n)) interruptGate :=
  foldl_update irqVector_inj (fun n => gateTo (image.symbol (.irq n)) interruptGate) _
    (List.mem_finRange n)

/-! ### Registrations -/

/-- `irq_handlers` after a history of registrations. -/
def registerAll (registrations : List (Byte × Word)) : Option (Vector Word 16) :=
  registrations.foldlM (fun irqHandlers r => registerIrqHandler irqHandlers r.1 r.2)
    (Vector.replicate 16 0)

/-- The function that was registered last for an interrupt; null if there is none. -/
def lastRegistered (registrations : List (Byte × Word)) (n : Fin 16) : Word :=
  ((registrations.filter fun r => r.1.toNat = n.val).getLast?.map Prod.snd).getD 0

theorem registerIrqHandler_get {irqHandlers irqHandlers' : Vector Word 16} {irq : Byte}
    {handler : Word} (h : registerIrqHandler irqHandlers irq handler = some irqHandlers')
    (n : Fin 16) :
    irqHandlers'.get n = if irq.toNat = n.val then handler else irqHandlers.get n := by
  rw [registerIrqHandler] at h
  split at h
  · obtain rfl := Option.some.inj h
    exact Vector.getElem_set _ n.isLt
  · exact absurd h (by simp)

/-- The last registration counts. -/
theorem registerAll_get {registrations : List (Byte × Word)} {irqHandlers : Vector Word 16}
    (h : registerAll registrations = some irqHandlers) (n : Fin 16) :
    irqHandlers.get n = lastRegistered registrations n := by
  induction registrations using List.reverseRecOn generalizing irqHandlers with
  | nil =>
    obtain rfl : Vector.replicate 16 0 = irqHandlers := Option.some.inj h
    exact Vector.getElem_replicate n.isLt
  | append_singleton registrations r ih =>
    rw [registerAll, List.foldlM_append, Option.bind_eq_bind, Option.bind_eq_some_iff] at h
    obtain ⟨before, hbefore, hlast⟩ := h
    have hset : registerIrqHandler before r.1 r.2 = some irqHandlers :=
      (bind_pure _).symm.trans hlast
    rw [registerIrqHandler_get hset n, lastRegistered, List.filter_append]
    by_cases hr : r.1.toNat = n.val
    · rw [if_pos hr, List.filter_cons_of_pos (by simpa using hr), List.filter_nil,
        List.getLast?_concat]
      rfl
    · rw [if_neg hr, List.filter_cons_of_neg (by simpa using hr), List.filter_nil,
        List.append_nil, ih hbefore]
      rfl

/-! ### From the gate to the return -/

/-- Code of ring 0, in protected mode. -/
structure RingZero (r : Regs) : Prop where
  cs : r.cs.extractLsb' 0 2 = 0
  vm : r.eflags &&& flagVM = 0

/-- The data segment registers hold what `set_gdt` loaded. -/
structure HoldsSelector (r : Regs) : Prop where
  ds : r.ds = dataSelector
  es : r.es = dataSelector
  fs : r.fs = dataSelector
  gs : r.gs = dataSelector

/-- The frame shows interrupt `n` and the registers of the interrupted code. -/
structure Truthful (n : Fin 16) (r : Regs) (info : InterruptInfo) : Prop where
  irqNo : info.irqNo = BitVec.ofNat 32 n
  intNo : info.intNo = BitVec.ofNat 32 (32 + n)
  eax : info.eax = r.eax
  ecx : info.ecx = r.ecx
  edx : info.edx = r.edx
  ebx : info.ebx = r.ebx
  ebp : info.ebp = r.ebp
  esi : info.esi = r.esi
  edi : info.edi = r.edi
  eip : info.eip = r.eip
  cs : info.cs = r.cs.setWidth 32
  eflags : info.eflags = r.eflags

/-- The processor at the first instruction behind a gate. -/
def Cpu.delivered (c : Cpu) (gate : IdtEntry) : Cpu :=
  let c' := ((c.push c.regs.eflags).push (c.regs.cs.setWidth 32)).push c.regs.eip
  { c' with
    regs.cs := gate.selector
    regs.eip := gate.offset
    regs.eflags := gate.enterFlags c'.regs.eflags }

/-- The processor behind the stub of interrupt `n`. -/
def Cpu.numbered (c : Cpu) (n : Fin 16) : Cpu :=
  ({ c with regs.eflags := c.regs.eflags &&& ~~~flagIF }.push (BitVec.ofNat 32 n)).push
    (BitVec.ofNat 32 (32 + n))

theorem run_irqStub (n : Fin 16) (c : Cpu) :
    (irqStub n).foldlM Cpu.exec c = some (c.numbered n) := rfl

/-- The frame up to the interrupted code's own stack. -/
theorem Cpu.Holds.numbered {c : Cpu} {ws : List Word} (h : c.Holds ws)
    (hfit : ws.length < 2 ^ 28) (gate : IdtEntry) (n : Fin 16) :
    ((c.delivered gate).numbered n).Holds (BitVec.ofNat 32 (32 + n) :: BitVec.ofNat 32 n ::
      c.regs.eip :: c.regs.cs.setWidth 32 :: c.regs.eflags :: ws) := by
  have h1 := h.push c.regs.eflags (by omega)
  have h2 := h1.push (c.regs.cs.setWidth 32) (by rw [List.length_cons]; omega)
  have h3 := h2.push c.regs.eip (by rw [List.length_cons, List.length_cons]; omega)
  have h4 : ({ c.delivered gate with regs.eflags :=
      (c.delivered gate).regs.eflags &&& ~~~flagIF } : Cpu).Holds _ := h3
  have h5 := h4.push (BitVec.ofNat 32 n) (by simp only [List.length_cons]; omega)
  exact h5.push (BitVec.ofNat 32 (32 + n)) (by simp only [List.length_cons]; omega)

theorem numbered_regs (c : Cpu) (gate : IdtEntry) (n : Fin 16) :
    ((c.delivered gate).numbered n).regs = { c.regs with
      esp := c.regs.esp - 20
      cs := gate.selector
      eip := gate.offset
      eflags := gate.enterFlags c.regs.eflags &&& ~~~flagIF } := by
  have hesp : c.regs.esp - 4 - 4 - 4 - 4 - 4 = c.regs.esp - 20 := by bv_omega
  simp only [Cpu.numbered, Cpu.delivered, Cpu.push_regs, hesp]

/-- Behind an interrupt gate NT is clear. -/
theorem enterFlags_nt (gate : IdtEntry) (eflags : Word) :
    gate.enterFlags eflags &&& flagNT = 0 := by
  have hclear : eflags &&& ~~~(flagTF ||| flagNT ||| flagRF ||| flagVM) &&& flagNT = 0 := by
    rw [BitVec.and_assoc, show ~~~(flagTF ||| flagNT ||| flagRF ||| flagVM) &&& flagNT = 0 from rfl]
    exact BitVec.and_zero
  rw [IdtEntry.enterFlags]
  split
  · rw [andNot_nt _ rfl, hclear]
  · exact hclear

/-- `iret` to code of ring 0. -/
theorem iret_eq {c : Cpu} {eip eflags : Word} {cs : BitVec 16} {ws : List Word}
    (h : c.Holds (eip :: cs.setWidth 32 :: eflags :: ws)) (hnt : c.regs.eflags &&& flagNT = 0)
    (hcs : cs.extractLsb' 0 2 = 0) (hvm : eflags &&& flagVM = 0) :
    c.iret = some { c with
      regs.esp := c.regs.esp + 12
      regs.eip := eip
      regs.cs := cs
      regs.eflags := eflags } := by
  have heip : c.top = eip := h.top_eq
  have hcs' : c.drop.top.setWidth 16 = cs := by
    rw [h.drop.top_eq]
    exact BitVec.setWidth_setWidth_of_le cs (by decide)
  have heflags : c.drop.drop.top = eflags := h.drop.drop.top_eq
  have hesp : c.regs.esp + 4 + 4 + 4 = c.regs.esp + 12 := by bv_omega
  simp only [Cpu.iret, heip, hcs', heflags, hnt, hcs, hvm, and_self, if_true]
  simp only [Cpu.drop, hesp]

/-- An interrupt gate is taken. -/
theorem deliver_interruptGate (c : Cpu) (handler : Word) :
    c.deliver (gateTo handler interruptGate) none =
      some (c.delivered (gateTo handler interruptGate)) := by
  have husable : (gateTo handler interruptGate).usable = true := by
    show (interruptGate.getLsbD 7 && decide (interruptGate.extractLsb' 0 5 = 14 ∨
      interruptGate.extractLsb' 0 5 = 15)) = true
    decide
  exact if_pos ⟨husable, rfl⟩

/-- The common stub and its `iret`: the two numbers and the processor's frame are gone. -/
theorem runFrom_irqCommonStub (image : Image) {s : State} {n : Fin 16}
    {intNo eip eflags esp ss : Word} {cs : BitVec 16} (hds : s.cpu.regs.ds = dataSelector)
    (h : s.cpu.Holds [intNo, BitVec.ofNat 32 n, eip, cs.setWidth 32, eflags, esp, ss])
    (hnt : s.cpu.regs.eflags &&& flagNT = 0) (hcs : cs.extractLsb' 0 2 = 0)
    (hvm : eflags &&& flagVM = 0) :
    ∃ t c, runFrom image 1 .irqCommonStub s = .ok t ∧
      t.cpu.regs = { s.cpu.regs with
        esp := s.cpu.regs.esp + 20
        eip := eip
        eflags := eflags
        cs := cs
        es := dataSelector
        fs := dataSelector
        gs := dataSelector } ∧ s.cpu.Pushed 12 c ∧
      readInfo c.mem c.argument =
        s.cpu.frame intNo (BitVec.ofNat 32 n) eip (cs.setWidth 32) eflags esp ss ∧
      Handled image (s.irqHandlers.get n) n s c t := by
  obtain ⟨t, entry, hrun, hregs, hnt', hleft, hpushed, hread, hhandled⟩ :=
    run_irqCommonStub image hds h
  let c : Cpu := { t.cpu with
    regs.esp := t.cpu.regs.esp + 12
    regs.eip := eip
    regs.cs := cs
    regs.eflags := eflags }
  have hiret : t.cpu.iret = some c := iret_eq hleft (hnt'.trans hnt) hcs hvm
  have hesp : s.cpu.regs.esp + 8 + 12 = s.cpu.regs.esp + 20 := by bv_omega
  refine ⟨{ t with cpu := c }, entry, ?_, ?_, hpushed, hread,
    ⟨hhandled.mem, hhandled.irqHandlers, hhandled.events⟩⟩
  · rw [runFrom, hrun, ok_bind]
    show t.onCpu t.cpu.iret = _
    rw [hiret]
    rfl
  · show ({ t.cpu.regs with
      esp := t.cpu.regs.esp + 12
      eip := eip
      cs := cs
      eflags := eflags } : Regs) = _
    rw [hregs, ← hesp]

/-- The frame that a handler is given shows the interrupted code. -/
theorem frame_truthful (c : Cpu) (gate : IdtEntry) (n : Fin 16) (esp ss : Word) :
    Truthful n c.regs (((c.delivered gate).numbered n).frame (BitVec.ofNat 32 (32 + n))
      (BitVec.ofNat 32 n) c.regs.eip (c.regs.cs.setWidth 32) c.regs.eflags esp ss) := by
  have hregs := numbered_regs c gate n
  exact
    { irqNo := rfl
      intNo := rfl
      eax := (congrArg Regs.eax hregs :)
      ecx := (congrArg Regs.ecx hregs :)
      edx := (congrArg Regs.edx hregs :)
      ebx := (congrArg Regs.ebx hregs :)
      ebp := (congrArg Regs.ebp hregs :)
      esi := (congrArg Regs.esi hregs :)
      edi := (congrArg Regs.edi hregs :)
      eip := rfl
      cs := rfl
      eflags := rfl }

/-- The words that are pushed up to the call of `irq_handler`. -/
theorem pushed_numbered (c : Cpu) (gate : IdtEntry) (n : Fin 16) :
    c.Pushed 5 ((c.delivered gate).numbered n) := by
  have hthree : c.Pushed 3 (((c.push c.regs.eflags).push (c.regs.cs.setWidth 32)).push
      c.regs.eip) := (((Cpu.Pushed.refl c).push _).push _).push _
  have hgate : c.Pushed 3 { c.delivered gate with
      regs.eflags := (c.delivered gate).regs.eflags &&& ~~~flagIF } := hthree.congr rfl rfl
  exact (hgate.push (BitVec.ofNat 32 n)).push (BitVec.ofNat 32 (32 + n))

/-- **Hardware interrupts are transparent.**  From any state of ring 0 an interrupt runs
through its own stub, up to the processor `c` on entry to `irq_handler`.  The frame there shows
the interrupted code, and besides it nothing is written but the stack below.  The function
registered last is called with the frame once, and no other; memory, `irq_handlers` and the
ports are left as it leaves them, the controllers are told, and every register is as it was. -/
theorem irq_transparent (image : Image) (idt : Idt) (registrations : List (Byte × Word))
    (n : Fin 16) (s : State) (hring : RingZero s.cpu.regs) (hsel : HoldsSelector s.cpu.regs)
    (hregistered : registerAll registrations = some s.irqHandlers) :
    ∃ t c, interrupt image (isrInstall image idt) (irqVector n) none s = .ok t ∧
      t.cpu.regs = s.cpu.regs ∧ Truthful n s.cpu.regs (readInfo c.mem c.argument) ∧
      s.cpu.Pushed 17 c ∧ Handled image (lastRegistered registrations n) n s c t := by
  obtain ⟨gate, hgate⟩ : ∃ gate, gate = gateTo (image.symbol (.irq n)) interruptGate := ⟨_, rfl⟩
  have hstack : s.cpu.Holds [s.cpu.top, s.cpu.drop.top] := ⟨rfl, rfl, trivial⟩
  -- through the gate, and through the stub of the vector
  let s₁ : State := { s with cpu := s.cpu.delivered gate }
  let s₂ : State := { s with cpu := (s.cpu.delivered gate).numbered n }
  have hdeliver : s.onCpu (s.cpu.deliver gate none) = .ok s₁ := by
    rw [hgate, deliver_interruptGate, ← hgate]
    rfl
  have hsymbol : image.symbolAt s₁.cpu.regs.eip = some (.irq n) := by
    rw [show s₁.cpu.regs.eip = gate.offset from rfl, hgate, gateTo_offset, symbolAt_symbol]
  have hstub : (listing (.irq n)).body.foldlM (execOp image) s₁ = .ok s₂ :=
    run_instrs image (run_irqStub n s₁.cpu)
  -- through the common stub
  have hregs₂ : s₂.cpu.regs = _ := numbered_regs s.cpu gate n
  have hds : s₂.cpu.regs.ds = dataSelector := by rw [hregs₂]; exact hsel.ds
  have hnt : s₂.cpu.regs.eflags &&& flagNT = 0 := by
    rw [hregs₂, andNot_nt _ rfl, enterFlags_nt]
  have hframe : s₂.cpu.Holds _ := hstack.numbered (by exact (by decide : 2 < 2 ^ 28)) gate n
  obtain ⟨t, c, hrun, hregs, hpushed, hread, hhandled⟩ :=
    runFrom_irqCommonStub image hds hframe hnt hring.cs hring.vm
  have hesp : s.cpu.regs.esp - 20 + 20 = s.cpu.regs.esp := BitVec.sub_add_cancel _ _
  refine ⟨t, c, ?_, ?_, ?_, (pushed_numbered s.cpu gate n).trans hpushed (by decide),
    ?_⟩
  · rw [interrupt, isrInstall_irq, ← hgate, hdeliver, ok_bind, hsymbol]
    show runFrom image 2 (.irq n) s₁ = _
    rw [runFrom, hstub, ok_bind]
    exact hrun
  · rw [hregs, hregs₂]
    exact Regs.ext rfl rfl rfl rfl hesp rfl rfl rfl rfl rfl rfl rfl hsel.es.symm hsel.fs.symm
      hsel.gs.symm
  · rw [hread]
    exact frame_truthful s.cpu gate n s.cpu.top s.cpu.drop.top
  · rw [← registerAll_get hregistered n]
    exact ⟨hhandled.mem, hhandled.irqHandlers, hhandled.events⟩

/-- Stubs laid out in the order of their text, 16 bytes for each. -/
def clockSymbol (sym : Symbol) : Word :=
  BitVec.ofNat 32 (0xC0100000 + 16 * allSymbols.idxOf sym)

theorem clockSymbol_inj : Function.Injective clockSymbol := by
  intro a b h
  have ha : allSymbols.idxOf a < 50 := List.idxOf_lt_length_of_mem (mem_allSymbols a)
  have hb : allSymbols.idxOf b < 50 := List.idxOf_lt_length_of_mem (mem_allSymbols b)
  have haddr := (ofNat_inj_of_lt (by omega) (by omega)).mp h
  exact (List.idxOf_inj (mem_allSymbols a)).mp (by omega)

/-- A kernel whose handlers acknowledge the clock, and leave rubbish in the registers. -/
def clockImage : Image where
  symbol := clockSymbol
  symbol_inj := clockSymbol_inj
  afterCall := 0xC0100400
  funcs _ := { run := fun _ k => (k, [(0x70, 0x0C)]), keeps_frame := fun _ _ _ _ => rfl }
  leaves :=
    { eax := fun _ => 0xDEADBEEF
      ecx := fun _ => 0xDEADBEEF
      edx := fun _ => 0xDEADBEEF
      eflags := fun c => c.regs.eflags
      mem := fun _ m => m
      keeps_nt := fun _ => rfl
      keeps_frame := fun _ _ _ _ => rfl }

/-- Kernel code that runs with interrupts on, with a handler for the clock. -/
def clockState : State where
  cpu :=
    { regs :=
        { eax := 1, ecx := 2, edx := 3, ebx := 4, esp := 0xC0200000, ebp := 5, esi := 6, edi := 7
          eip := 0xC0101234, eflags := 0x202, cs := codeSelector, ds := dataSelector
          es := dataSelector, fs := dataSelector, gs := dataSelector }
      cr2 := 0
      mem := fun _ => 0xCC }
  irqHandlers := (Vector.replicate 16 0).set 8 0xC0103000
  events := []

/-- The clock is acknowledged at its own port, and then both controllers are told. -/
theorem irq_transparent_sample : ∃ t info,
    interrupt clockImage (isrInstall clockImage fun _ => gateTo 0 0) (irqVector 8) none
        clockState = .ok t ∧
      t.cpu.regs = clockState.cpu.regs ∧ Truthful 8 clockState.cpu.regs info ∧
      t.events = [.call 0xC0103000 info, .outb 0x70 0x0C, .outb 0xA0 0x20, .outb 0x20 0x20] := by
  obtain ⟨t, c, hrun, hregs, htruthful, -, hhandled⟩ :=
    irq_transparent clockImage (fun _ => gateTo 0 0) [(8, 0xC0103000)] 8 clockState
      ⟨by decide, by decide⟩ ⟨rfl, rfl, rfl, rfl⟩ rfl
  exact ⟨t, _, hrun, hregs, htruthful, hhandled.events⟩

end MVK
