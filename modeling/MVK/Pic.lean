import MVK.IrqStub
import MVK.Lib.Preemption

/-!
# The interrupt controllers

The two 8259A of a PC, as far as the kernel uses them: their initialisation in four command
words, the mask at the data port, requests and levels in service, and the non-specific end
of interrupt.  The slave's output is wired to input 2 of the master, and to nothing else.

A command that the kernel does not send gives `none`, and so does an interrupt when the
chips are not in the mode that it sets: cascaded, edge triggered, 8086, fully nested, with
ends of interrupts to be sent.

## Main definitions

* `Pic`, `Pic.writeCommand`, `Pic.writeData` — one chip, and its two ports.
* `Pics`, `Pics.outb` — the pair, and the ports of the machine.
* `picRemap` — `pic_remap`.
* `Pics.acknowledge` — what the processor gets when it asks for the vector.

## Main results

* `picRemap_eq` — **from any state of the chips the pair is set up.**
-/

namespace MVK

open Preemption

/-- What the data port of a chip takes next. -/
inductive Awaits
  | icw2
  | icw3
  | icw4
  | ocw1
  deriving DecidableEq

/-- An 8259A: the command words, the mask, the requests and the levels in service. -/
structure Pic where
  awaits : Awaits
  icw1 : Byte
  icw2 : Byte
  icw3 : Byte
  icw4 : Byte
  imr : Byte
  irr : Finset (Fin 8)
  isr : Finset (Fin 8)

/-! ### The ports -/

/-- `ICW1_INIT | ICW1_ICW4`. -/
def icw1Init : Byte := 0x10 ||| 0x01

/-- `ICW4_8086`. -/
def icw4Mode : Byte := 0x01

/-- `PIC_EOI`. -/
def eoiCommand : Byte := 0x20

/-- A write to the command port.  The first command word starts the sequence over, whatever
the chip was doing. -/
def Pic.writeCommand (p : Pic) (value : Byte) : Option Pic :=
  if value.getLsbD 4 then
    some { p with awaits := .icw2, icw1 := value, icw4 := 0, imr := 0, irr := ∅, isr := ∅ }
  else if value = eoiCommand then some { p with isr := endFirst p.isr }
  else none

/-- Whether ICW4 comes before the mask. -/
def Pic.awaitsIcw4 (p : Pic) : Awaits := if p.icw1.getLsbD 0 then .icw4 else .ocw1

/-- A write to the data port. -/
def Pic.writeData (p : Pic) (value : Byte) : Pic :=
  match p.awaits with
  | .icw2 => { p with
      icw2 := value
      awaits := if p.icw1.getLsbD 1 then p.awaitsIcw4 else .icw3 }
  | .icw3 => { p with icw3 := value, awaits := p.awaitsIcw4 }
  | .icw4 => { p with icw4 := value, awaits := .ocw1 }
  | .ocw1 => { p with imr := value }

/-- A read of the data port. -/
def Pic.readData (p : Pic) : Byte := p.imr

structure Pics where
  master : Pic
  slave : Pic

/-- `outb`. -/
def Pics.outb (c : Pics) (port : BitVec 16) (value : Byte) : Option Pics :=
  if port = 0x20 then (c.master.writeCommand value).map fun master => { c with master }
  else if port = 0x21 then some { c with master := c.master.writeData value }
  else if port = 0xA0 then (c.slave.writeCommand value).map fun slave => { c with slave }
  else if port = 0xA1 then some { c with slave := c.slave.writeData value }
  else some c

/-- `io_wait`. -/
def Pics.ioWait (c : Pics) : Option Pics := c.outb 0x80 0

/-- `pic_remap`. -/
def picRemap (offset1 offset2 : Word) (c : Pics) : Option Pics := do
  let a1 := c.master.readData
  let a2 := c.slave.readData
  let c ← c.outb 0x20 icw1Init
  let c ← c.ioWait
  let c ← c.outb 0xA0 icw1Init
  let c ← c.ioWait
  let c ← c.outb 0x21 (offset1.setWidth 8)
  let c ← c.ioWait
  let c ← c.outb 0xA1 (offset2.setWidth 8)
  let c ← c.ioWait
  let c ← c.outb 0x21 0b100
  let c ← c.ioWait
  let c ← c.outb 0xA1 0b010
  let c ← c.ioWait
  let c ← c.outb 0x21 icw4Mode
  let c ← c.ioWait
  let c ← c.outb 0xA1 icw4Mode
  let c ← c.ioWait
  let c ← c.outb 0x21 a1
  c.outb 0xA1 a2

/-- A chip that has been set up, with the mask it had. -/
def Pic.initialized (icw2 icw3 imr : Byte) : Pic where
  awaits := .ocw1
  icw1 := icw1Init
  icw2 := icw2
  icw3 := icw3
  icw4 := icw4Mode
  imr := imr
  irr := ∅
  isr := ∅

/-- The first command word, whatever the chip was doing. -/
def Pic.restarted (p : Pic) : Pic :=
  { p with awaits := .icw2, icw1 := icw1Init, icw4 := 0, imr := 0, irr := ∅, isr := ∅ }

/-- The four writes to the data port that follow. -/
theorem Pic.initialized_eq (p : Pic) (icw2 icw3 imr : Byte) :
    (((p.restarted.writeData icw2).writeData icw3).writeData icw4Mode).writeData imr =
      .initialized icw2 icw3 imr := by
  have hcascade : icw1Init.getLsbD 1 = false := by decide
  have hfour : icw1Init.getLsbD 0 = true := by decide
  simp only [Pic.restarted, Pic.writeData, Pic.awaitsIcw4, Pic.initialized, hcascade, hfour,
    if_true, Bool.false_eq_true, if_false]

section Ports

variable (c : Pics) (value : Byte)

theorem outb_master_init : c.outb 0x20 icw1Init = some { c with master := c.master.restarted } :=
  rfl

theorem outb_slave_init : c.outb 0xA0 icw1Init = some { c with slave := c.slave.restarted } := rfl

theorem outb_master_data : c.outb 0x21 value = some { c with master := c.master.writeData value } :=
  rfl

theorem outb_slave_data : c.outb 0xA1 value = some { c with slave := c.slave.writeData value } :=
  rfl

theorem ioWait_eq : c.ioWait = some c := rfl

end Ports

/-- **`pic_remap` sets up the pair** from any state, also from the middle of a sequence of
command words.  The masks are kept; requests that were waiting are forgotten. -/
theorem picRemap_eq (offset1 offset2 : Word) (c : Pics) :
    picRemap offset1 offset2 c = some
      { master := .initialized (offset1.setWidth 8) 0b100 c.master.imr
        slave := .initialized (offset2.setWidth 8) 0b010 c.slave.imr } := by
  simp only [picRemap, outb_master_init, outb_slave_init, outb_master_data, outb_slave_data,
    ioWait_eq, Option.bind_eq_bind, Option.bind_some, Pic.initialized_eq, Pic.readData]

/-! ### Requests -/

/-- The line of an input of the master. -/
def masterLine (i : Fin 8) : Fin 16 := ⟨i, by omega⟩

/-- The line of an input of the slave. -/
def slaveLine (j : Fin 8) : Fin 16 := ⟨8 + j, by omega⟩

/-- The input of the master that the slave's output is wired to. -/
def cascadeInput : Fin 8 := 2

/-- The requests that are not masked. -/
def Pic.requests (p : Pic) : Finset (Fin 8) := p.irr.filter fun i => p.imr.getLsbD i = false

/-- The request that the chip passes on. -/
def Pic.request (p : Pic) : Option (Fin 8) := winner p.requests p.isr

/-- The master with the slave's output at its input. -/
def Pics.wired (c : Pics) : Pic :=
  { c.master with
    irr := if c.slave.request.isSome then insert cascadeInput c.master.irr
      else c.master.irr.erase cascadeInput }

/-- Whether the processor is interrupted. -/
def Pics.asserts (c : Pics) : Bool := c.wired.request.isSome

/-- A device raises its line. -/
def Pics.raise (c : Pics) (n : Fin 16) : Pics :=
  if h : n.val < 8 then { c with master.irr := insert ⟨n, h⟩ c.master.irr }
  else { c with slave.irr := insert ⟨n - 8, by omega⟩ c.slave.irr }

/-- Whether a line is waiting. -/
def Pics.Waits (c : Pics) (n : Fin 16) : Prop :=
  if h : n.val < 8 then ⟨n, h⟩ ∈ c.master.irr else ⟨n - 8, by omega⟩ ∈ c.slave.irr

instance (c : Pics) (n : Fin 16) : Decidable (c.Waits n) := by
  unfold Pics.Waits
  infer_instance

/-- Devices lower their lines again before they were served. -/
def Pics.withdraw (c : Pics) (gone : Finset (Fin 16)) : Pics where
  master := { c.master with irr := c.master.irr.filter fun i => masterLine i ∉ gone }
  slave := { c.slave with irr := c.slave.irr.filter fun j => slaveLine j ∉ gone }

/-- A request becomes a level in service. -/
def Pic.serve (p : Pic) (i : Fin 8) : Pic := { p with irr := p.irr.erase i, isr := insert i p.isr }

/-- Whether neither mask is set for the line. -/
def Pics.Enabled (c : Pics) (n : Fin 16) : Prop :=
  if n.val < 8 then c.master.imr.getLsbD n = false
  else c.slave.imr.getLsbD (n.val - 8) = false ∧ c.master.imr.getLsbD cascadeInput = false

instance (c : Pics) (n : Fin 16) : Decidable (c.Enabled n) := by
  unfold Pics.Enabled
  infer_instance

/-- The chip answers: the level it serves, or level 7 if there is nothing left to serve. -/
def Pic.inta (p : Pic) : Fin 8 × Pic :=
  match p.request with
  | some i => (i, p.serve i)
  | none => (7, p)

/-- The vector of a level. -/
def Pic.vector (p : Pic) (i : Fin 8) : Byte := p.icw2 &&& 0xF8 ||| BitVec.ofNat 8 i

/-- The mode that `pic_remap` sets. -/
def Pic.Ready (p : Pic) : Prop := p.awaits = .ocw1 ∧ p.icw1 = icw1Init ∧ p.icw4 = icw4Mode

instance (p : Pic) : Decidable p.Ready := inferInstanceAs (Decidable (_ ∧ _))

/-- The processor asks for the vector, in two pulses; lines of the slave may be lowered
between them.  The master answers the first.  If it has a slave at that level, the slave
that carries the number answers the second. -/
def Pics.acknowledge (c : Pics) (late : Finset (Fin 16)) : Option (Byte × Pics) :=
  if c.master.Ready ∧ c.slave.Ready then
    let (i, master) := c.wired.inta
    if master.icw3.getLsbD i then
      let (j, slave) := (c.withdraw late).slave.inta
      if slave.icw3.extractLsb' 0 3 = BitVec.ofNat 3 i then
        some (slave.vector j, { master, slave })
      else none
    else some (master.vector i, { c with master })
  else none

/-! ### The pair as it has been set up -/

/-- The vectors from 32 on, with the slave at input 2. -/
structure Pics.Remapped (c : Pics) : Prop where
  master : c.master.Ready
  slave : c.slave.Ready
  masterVectors : c.master.icw2 = 32
  slaveVectors : c.slave.icw2 = 40
  masterCascade : c.master.icw3 = 0b100
  slaveCascade : c.slave.icw3 = 0b010

/-- `pic_remap(IRQ0, IRQ8)`, in `isr_install`. -/
theorem remapped_of_picRemap {c c' : Pics} (h : picRemap 32 40 c = some c') : c'.Remapped := by
  obtain rfl := Option.some.inj ((picRemap_eq 32 40 c).symm.trans h)
  exact ⟨⟨rfl, rfl, rfl⟩, ⟨rfl, rfl, rfl⟩, rfl, rfl, rfl, rfl⟩

/-- The line that the next interrupt comes from, `none` if there is nothing left to serve at the
master, or at the slave. -/
inductive Source
  | line (n : Fin 16)
  | spurious
  | spuriousSlave
  deriving DecidableEq

/-- The number that the source is handled under. -/
def Source.irq : Source → Fin 16
  | .line n => n
  | .spurious => 7
  | .spuriousSlave => 15

/-- Where the vector that `acknowledge` gives comes from. -/
def Pics.source (c : Pics) (late : Finset (Fin 16)) : Source :=
  match c.wired.request with
  | none => .spurious
  | some i =>
    if i = cascadeInput then
      match (c.withdraw late).slave.request with
      | none => .spuriousSlave
      | some j => .line (slaveLine j)
    else .line (masterLine i)

/-- The level that a source is in service at in the master. -/
def Source.masterLevel : Source → Option (Fin 8)
  | .line n => if h : n.val < 8 then some ⟨n, h⟩ else some cascadeInput
  | .spurious => none
  | .spuriousSlave => some cascadeInput

/-- The same in the slave. -/
def Source.slaveLevel : Source → Option (Fin 8)
  | .line n => if n.val < 8 then none else some ⟨n - 8, by omega⟩
  | .spurious => none
  | .spuriousSlave => none

@[simp] theorem masterLevel_masterLine (i : Fin 8) :
    (Source.line (masterLine i)).masterLevel = some i := by
  revert i
  decide

@[simp] theorem slaveLevel_masterLine (i : Fin 8) :
    (Source.line (masterLine i)).slaveLevel = none := by
  revert i
  decide

@[simp] theorem masterLevel_slaveLine (j : Fin 8) :
    (Source.line (slaveLine j)).masterLevel = some cascadeInput := by
  revert j
  decide

@[simp] theorem slaveLevel_slaveLine (j : Fin 8) :
    (Source.line (slaveLine j)).slaveLevel = some j := by
  revert j
  decide

/-- Who is in service in the slave is in service at the slave's input in the master. -/
theorem masterLevel_of_slaveLevel {source : Source} {j : Fin 8} (h : source.slaveLevel = some j) :
    source.masterLevel = some cascadeInput := by
  cases source with
  | line n =>
    have hn : ¬ n.val < 8 := fun hlt => by simp [Source.slaveLevel, hlt] at h
    exact dif_neg hn
  | spurious => cases h
  | spuriousSlave => rfl

/-! ### Lines -/

theorem line_cases (n : Fin 16) : (∃ i, n = masterLine i) ∨ ∃ j, n = slaveLine j := by
  revert n
  decide

theorem masterLine_inj {i k : Fin 8} : masterLine i = masterLine k ↔ i = k := by
  rw [masterLine, masterLine, Fin.mk.injEq, Fin.ext_iff]

theorem slaveLine_inj {j k : Fin 8} : slaveLine j = slaveLine k ↔ j = k := by
  rw [slaveLine, slaveLine, Fin.mk.injEq, Nat.add_left_cancel_iff, Fin.ext_iff]

theorem slaveLine_ne_masterLine (j i : Fin 8) : slaveLine j ≠ masterLine i := by
  revert i j
  decide

section Lines

variable {c : Pics} {i j : Fin 8}

@[simp] theorem waits_masterLine : c.Waits (masterLine i) ↔ i ∈ c.master.irr := by
  have hlt : (masterLine i).val < 8 := i.isLt
  rw [Pics.Waits, dif_pos hlt]
  rfl

@[simp] theorem waits_slaveLine : c.Waits (slaveLine j) ↔ j ∈ c.slave.irr := by
  have hge : ¬ (slaveLine j).val < 8 := Nat.not_lt.mpr (Nat.le_add_right 8 j)
  have hj : (⟨(slaveLine j).val - 8, by omega⟩ : Fin 8) = j :=
    Fin.ext (Nat.add_sub_cancel_left 8 j.val)
  rw [Pics.Waits, dif_neg hge, hj]

@[simp] theorem enabled_masterLine :
    c.Enabled (masterLine i) ↔ c.master.imr.getLsbD i = false := by
  have hlt : (masterLine i).val < 8 := i.isLt
  rw [Pics.Enabled, if_pos hlt]
  rfl

@[simp] theorem enabled_slaveLine : c.Enabled (slaveLine j) ↔
    c.slave.imr.getLsbD j = false ∧ c.master.imr.getLsbD cascadeInput = false := by
  have hge : ¬ (slaveLine j).val < 8 := Nat.not_lt.mpr (Nat.le_add_right 8 j)
  have hj : (slaveLine j).val - 8 = j := Nat.add_sub_cancel_left 8 j.val
  rw [Pics.Enabled, if_neg hge, hj]

theorem mem_requests {p : Pic} : i ∈ p.requests ↔ i ∈ p.irr ∧ p.imr.getLsbD i = false :=
  Finset.mem_filter

/-- A device at the master asks. -/
theorem mem_wired_requests (hi : i ≠ cascadeInput) :
    i ∈ c.wired.requests ↔ c.Waits (masterLine i) ∧ c.Enabled (masterLine i) := by
  rw [mem_requests, waits_masterLine, enabled_masterLine, Pics.wired]
  dsimp only
  split
  · rw [Finset.mem_insert, or_iff_right hi]
  · rw [Finset.mem_erase, and_iff_right hi]

/-- The slave asks. -/
theorem cascade_mem_wired_requests : cascadeInput ∈ c.wired.requests ↔
    c.slave.request.isSome ∧ c.master.imr.getLsbD cascadeInput = false := by
  rw [mem_requests, Pics.wired]
  dsimp only
  split
  · next hsome => simp [hsome]
  · next hnone => simp [hnone]

theorem mem_slave_requests : j ∈ c.slave.requests ↔
    c.Waits (slaveLine j) ∧ c.slave.imr.getLsbD j = false := by
  rw [mem_requests, waits_slaveLine]

theorem withdraw_waits {gone : Finset (Fin 16)} {n : Fin 16} :
    (c.withdraw gone).Waits n ↔ c.Waits n ∧ n ∉ gone := by
  rcases line_cases n with ⟨i, rfl⟩ | ⟨j, rfl⟩
  · rw [waits_masterLine, waits_masterLine]
    exact Finset.mem_filter
  · rw [waits_slaveLine, waits_slaveLine]
    exact Finset.mem_filter

@[simp] theorem withdraw_enabled {gone : Finset (Fin 16)} {n : Fin 16} :
    (c.withdraw gone).Enabled n ↔ c.Enabled n := Iff.rfl

@[simp] theorem withdraw_empty : c.withdraw ∅ = c := by
  simp [Pics.withdraw]

end Lines

/-! ### The vector -/

/-- The interrupt that a vector is the gate of. -/
def irqOf (vector : Byte) : Option (Fin 16) :=
  (List.finRange 16).find? fun n => (irqVector n).val = vector.toNat

theorem irqOf_master {p : Pic} (hp : p.icw2 = 32) (i : Fin 8) :
    irqOf (p.vector i) = some (masterLine i) := by
  rw [Pic.vector, hp]
  revert i
  decide

theorem irqOf_slave {p : Pic} (hp : p.icw2 = 40) (j : Fin 8) :
    irqOf (p.vector j) = some (slaveLine j) := by
  rw [Pic.vector, hp]
  revert j
  decide

theorem masterCascade_iff (i : Fin 8) : (0b100 : Byte).getLsbD i = true ↔ i = cascadeInput := by
  revert i
  decide

/-- What an answer can be: the four kinds of source, each with the pair it leaves. -/
inductive Answers (c : Pics) (late : Finset (Fin 16)) : Source → Pics → Prop
  | line {i : Fin 8} (request : c.wired.request = some i) (ne : i ≠ cascadeInput) :
      Answers c late (.line (masterLine i)) { c with master := c.wired.serve i }
  | slaveLine {j : Fin 8} (request : c.wired.request = some cascadeInput)
      (slave : (c.withdraw late).slave.request = some j) :
      Answers c late (.line (slaveLine j))
        ⟨c.wired.serve cascadeInput, (c.withdraw late).slave.serve j⟩
  | spurious (request : c.wired.request = none) :
      Answers c late .spurious { c with master := c.wired }
  | spuriousSlave (request : c.wired.request = some cascadeInput)
      (slave : (c.withdraw late).slave.request = none) :
      Answers c late .spuriousSlave ⟨c.wired.serve cascadeInput, (c.withdraw late).slave⟩

section Acknowledge

variable {c : Pics} (hc : c.Remapped) (late : Finset (Fin 16))

include hc

/-- The master answers by itself. -/
theorem acknowledge_master {i : Fin 8} {p : Pic} (hinta : c.wired.inta = (i, p))
    (hp : p.icw3 = c.master.icw3) (hi : i ≠ cascadeInput) :
    c.acknowledge late = some (p.vector i, { c with master := p }) := by
  have hnot : ¬ p.icw3.getLsbD i = true := by
    rw [hp, hc.masterCascade, masterCascade_iff]
    exact hi
  rw [Pics.acknowledge, if_pos ⟨hc.master, hc.slave⟩, hinta]
  exact if_neg hnot

/-- The slave answers for the master. -/
theorem acknowledge_slave {j : Fin 8} {p q : Pic} (hinta : c.wired.inta = (cascadeInput, p))
    (hp : p.icw3 = c.master.icw3) (hslave : (c.withdraw late).slave.inta = (j, q))
    (hq : q.icw3 = c.slave.icw3) :
    c.acknowledge late = some (q.vector j, ⟨p, q⟩) := by
  have hyes : p.icw3.getLsbD cascadeInput = true := by
    rw [hp, hc.masterCascade, masterCascade_iff]
  have hnumber : q.icw3.extractLsb' 0 3 = BitVec.ofNat 3 (cascadeInput : Fin 8) := by
    rw [hq, hc.slaveCascade]
    decide
  rw [Pics.acknowledge, if_pos ⟨hc.master, hc.slave⟩, hinta]
  dsimp only
  rw [if_pos hyes, hslave]
  exact if_pos hnumber

/-- **The answer of the pair** as it has been set up.  The vector is the gate of the source. -/
theorem acknowledge_eq : ∃ vector c', c.acknowledge late = some (vector, c') ∧
    irqOf vector = some (c.source late).irq ∧ Answers c late (c.source late) c' := by
  cases hrequest : c.wired.request with
  | none =>
    have hsource : c.source late = .spurious := by rw [Pics.source, hrequest]
    have hinta : c.wired.inta = (7, c.wired) := by rw [Pic.inta, hrequest]
    rw [hsource]
    exact ⟨_, _, acknowledge_master hc late hinta rfl (by decide), irqOf_master hc.masterVectors 7,
      .spurious hrequest⟩
  | some i =>
    have hinta : c.wired.inta = (i, c.wired.serve i) := by rw [Pic.inta, hrequest]
    by_cases hi : i = cascadeInput
    · subst hi
      cases hj : (c.withdraw late).slave.request with
      | none =>
        have hsource : c.source late = .spuriousSlave := by
          simp only [Pics.source, hrequest, hj, if_true]
        have hinta' : (c.withdraw late).slave.inta = (7, (c.withdraw late).slave) := by
          rw [Pic.inta, hj]
        rw [hsource]
        exact ⟨_, _, acknowledge_slave hc late hinta rfl hinta' rfl, irqOf_slave hc.slaveVectors 7,
          .spuriousSlave hrequest hj⟩
      | some j =>
        have hsource : c.source late = .line (slaveLine j) := by
          simp only [Pics.source, hrequest, hj, if_true]
        have hinta' : (c.withdraw late).slave.inta = (j, (c.withdraw late).slave.serve j) := by
          rw [Pic.inta, hj]
        rw [hsource]
        exact ⟨_, _, acknowledge_slave hc late hinta rfl hinta' rfl, irqOf_slave hc.slaveVectors j,
          .slaveLine hrequest hj⟩
    · have hsource : c.source late = .line (masterLine i) := by
        simp only [Pics.source, hrequest, if_neg hi]
      rw [hsource]
      exact ⟨_, _, acknowledge_master hc late hinta rfl hi, irqOf_master hc.masterVectors i,
        .line hrequest hi⟩

end Acknowledge

end MVK
