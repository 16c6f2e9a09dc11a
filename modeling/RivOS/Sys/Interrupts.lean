import Mathlib.Data.List.TakeWhile
import Mathlib.Data.Option.Basic
import RivOS.Support.Runs
import RivOS.Support.Paging

/-!
# Sys — Request lines and gates

The gates of `sys/IDT/idt.hpp`, the two 8259 of `sys/PIC/pic.hpp`, and what
`HardwareInterrupts::init` (`drivers/interrupts/init.cpp`) makes of the two.  The keyboard's controller,
which it sets up as well, is left out, and of a chip's commands those that the kernel does not give.

* `gate_setDescriptor`: the processor finds in a gate what has been put there.
* `Duty`: two interrupts, each of which waits or does not, and the handler that runs.
* `lines_refine`: from the end of the initialization on, the chips, the gates and the handlers have the
  histories of `Duty`, and no other.
* `requests_counted`: no handler runs without a request of its own, and no request is lost.
-/

namespace RivOS

/-! ### Gates -/

structure IdtEntry where
  isrLow : BitVec 16
  kernelCs : BitVec 16
  reserved : BitVec 8
  attributes : BitVec 8
  isrHigh : BitVec 16

/-- What the processor reads from a 32-bit interrupt gate that is present. -/
def IdtEntry.gate (e : IdtEntry) : Option (BitVec 16 × Word) :=
  if e.attributes &&& 0x9F = 0x8E then some (e.kernelCs, e.isrHigh ++ e.isrLow) else none

abbrev Idt : Type := BitVec 8 → IdtEntry

/-- Where the linker has put the stubs. -/
structure Stubs where
  isrStubTable : Nat → Word
  pitStub : Word
  keyboardStub : Word
  syscallStub : Word
  apart : pitStub ≠ keyboardStub

namespace Idt

/-- In `.bss`. -/
def zeroed : Idt := fun _ => ⟨0, 0, 0, 0, 0⟩

def setDescriptor (idt : Idt) (vector : BitVec 8) (isr : Word) (flags : BitVec 8) : Idt :=
  Function.update idt vector
    { isrLow := (isr &&& 0xFFFF).setWidth 16
      kernelCs := 0x08
      reserved := 0
      attributes := flags
      isrHigh := (isr >>> 16).setWidth 16 }

def init (st : Stubs) (idt : Idt) : Idt :=
  (List.range 32).foldl (fun idt vector =>
    idt.setDescriptor (BitVec.ofNat 8 vector) (st.isrStubTable vector) 0x8E) idt

/-- A gate that has been set, and the others. -/
theorem gate_setDescriptor (idt : Idt) (vector : BitVec 8) (isr : Word) (v : BitVec 8) :
    (idt.setDescriptor vector isr 0x8E v).gate =
      if v = vector then some (0x08, isr) else (idt v).gate := by
  have hlow : (isr &&& 0xFFFF).setWidth 16 = isr.setWidth 16 := by
    rw [BitVec.setWidth_and, show (0xFFFF : Word).setWidth 16 = BitVec.allOnes 16 by decide,
      BitVec.and_allOnes]
  have hisr : (isr >>> 16).setWidth 16 ++ (isr &&& 0xFFFF).setWidth 16 = isr := by
    rw [hlow]
    ext i hi
    simp only [BitVec.getElem_append]
    grind
  have hattr : (0x8E : BitVec 8) &&& 0x9F = 0x8E := by decide
  by_cases hv : v = vector
  · rw [if_pos hv, hv, setDescriptor, Function.update_self, IdtEntry.gate, if_pos hattr, hisr]
  · rw [if_neg hv, setDescriptor, Function.update_of_ne hv]

theorem gate_init (st : Stubs) (v : BitVec 8) : (init st zeroed v).gate =
    if v.toNat < 32 then some (0x08, st.isrStubTable v.toNat) else none := by
  have hloop (n : Nat) (hn : n ≤ 32) : ((List.range n).foldl (fun idt vector =>
      idt.setDescriptor (BitVec.ofNat 8 vector) (st.isrStubTable vector) 0x8E) zeroed v).gate =
      if v.toNat < n then some (0x08, st.isrStubTable v.toNat) else none := by
    induction n with
    | zero =>
        have hzero : ¬ (0 : BitVec 8) &&& 0x9F = 0x8E := by decide
        rw [if_neg (Nat.not_lt_zero _)]
        exact if_neg hzero
    | succ n ih =>
        have hnat : v = BitVec.ofNat 8 n ↔ v.toNat = n := by bv_omega
        rw [List.range_succ, List.foldl_append, List.foldl_cons, List.foldl_nil,
          gate_setDescriptor, ih (by omega)]
        by_cases hv : v.toNat = n
        · rw [if_pos (hnat.mpr hv), if_pos (by omega), hv]
        · rw [if_neg fun he => hv (hnat.mp he)]
          exact if_congr (by omega) rfl rfl
  exact hloop 32 (Nat.le_refl 32)

end Idt

/-! ### The 8259 -/

/-- `1 << line`, in a byte. -/
def lineBit (line : Nat) : BitVec 8 := 1 <<< line

structure Chip where
  /-- How many of the words ICW2, ICW3 and ICW4 are still to come. -/
  awaits : Nat
  offset : BitVec 8
  cascade : BitVec 8
  mode : BitVec 8
  mask : BitVec 8
  requests : BitVec 8
  inService : BitVec 8

namespace Chip

variable (c : Chip)

/-- A byte at the command port: ICW1, or the end of the interrupt of the highest priority. -/
def command (v : BitVec 8) : Chip :=
  if v.getLsbD 4 then { c with awaits := 3, mask := 0, requests := 0, inService := 0 }
  else if v = 0x20 then { c with inService := c.inService &&& (c.inService - 1) }
  else c

def data (v : BitVec 8) : Chip :=
  match c.awaits with
  | 0 => { c with mask := v }
  | 3 => { c with awaits := 2, offset := v &&& 0xF8 }
  | 2 => { c with awaits := 1, cascade := v }
  | n + 1 => { c with awaits := n, mode := v }

def request (line : Nat) : Chip := { c with requests := c.requests ||| lineBit line }

/-- The line for which the chip interrupts: of those before the ones in service the first. -/
def pending : Option Nat :=
  ((List.range 8).takeWhile fun n => !c.inService.getLsbD n).find? fun n =>
    c.requests.getLsbD n && !c.mask.getLsbD n

def acknowledge (line : Nat) : Chip :=
  { c with
    requests := c.requests &&& ~~~lineBit line
    inService := c.inService ||| lineBit line }

end Chip

structure Pics where
  pic1 : Chip
  pic2 : Chip

namespace Pics

variable (p : Pics)

/-- The processor's part: lines from 8 on are those of the second chip, whose own is line 2. -/
def request (line : Fin 16) : Pics :=
  if line.val < 8 then { p with pic1 := p.pic1.request line }
  else { p with pic2 := p.pic2.request (line - 8) }

def pending : Option Nat :=
  match (if p.pic2.pending.isSome then p.pic1.request 2 else p.pic1).pending with
  | some 2 => p.pic2.pending.map (8 + ·)
  | line => line

def vector (line : Nat) : BitVec 8 :=
  if line < 8 then p.pic1.offset + BitVec.ofNat 8 line
  else p.pic2.offset + BitVec.ofNat 8 (line - 8)

def acknowledge (line : Nat) : Pics :=
  if line < 8 then { p with pic1 := p.pic1.acknowledge line }
  else { pic1 := p.pic1.acknowledge 2, pic2 := p.pic2.acknowledge (line - 8) }

end Pics

/-! ### `PIC` -/

namespace PIC

def pic1Cmd : BitVec 16 := 0x20
def pic1Data : BitVec 16 := pic1Cmd + 1
def pic2Cmd : BitVec 16 := 0xA0
def pic2Data : BitVec 16 := pic2Cmd + 1
def picEoi : BitVec 8 := 0x20
def icw1Icw4 : BitVec 8 := 0x01
def icw1Init : BitVec 8 := 0x10
def icw4_8086 : BitVec 8 := 0x01
def cascadeIrq : Nat := 2

def outb (port : BitVec 16) (val : BitVec 8) (p : Pics) : Pics :=
  if port = pic1Cmd then { p with pic1 := p.pic1.command val }
  else if port = pic1Data then { p with pic1 := p.pic1.data val }
  else if port = pic2Cmd then { p with pic2 := p.pic2.command val }
  else if port = pic2Data then { p with pic2 := p.pic2.data val }
  else p

/-- At a data port, behind the initialization: the mask. -/
def inb (port : BitVec 16) (p : Pics) : BitVec 8 :=
  if port = pic1Data then p.pic1.mask else p.pic2.mask

def ioWait (p : Pics) : Pics := outb 0x80 0 p

def remap (offset1 offset2 : BitVec 8) (p : Pics) : Pics :=
  let p := ioWait (outb pic1Cmd (icw1Init ||| icw1Icw4) p)
  let p := ioWait (outb pic2Cmd (icw1Init ||| icw1Icw4) p)
  let p := ioWait (outb pic1Data offset1 p)
  let p := ioWait (outb pic2Data offset2 p)
  let p := ioWait (outb pic1Data (lineBit cascadeIrq) p)
  let p := ioWait (outb pic2Data (BitVec.ofNat 8 cascadeIrq) p)
  let p := ioWait (outb pic1Data icw4_8086 p)
  let p := ioWait (outb pic2Data icw4_8086 p)
  outb pic2Data 0 (outb pic1Data 0 p)

def init (p : Pics) : Pics :=
  outb pic2Data 0xFF (outb pic1Data 0xFF (remap 0x20 0x28 p))

def irqClearMask (irqLine : Nat) (p : Pics) : Pics :=
  let (port, line) := if irqLine < 8 then (pic1Data, irqLine) else (pic2Data, irqLine - 8)
  outb port (inb port p &&& ~~~lineBit line) p

def sendEoi (irq : Nat) (p : Pics) : Pics :=
  outb pic1Cmd picEoi (if irq ≥ 8 then outb pic2Cmd picEoi p else p)

/-- Whatever the chips did before. -/
theorem init_eq (p : Pics) :
    init p = ⟨⟨0, 0x20, 4, 1, 0xFF, 0, 0⟩, ⟨0, 0x28, 2, 1, 0xFF, 0, 0⟩⟩ := rfl

end PIC

variable {c : Chip}

theorem getLsbD_lineBit (line n : Fin 8) : (lineBit line).getLsbD n = (line.val == n.val) := by
  revert line n
  decide

namespace Chip

/-- With nothing in service, and all lines masked but two. -/
theorem pending_two (hs : c.inService = 0) (hm : c.mask = 0xFC) : c.pending =
    if c.requests.getLsbD 0 then some 0 else if c.requests.getLsbD 1 then some 1 else none := by
  have hidle : ∀ n ∈ List.range 8, (!c.inService.getLsbD n) = true := by
    rw [hs]
    decide
  rw [pending, List.takeWhile_eq_self_iff.mpr hidle, hm,
    show List.range 8 = [0, 1, 2, 3, 4, 5, 6, 7] from rfl]
  cases h₀ : c.requests.getLsbD 0 with
  | true => rw [List.find?_cons_of_pos (by rw [h₀]; rfl), if_pos rfl]
  | false =>
      rw [List.find?_cons_of_neg (by rw [h₀]; decide), if_neg (by decide)]
      cases h₁ : c.requests.getLsbD 1 with
      | true => rw [List.find?_cons_of_pos (by rw [h₁]; rfl), if_pos rfl]
      | false =>
          rw [List.find?_cons_of_neg (by rw [h₁]; decide), if_neg (by decide)]
          refine List.find?_eq_none.mpr fun n hn => ?_
          have hmask : (0xFC : BitVec 8).getLsbD n = true := by
            revert n
            decide
          rw [hmask]
          simp

theorem pending_masked (hm : c.mask = 0xFF) : c.pending = none := by
  refine List.find?_eq_none.mpr fun n hn => ?_
  have hlt : n < 8 := List.mem_range.mp ((List.takeWhile_subset _) hn)
  have hmask : ∀ n < 8, (0xFF : BitVec 8).getLsbD n = true := by decide
  rw [hm, hmask n hlt]
  simp

end Chip

/-! ### The processor and the handlers -/

namespace HardwareInterrupts

/-- `HardwareInterrupts::init`. -/
def init (st : Stubs) (idt : Idt) (p : Pics) : Idt × Pics :=
  let idt := idt.setDescriptor 0x20 st.pitStub 0x8E
  let idt := idt.setDescriptor 0x21 st.keyboardStub 0x8E
  let idt := idt.setDescriptor 0x80 st.syscallStub 0x8E
  (idt, PIC.irqClearMask 1 (PIC.irqClearMask 0 p))

inductive Event where
  /-- A device raises its line. -/
  | request (line : Fin 16)
  /-- The processor takes what the chips offer and goes to a handler. -/
  | enter (handler : Word)
  /-- The handler returns to what it has interrupted. -/
  | leave
  /-- `ctxtSwitch`, in the timer's handler or out of one; IF is that of the process. -/
  | switch (ie : Bool)
  /-- A program's `STI` or `CLI`. -/
  | setIf (ie : Bool)
deriving DecidableEq

structure Lines where
  pics : Pics
  idt : Idt
  ie : Bool
  /-- Where the handler that runs has been entered. -/
  running : Option Word

namespace Lines

/-- What `pitHandler` and `keyboardHandler` do at their ends. -/
def eoi (st : Stubs) (handler : Word) (p : Pics) : Option Pics :=
  if handler = st.pitStub then some (PIC.sendEoi 0 p)
  else if handler = st.keyboardStub then some (PIC.sendEoi 1 p)
  else none

def step (st : Stubs) (s : Lines) : Event → Option Lines
  | .request line => some { s with pics := s.pics.request line }
  | .enter handler =>
      if s.ie ∧ s.running = none then do
        let line ← s.pics.pending
        let (_, isr) ← (s.idt (s.pics.vector line)).gate
        if isr = handler then
          some { s with pics := s.pics.acknowledge line, ie := false, running := some isr }
        else none
      else none
  | .leave => do
      let handler ← s.running
      let pics ← eoi st handler s.pics
      return { s with pics, ie := true, running := none }
  | .switch ie =>
      if s.running = none ∨ s.running = some st.pitStub then
        some { s with pics := PIC.sendEoi 0 s.pics, ie, running := none }
      else none
  | .setIf ie => if s.running = none then some { s with ie } else none

def Step (st : Stubs) (s : Lines) (e : Event) (t : Lines) : Prop := s.step st e = some t

/-- What `kernelMain` leaves, `early` being the lines raised behind `PIC::init`. -/
def booted (st : Stubs) (p : Pics) (early : List (Fin 16)) : Lines :=
  let (idt, pics) := init st (Idt.init st Idt.zeroed)
    (early.foldl Pics.request (PIC.init p))
  { pics, idt, ie := false, running := none }

end Lines

/-! ### Two interrupts -/

inductive Irq where
  | timer
  | keyboard
deriving DecidableEq

def Irq.line : Irq → Nat
  | .timer => 0
  | .keyboard => 1

def stub (st : Stubs) : Irq → Word
  | .timer => st.pitStub
  | .keyboard => st.keyboardStub

structure Duty where
  waits : Irq → Bool
  running : Option Irq
  ie : Bool

namespace Duty

/-- The timer goes first. -/
def next (d : Duty) : Option Irq :=
  if d.waits .timer then some .timer else if d.waits .keyboard then some .keyboard else none

def step (stub : Irq → Word) (d : Duty) : Event → Option Duty
  | .request line => some { d with waits := fun i => d.waits i || line.val == i.line }
  | .enter handler =>
      if d.ie ∧ d.running = none then do
        let i ← d.next
        if stub i = handler then
          some { waits := Function.update d.waits i false, running := some i, ie := false }
        else none
      else none
  | .leave => if d.running.isSome then some { d with running := none, ie := true } else none
  | .switch ie => if d.running = some .keyboard then none else some { d with running := none, ie }
  | .setIf ie => if d.running = none then some { d with ie } else none

def Step (stub : Irq → Word) (d : Duty) (e : Event) (d' : Duty) : Prop := d.step stub e = some d'

def booted (early : List (Fin 16)) : Duty :=
  { waits := fun i => early.any fun line => line.val == i.line, running := none, ie := false }

end Duty

/-! ### The chips and the two interrupts -/

variable {st : Stubs} {s : Lines} {d : Duty}

/-- What the chips, the gates and the processor have of the two interrupts. -/
structure Agrees (st : Stubs) (s : Lines) (d : Duty) : Prop where
  mask : s.pics.pic1.mask = 0xFC ∧ s.pics.pic2.mask = 0xFF
  offset : s.pics.pic1.offset = 0x20
  requests : ∀ i : Irq, s.pics.pic1.requests.getLsbD i.line = d.waits i
  inService : s.pics.pic1.inService = d.running.elim 0 (lineBit ·.line) ∧ s.pics.pic2.inService = 0
  gates : ∀ i : Irq, (s.idt (0x20 + BitVec.ofNat 8 i.line)).gate = some (0x08, stub st i)
  running : s.running = d.running.map (stub st)
  ie : s.ie = d.ie

theorem stub_inj {i j : Irq} (h : stub st i = stub st j) : i = j := by
  cases i <;> cases j
  · rfl
  · exact absurd h st.apart
  · exact absurd h.symm st.apart
  · rfl

theorem line_lt (i : Irq) : i.line < 8 := by cases i <;> decide

theorem eoi_stub (i : Irq) (p : Pics) : Lines.eoi st (stub st i) p =
    some { p with pic1 := p.pic1.command PIC.picEoi } := by
  cases i with
  | timer => exact if_pos rfl
  | keyboard => exact (if_neg st.apart.symm).trans (if_pos rfl)

/-- The end of the only interrupt in service. -/
theorem command_eoi (h : c.inService = 0 ∨ ∃ i : Irq, c.inService = lineBit i.line) :
    c.command PIC.picEoi = { c with inService := 0 } := by
  have hnone : c.inService &&& (c.inService - 1) = 0 := by
    obtain h | ⟨i, h⟩ := h
    · rw [h]
      decide
    · rw [h]
      cases i <;> decide
  rw [Chip.command, if_neg (by decide), if_pos (show PIC.picEoi = 0x20 from rfl), hnone]

theorem Agrees.pending (h : Agrees st s d) (hidle : d.running = none) :
    s.pics.pending = d.next.map Irq.line := by
  have hservice : s.pics.pic1.inService = 0 := by
    rw [h.inService.1, hidle]
    rfl
  have htimer : s.pics.pic1.requests.getLsbD 0 = d.waits .timer := h.requests .timer
  have hkeyboard : s.pics.pic1.requests.getLsbD 1 = d.waits .keyboard := h.requests .keyboard
  rw [Pics.pending, Chip.pending_masked h.mask.2, if_neg (by decide),
    Chip.pending_two hservice h.mask.1, htimer, hkeyboard, Duty.next]
  cases d.waits .timer <;> cases d.waits .keyboard <;> rfl

theorem getLsbD_or_lineBit (b : BitVec 8) (line : Fin 8) (i : Irq) :
    (b ||| lineBit line).getLsbD i.line = (b.getLsbD i.line || line.val == i.line) := by
  rw [BitVec.getLsbD_or, getLsbD_lineBit line ⟨i.line, line_lt i⟩]

theorem getLsbD_and_lineBit (b : BitVec 8) (i j : Irq) :
    (b &&& ~~~lineBit i.line).getLsbD j.line = (b.getLsbD j.line && !(i.line == j.line)) := by
  rw [BitVec.getLsbD_and, BitVec.getLsbD_not,
    getLsbD_lineBit ⟨i.line, line_lt i⟩ ⟨j.line, line_lt j⟩, decide_eq_true (line_lt j),
    Bool.true_and]

theorem Agrees.request (h : Agrees st s d) (line : Fin 16) :
    Agrees st { s with pics := s.pics.request line }
      { d with waits := fun i => d.waits i || line.val == i.line } := by
  rw [Pics.request]
  by_cases hline : line.val < 8
  · rw [if_pos hline]
    refine { h with requests := fun i => ?_ }
    show (s.pics.pic1.requests ||| lineBit line.val).getLsbD i.line = _
    rw [getLsbD_or_lineBit _ ⟨line.val, hline⟩, h.requests]
  · rw [if_neg hline]
    refine { h with requests := fun i => ?_ }
    have hne : (line.val == i.line) = false := beq_false_of_ne fun he => hline (he ▸ line_lt i)
    show s.pics.pic1.requests.getLsbD i.line = (d.waits i || line.val == i.line)
    rw [hne, Bool.or_false, h.requests]

theorem Agrees.acknowledge (h : Agrees st s d) (i : Irq) (hidle : d.running = none) :
    Agrees st { s with pics := s.pics.acknowledge i.line, ie := false, running := some (stub st i) }
      { waits := Function.update d.waits i false, running := some i, ie := false } := by
  rw [Pics.acknowledge, if_pos (line_lt i)]
  refine { h with requests := fun j => ?_, inService := ⟨?_, h.inService.2⟩, running := rfl, ie := rfl }
  · show (s.pics.pic1.requests &&& ~~~lineBit i.line).getLsbD j.line = _
    rw [getLsbD_and_lineBit, h.requests]
    cases i <;> cases j <;> simp [Function.update, Irq.line]
  · show s.pics.pic1.inService ||| lineBit i.line = lineBit i.line
    rw [h.inService.1, hidle]
    exact BitVec.zero_or

/-- After an EOI nothing is in service. -/
theorem Agrees.eoi (h : Agrees st s d) (ie : Bool) :
    Agrees st { s with
        pics := { s.pics with pic1 := s.pics.pic1.command PIC.picEoi }, ie, running := none }
      { d with running := none, ie } := by
  have hservice : s.pics.pic1.inService = 0 ∨
      ∃ i : Irq, s.pics.pic1.inService = lineBit i.line := by
    rw [h.inService.1]
    cases d.running with
    | none => exact .inl rfl
    | some i => exact .inr ⟨i, rfl⟩
  rw [command_eoi hservice]
  exact { h with inService := ⟨rfl, h.inService.2⟩, running := rfl, ie := rfl }

theorem Agrees.running_eq_none (h : Agrees st s d) : s.running = none ↔ d.running = none := by
  rw [h.running, Option.map_eq_none_iff]

/-- One step of the two. -/
theorem Agrees.step (h : Agrees st s d) (e : Event) :
    Option.Rel (Agrees st) (s.step st e) (d.step (stub st) e) := by
  cases e with
  | request line => exact .some (h.request line)
  | enter handler =>
      rw [Lines.step, Duty.step]
      by_cases hready : d.ie ∧ d.running = none
      · rw [if_pos hready, if_pos (by rwa [h.ie, h.running_eq_none]), h.pending hready.2]
        cases hnext : d.next with
        | none => exact .none
        | some i =>
            have hvector : s.pics.vector i.line = 0x20 + BitVec.ofNat 8 i.line := by
              rw [Pics.vector, if_pos (line_lt i), h.offset]
            show Option.Rel _ ((s.idt (s.pics.vector i.line)).gate.bind _) _
            rw [hvector, h.gates i]
            show Option.Rel _ (if stub st i = handler then _ else none)
              (if stub st i = handler then _ else none)
            split
            · exact .some (h.acknowledge i hready.2)
            · exact .none
      · rw [if_neg hready, if_neg (by rwa [h.ie, h.running_eq_none])]
        exact .none
  | leave =>
      rw [Lines.step, Duty.step, h.running]
      cases hrun : d.running with
      | none => exact .none
      | some i =>
          show Option.Rel _ ((Lines.eoi st (stub st i) s.pics).bind _) _
          rw [eoi_stub]
          exact .some (h.eoi true)
  | switch ie =>
      have hcond : (s.running = none ∨ s.running = some st.pitStub) ↔ d.running ≠ some .keyboard := by
        rw [h.running]
        cases d.running with
        | none => simp
        | some i => cases i <;> simp [stub, st.apart.symm]
      rw [Lines.step, Duty.step]
      by_cases hkey : d.running = some .keyboard
      · rw [if_neg fun hc => hcond.mp hc hkey, if_pos hkey]
        exact .none
      · rw [if_pos (hcond.mpr hkey), if_neg hkey]
        exact .some (h.eoi ie)
  | setIf ie =>
      rw [Lines.step, Duty.step]
      by_cases hidle : d.running = none
      · rw [if_pos hidle, if_pos (h.running_eq_none.mpr hidle)]
        exact .some { h with ie := rfl }
      · rw [if_neg hidle, if_neg fun hc => hidle (h.running_eq_none.mp hc)]
        exact .none

/-! ### From the start on -/

/-- Raised lines, before any of them is served. -/
theorem foldl_request (p : Pics) (early : List (Fin 16)) : ∃ r₁ r₂,
    early.foldl Pics.request p = ⟨{ p.pic1 with requests := r₁ }, { p.pic2 with requests := r₂ }⟩ ∧
      ∀ i : Irq, r₁.getLsbD i.line =
        (p.pic1.requests.getLsbD i.line || early.any fun line => line.val == i.line) := by
  induction early generalizing p with
  | nil => exact ⟨p.pic1.requests, p.pic2.requests, rfl, fun i => (Bool.or_false _).symm⟩
  | cons line early ih =>
      obtain ⟨r₁, r₂, hfold, hr⟩ := ih (p.request line)
      rw [List.foldl_cons, hfold, Pics.request]
      simp only [List.any_cons, ← Bool.or_assoc]
      by_cases hline : line.val < 8
      · refine ⟨r₁, r₂, by rw [if_pos hline]; rfl, fun i => ?_⟩
        rw [hr, Pics.request, if_pos hline]
        show ((p.pic1.requests ||| lineBit line.val).getLsbD i.line || _) = _
        rw [getLsbD_or_lineBit _ ⟨line.val, hline⟩]
      · have hne (i : Irq) : (line.val == i.line) = false :=
          beq_false_of_ne fun he => hline (he ▸ line_lt i)
        refine ⟨r₁, r₂, by rw [if_neg hline]; rfl, fun i => ?_⟩
        rw [hr, Pics.request, if_neg hline, hne, Bool.or_false]

/-- All gates of the kernel. -/
theorem gate_booted (st : Stubs) (p : Pics) (early : List (Fin 16)) (v : BitVec 8) :
    ((Lines.booted st p early).idt v).gate =
      if v = 0x80 then some (0x08, st.syscallStub)
      else if v = 0x21 then some (0x08, st.keyboardStub)
      else if v = 0x20 then some (0x08, st.pitStub)
      else if v.toNat < 32 then some (0x08, st.isrStubTable v.toNat)
      else none := by
  rw [Lines.booted, init]
  simp only [Idt.gate_setDescriptor, Idt.gate_init]

theorem agrees_booted (st : Stubs) (p : Pics) (early : List (Fin 16)) :
    Agrees st (Lines.booted st p early) (Duty.booted early) := by
  have hgates (i : Irq) : ((Lines.booted st p early).idt (0x20 + BitVec.ofNat 8 i.line)).gate =
      some (0x08, stub st i) := by
    rw [gate_booted]
    cases i <;> rfl
  obtain ⟨r₁, r₂, hfold, hr⟩ := foldl_request (PIC.init p) early
  rw [PIC.init_eq] at hfold hr
  rw [Lines.booted, PIC.init_eq, hfold] at hgates ⊢
  have hmask : (0xFF : BitVec 8) &&& ~~~lineBit 0 &&& ~~~lineBit 1 = 0xFC := by decide
  exact {
    mask := ⟨hmask, rfl⟩
    offset := rfl
    requests := fun i => (hr i).trans (by cases i <;> rfl)
    inService := ⟨rfl, rfl⟩
    gates := hgates
    running := rfl
    ie := rfl }

theorem Agrees.step_left {t : Lines} {e : Event} (h : Agrees st s d) (hstep : Lines.Step st s e t) :
    ∃ d', Duty.Step (stub st) d e d' ∧ Agrees st t d' := by
  have hrel := h.step e
  rw [show s.step st e = some t from hstep] at hrel
  cases hd : d.step (stub st) e with
  | none => exact absurd (hd ▸ hrel) Option.not_rel_some_none
  | some d' => exact ⟨d', hd, Option.rel_some_some.mp (hd ▸ hrel)⟩

theorem Agrees.step_right {d' : Duty} {e : Event} (h : Agrees st s d)
    (hstep : Duty.Step (stub st) d e d') : ∃ t, Lines.Step st s e t ∧ Agrees st t d' := by
  have hrel := h.step e
  rw [show d.step (stub st) e = some d' from hstep] at hrel
  cases hs : s.step st e with
  | none => exact absurd (hs ▸ hrel) Option.not_rel_none_some
  | some t => exact ⟨t, hs, Option.rel_some_some.mp (hs ▸ hrel)⟩

theorem agrees_run {p : Pics} {early : List (Fin 16)} {es : List Event}
    (r : Run (Lines.Step st) (Lines.booted st p early) es s) :
    ∃ d, Run (Duty.Step (stub st)) (Duty.booted early) es d ∧ Agrees st s d :=
  r.sim (agrees_booted st p early) Agrees.step_left

theorem run_agrees {p : Pics} {early : List (Fin 16)} {es : List Event}
    (r : Run (Duty.Step (stub st)) (Duty.booted early) es d) :
    ∃ s, Run (Lines.Step st) (Lines.booted st p early) es s ∧ Agrees st s d :=
  r.sim (R := fun d s => Agrees st s d) (agrees_booted st p early) Agrees.step_right

/-- **The interrupts of the kernel**: whatever the chips did before `PIC::init`, and whichever lines
were raised behind it, the chips, the gates and the handlers have the histories of two flags of which
the timer's goes first, and no other; whatever is in service is the interrupt whose handler runs. -/
theorem lines_refine (st : Stubs) (p : Pics) (early : List (Fin 16)) (es : List Event) :
    (∀ s, Run (Lines.Step st) (Lines.booted st p early) es s →
      ∃ d, Run (Duty.Step (stub st)) (Duty.booted early) es d ∧ Agrees st s d) ∧
    ∀ d, Run (Duty.Step (stub st)) (Duty.booted early) es d →
      ∃ s, Run (Lines.Step st) (Lines.booted st p early) es s ∧ Agrees st s d :=
  ⟨fun _ => agrees_run, fun _ => run_agrees⟩

/-! ### Requests -/

/-- A device's request for an interrupt. -/
def Irq.request : Irq → Event
  | .timer => .request 0
  | .keyboard => .request 1

theorem request_eq_iff {line : Fin 16} (i : Irq) :
    Event.request line = i.request ↔ line.val = i.line := by
  revert line
  cases i <;> decide

theorem request_ne_enter (i : Irq) (handler : Word) : i.request ≠ .enter handler := by
  cases i <;> exact fun h => by cases h

namespace Duty

variable {d' : Duty} {e : Event} {early : List (Fin 16)} {es : List Event} {handler : Word}

theorem waits_of_next {i : Irq} (h : d.next = some i) : d.waits i = true := by
  rw [next] at h
  split at h
  · next ht =>
      cases h
      exact ht
  · split at h
    · next hk =>
        cases h
        exact hk
    · cases h

theorem step_enter (h : d.Step (stub st) (.enter handler) d') : ∃ i, handler = stub st i ∧
    d.waits i = true ∧ d'.waits = Function.update d.waits i false := by
  rw [Step, step] at h
  split at h
  · obtain ⟨i, hi, h⟩ := Option.bind_eq_some_iff.mp h
    split at h
    · next hstub =>
        cases h
        exact ⟨i, hstub.symm, waits_of_next hi, rfl⟩
    · cases h
  · cases h

/-- What a step can do to an interrupt: it asks, it is served, or it is left alone. -/
theorem waits_step (h : d.Step (stub st) e d') (i : Irq) :
    (e = i.request ∧ d'.waits i = true) ∨
      (e = .enter (stub st i) ∧ d.waits i = true ∧ d'.waits i = false) ∨
      (e ≠ i.request ∧ e ≠ .enter (stub st i) ∧ d'.waits i = d.waits i) := by
  have hasked (he : ∀ line, e ≠ .request line) : e ≠ i.request := by cases i <;> exact he _
  cases e with
  | request line =>
      cases h
      by_cases hline : line.val = i.line
      · refine .inl ⟨(request_eq_iff i).mpr hline, ?_⟩
        show (d.waits i || line.val == i.line) = true
        rw [beq_iff_eq.mpr hline, Bool.or_true]
      · refine .inr (.inr ⟨fun he => hline ((request_eq_iff i).mp he), by simp, ?_⟩)
        show (d.waits i || line.val == i.line) = d.waits i
        rw [beq_false_of_ne hline, Bool.or_false]
  | enter handler =>
      obtain ⟨j, rfl, hj, hd'⟩ := step_enter h
      by_cases hij : i = j
      · subst hij
        exact .inr (.inl ⟨rfl, hj, by rw [hd', Function.update_self]⟩)
      · refine .inr (.inr ⟨hasked (by simp), fun he => hij (stub_inj (Event.enter.inj he)).symm, ?_⟩)
        rw [hd', Function.update_of_ne hij]
  | leave =>
      refine .inr (.inr ⟨hasked (by simp), by simp, ?_⟩)
      rw [Step, step] at h
      split at h <;> cases h
      rfl
  | switch ie =>
      refine .inr (.inr ⟨hasked (by simp), by simp, ?_⟩)
      rw [Step, step] at h
      split at h <;> cases h
      rfl
  | setIf ie =>
      refine .inr (.inr ⟨hasked (by simp), by simp, ?_⟩)
      rw [Step, step] at h
      split at h <;> cases h
      rfl

theorem handler_of_mem (r : Run (Step (stub st)) d es d') (h : .enter handler ∈ es) :
    ∃ i, handler = stub st i := by
  induction r with
  | nil => cases h
  | snoc _ hstep ih =>
      obtain h | h := List.mem_append.mp h
      · exact ih h
      · obtain rfl := List.mem_singleton.mp h
        obtain ⟨i, hi, -⟩ := step_enter hstep
        exact ⟨i, hi⟩

/-- Each handler has a request of its own. -/
theorem count_enter_le (r : Run (Step (stub st)) (booted early) es d) (i : Irq) :
    es.count (.enter (stub st i)) + (d.waits i).toNat ≤
      es.count i.request + (early.any fun line => line.val == i.line).toNat := by
  refine r.invHist (I := fun es d => es.count (.enter (stub st i)) + (d.waits i).toNat ≤
    es.count i.request + (early.any fun line => line.val == i.line).toNat) ?_ ?_
  · exact Nat.le_refl _
  · intro es d e d' _ ih h
    rw [List.count_append, List.count_append]
    obtain ⟨rfl, hw⟩ | ⟨rfl, hw, hw'⟩ | ⟨hreq, henter, hw⟩ := waits_step h i
    · rw [List.count_singleton_self,
        List.count_eq_zero.mpr fun hm => request_ne_enter i _ (List.mem_singleton.mp hm).symm, hw,
        Bool.toNat_true]
      omega
    · rw [List.count_singleton_self,
        List.count_eq_zero.mpr fun hm => request_ne_enter i _ (List.mem_singleton.mp hm), hw',
        Bool.toNat_false]
      rw [hw, Bool.toNat_true] at ih
      omega
    · rw [List.count_eq_zero.mpr fun hm => henter (List.mem_singleton.mp hm).symm,
        List.count_eq_zero.mpr fun hm => hreq (List.mem_singleton.mp hm).symm, hw]
      exact ih

/-- A request waits until its handler runs. -/
theorem waits_until {i : Irq} (r : Run (Step (stub st)) d es d')
    (h : d.waits i = true ∨ i.request ∈ es) (hno : .enter (stub st i) ∉ es) :
    d'.waits i = true := by
  induction r with
  | nil => exact h.resolve_right List.not_mem_nil
  | snoc _ hstep ih =>
      rw [List.mem_append, not_or] at hno
      rw [List.mem_append, List.mem_singleton, ← or_assoc] at h
      obtain ⟨-, hw⟩ | ⟨rfl, -, -⟩ | ⟨hreq, -, hw⟩ := waits_step hstep i
      · exact hw
      · exact absurd (List.mem_singleton_self _) hno.2
      · exact hw.trans (ih (h.resolve_right hreq.symm) hno.1)

theorem enter_ok {i : Irq} (hie : d.ie = true) (hidle : d.running = none)
    (hnext : d.next = some i) : ∃ d', d.Step (stub st) (.enter (stub st i)) d' := by
  refine ⟨{ waits := Function.update d.waits i false, running := some i, ie := false }, ?_⟩
  rw [Step, step, if_pos ⟨hie, hidle⟩, hnext]
  exact if_pos rfl

end Duty

/-- **No interrupt too many, and none too few**: in every run of the chips, the gates and the handlers,
only the two handlers run, each for a request of its own; a request is there until its handler runs,
and that can run as soon as interrupts are on and no other does, the timer's first. -/
theorem requests_counted (st : Stubs) (p : Pics) (early : List (Fin 16)) {es : List Event} {s : Lines}
    (r : Run (Lines.Step st) (Lines.booted st p early) es s) :
    (∀ handler, .enter handler ∈ es → ∃ i : Irq, handler = stub st i) ∧
    (∀ i : Irq, es.count (.enter (stub st i)) + (s.pics.pic1.requests.getLsbD i.line).toNat ≤
      es.count i.request + (early.any fun line => line.val == i.line).toNat) ∧
    (∀ (i : Irq) pre post, es = pre ++ i.request :: post → .enter (stub st i) ∉ post →
      s.pics.pic1.requests.getLsbD i.line = true) ∧
    ∀ i : Irq, s.pics.pic1.requests.getLsbD i.line = true → s.ie = true → s.running = none →
      (i = .timer ∨ s.pics.pic1.requests.getLsbD Irq.timer.line = false) →
      ∃ t, Lines.Step st s (.enter (stub st i)) t := by
  obtain ⟨d, r', h⟩ := agrees_run r
  refine ⟨fun handler => Duty.handler_of_mem r', fun i => ?_, fun i pre post hes hno => ?_,
    fun i hreq hie hidle hfirst => ?_⟩
  · rw [h.requests]
    exact Duty.count_enter_le r' i
  · rw [hes] at r'
    obtain ⟨u, -, r₂⟩ := r'.split
    rw [h.requests]
    refine Duty.waits_until r₂ (.inr List.mem_cons_self) fun hm => ?_
    exact hno ((List.mem_cons.mp hm).resolve_left (request_ne_enter i _).symm)
  · have hnext : d.next = some i := by
      rw [h.requests] at hreq hfirst
      rw [Duty.next]
      cases i with
      | timer => exact if_pos hreq
      | keyboard =>
          have htimer : d.waits .timer = false := hfirst.resolve_left (by decide)
          rw [htimer, if_neg (by decide), if_pos hreq]
    obtain ⟨d', hd'⟩ := @Duty.enter_ok st d i (h.ie ▸ hie) (h.running_eq_none.mp hidle) hnext
    obtain ⟨t, ht, -⟩ := h.step_right hd'
    exact ⟨t, ht⟩

/-- Some places for the stubs. -/
def linked : Stubs where
  isrStubTable n := 0x101000 + BitVec.ofNat 32 (32 * n)
  pitStub := 0x102000
  keyboardStub := 0x102020
  syscallStub := 0x102040
  apart := by decide

/-- A key is pressed before the timer's interrupt, and waits for it. -/
theorem requests_counted_key : ∃ s, Run (Lines.Step linked)
    (Lines.booted linked ⟨⟨0, 8, 4, 1, 0xB8, 0, 0⟩, ⟨0, 0x70, 2, 1, 0x8F, 0, 0⟩⟩ [])
    [.setIf true, .request 1, .request 0, .enter 0x102000] s ∧
      s.pics.pic1.requests.getLsbD 1 = true ∧ s.pics.pic1.requests.getLsbD 0 = false := by
  have hduty : ∃ d, Run (Duty.Step (stub linked)) (Duty.booted [])
      [.setIf true, .request 1, .request 0, .enter 0x102000] d :=
    ⟨_, (((Run.nil.snoc (e := Event.setIf true) (by rfl)).snoc (e := Event.request 1) (by rfl)).snoc
      (e := Event.request 0) (by rfl)).snoc (e := Event.enter 0x102000) (by rfl)⟩
  obtain ⟨d, r⟩ := hduty
  obtain ⟨s, r', -⟩ := run_agrees r
  obtain ⟨-, hcount, hwaits, -⟩ := requests_counted linked _ [] r'
  refine ⟨s, r', hwaits .keyboard [.setIf true] [.request 0, .enter 0x102000] rfl (by decide), ?_⟩
  have hle : 1 + (s.pics.pic1.requests.getLsbD 0).toNat ≤ 1 := hcount .timer
  cases hbit : s.pics.pic1.requests.getLsbD 0 with
  | true =>
      rw [hbit] at hle
      exact absurd hle (by decide)
  | false => rfl

end HardwareInterrupts

end RivOS
