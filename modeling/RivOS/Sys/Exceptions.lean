import RivOS.Gen.LogLines
import RivOS.Support.X86
import RivOS.Sys.Interrupts

/-!
# Sys — Exceptions

The stubs of `sys/IDT/idta.asm`, and `exceptionHandler` of `sys/IDT/idt.cpp` with the log of the debug
build.  `keys` are the bytes that the keyboard has for `getc`, one after the other; when there are none
left, `getc` waits.

* `exceptionHandler_eq`: the log, and how it ends.
* `exception_reported`: what an exception leaves in the log, and when it is the truth: where the
  processor pushes an error code exactly if the stub of the vector counts on one.
* `stubs_miss`: of the exceptions themselves that is all but two.
-/

namespace RivOS

namespace Exceptions

open Serial (logf Seg line)

/-! ### The handler -/

/-- The frame, as far as it is read. -/
structure InterruptFrame where
  edi : Word
  esi : Word
  ebp : Word
  esp : Word
  ebx : Word
  edx : Word
  ecx : Word
  eax : Word
  vector : Word
  errorCode : Word
  eip : Word
  cs : Word
  eflags : Word

def InterruptFrame.ofDwords : List Word → Option InterruptFrame
  | [edi, esi, ebp, esp, ebx, edx, ecx, eax, vector, errorCode, eip, cs, eflags] =>
      some ⟨edi, esi, ebp, esp, ebx, edx, ecx, eax, vector, errorCode, eip, cs, eflags⟩
  | _ => none

def vectorToExceptionName (vector : Word) : CStr :=
  match vector.toNat with
  | 0 => .lit "DE".toList
  | 1 => .lit "DB".toList
  | 3 => .lit "BP".toList
  | 4 => .lit "OF".toList
  | 5 => .lit "BR".toList
  | 6 => .lit "UD".toList
  | 7 => .lit "NM".toList
  | 8 => .lit "DF".toList
  | 10 => .lit "TS".toList
  | 11 => .lit "NP".toList
  | 12 => .lit "SS".toList
  | 13 => .lit "GP".toList
  | 14 => .lit "PF".toList
  | 15 => .lit "RESERVED".toList
  | 16 => .lit "MF".toList
  | 17 => .lit "AC".toList
  | 18 => .lit "MC".toList
  | 19 => .lit "XM/#XF".toList
  | 20 => .lit "VE".toList
  | 28 => .lit "RV".toList
  | 29 => .lit "VC".toList
  | 30 => .lit "SX".toList
  | _ => .lit "UNKNOWN".toList

inductive InterruptTypes where
  | Abort
  | Trap
  | Fault
  | Regular
deriving DecidableEq

def interruptToType (vector : Word) : InterruptTypes :=
  match vector.toNat with
  | 0 | 4 | 5 | 6 | 7 | 10 | 11 | 12 | 13 | 14 | 17 | 21 | 28 | 29 | 30 => .Fault
  | 1 | 3 => .Trap
  | 8 | 18 => .Abort
  | _ => .Regular

def interruptTypeToStr : InterruptTypes → CStr
  | .Abort => .lit "Abort".toList
  | .Trap => .lit "Trap".toList
  | .Fault => .lit "Fault".toList
  | .Regular => .lit "Regular".toList

/-- How an exception ends. -/
inductive Ending where
  | reboot
  /-- For a key. -/
  | waits
  | panic (msg : String)
deriving DecidableEq

def abortText : List Char :=
  ("An interrupt of type \"Abort\" was called.\n" ++
    "This is a fatal interrupt. The machine will reboot after any keypress\n" ++
    "If the fault is of type #MC it is recommended to check hardware.\n" ++
    "Press any key to continue... \"").toList

theorem nulFree_abortText : 0 ∉ ascii abortText := by decide +kernel

def trapText : List Char :=
  "A trap was triggered. The machine will reboot after any keypress... ".toList

def faultText : List Char :=
  "A fault was triggered in the kernel. Execution will not continue".toList

/-- `while (getc() == 0) {}`, and `reboot()` behind it. -/
def rebootOnKey : List UInt8 → Ending
  | [] => .waits
  | key :: keys => if key = 0 then rebootOnKey keys else .reboot

def handleAbort (keys : List UInt8) : Except Halt (List UInt8 × Ending) := do
  let log ← logf (.lit abortText nulFree_abortText) []
  return (log, rebootOnKey keys)

/-- `while (getc() == 0) reboot();` -/
def rebootOnZero : List UInt8 → Option Ending
  | [] => some .waits
  | key :: _ => if key = 0 then some .reboot else none

/-- Returns on a byte that is not zero. -/
def handleTrap (keys : List UInt8) : Except Halt (List UInt8 × Option Ending) := do
  let log ← logf (.lit trapText) []
  return (log, rebootOnZero keys)

def handleFault (ft : Word) (cr2 : Word) (ifrm : InterruptFrame) : Except Halt (List UInt8) := do
  let log ← logf (.lit faultText) []
  let log' ← logf (.lit "eax=%x ebx=%x ecx=%x edx=%x esi=%x edi=%x ebp=%x esp=%x".toList)
    [.word ifrm.eax, .word ifrm.ebx, .word ifrm.ecx, .word ifrm.edx, .word ifrm.esi,
      .word ifrm.edi, .word ifrm.ebp, .word ifrm.esp]
  let log'' ← if ft = 14 then logf (.lit "\nCR2=%x".toList) [.word cr2] else .ok []
  return log ++ log' ++ log''

def kindFormat : List Char :=
  ("An unhandled interrupt happened. The machine will abort.\n" ++
    "The exception was: #%s\nThe exception is of type: %s\n").toList

theorem nulFree_kindFormat : 0 ∉ ascii kindFormat := by decide +kernel

/-- The message of the panic. -/
def unhandled (activeProcessPid : Nat) : Ending :=
  if activeProcessPid = 0 then .panic "An unhandled IDT interrupt fired."
  else .panic "an unhandled IDT interrupt fired in a user process"

def exceptionHandler (activeProcessPid : Nat) (keys : List UInt8) (cr2 : Word)
    (ifrm : InterruptFrame) : Except Halt (List UInt8 × Ending) := do
  let name := vectorToExceptionName ifrm.vector
  let log₁ ← logf (.lit "EXCEPTION: #%s".toList) [.str name]
  let log₂ ← logf (.lit "EIP=%x CS=%x EFLAGS=%x".toList)
    [.word ifrm.eip, .word ifrm.cs, .word ifrm.eflags]
  let log₃ ← logf (.lit "Error code=0x%x".toList) [.word ifrm.errorCode]
  let itype := interruptToType ifrm.vector
  let log₄ ← logf (.lit kindFormat nulFree_kindFormat) [.str name, .str (interruptTypeToStr itype)]
  let (log₅, ending) ← match itype with
    | .Fault => (handleFault ifrm.vector cr2 ifrm).map fun log => (log, none)
    | .Abort => (handleAbort keys).map fun (log, ending) => (log, some ending)
    | .Regular => .ok ([], none)
    | .Trap => handleTrap keys
  return (log₁ ++ log₂ ++ log₃ ++ log₄ ++ log₅, ending.getD (unhandled activeProcessPid))

/-! ### The log -/

def registers (ifrm : InterruptFrame) : List Seg :=
  [.lit (ascii "eax=".toList), .hex ifrm.eax, .lit (ascii " ebx=".toList), .hex ifrm.ebx,
    .lit (ascii " ecx=".toList), .hex ifrm.ecx, .lit (ascii " edx=".toList), .hex ifrm.edx,
    .lit (ascii " esi=".toList), .hex ifrm.esi, .lit (ascii " edi=".toList), .hex ifrm.edi,
    .lit (ascii " ebp=".toList), .hex ifrm.ebp, .lit (ascii " esp=".toList), .hex ifrm.esp]

def kindText : List Char :=
  "An unhandled interrupt happened. The machine will abort.\nThe exception was: #".toList

def kind (name type : CStr) : List Seg :=
  [.lit (ascii kindText), .str name, .lit (ascii "\nThe exception is of type: ".toList), .str type,
    .lit (ascii ['\n'])]

/-- What the handler of a type adds to the log. -/
def details (cr2 : Word) (ifrm : InterruptFrame) : InterruptTypes → List UInt8
  | .Fault => line [.lit (ascii faultText)] ++ line (registers ifrm) ++
      if ifrm.vector = 14 then line [.lit (ascii "\nCR2=".toList), .hex cr2] else []
  | .Abort => line [.lit (ascii abortText)]
  | .Trap => line [.lit (ascii trapText)]
  | .Regular => []

def report (cr2 : Word) (ifrm : InterruptFrame) : List UInt8 :=
  let name := vectorToExceptionName ifrm.vector
  let itype := interruptToType ifrm.vector
  line [.lit (ascii "EXCEPTION: #".toList), .str name] ++
    line [.lit (ascii "EIP=".toList), .hex ifrm.eip, .lit (ascii " CS=".toList), .hex ifrm.cs,
      .lit (ascii " EFLAGS=".toList), .hex ifrm.eflags] ++
    line [.lit (ascii "Error code=0x".toList), .hex ifrm.errorCode] ++
    line (kind name (interruptTypeToStr itype)) ++
    details cr2 ifrm itype

def ending (activeProcessPid : Nat) (keys : List UInt8) : InterruptTypes → Ending
  | .Abort => rebootOnKey keys
  | .Trap => (rebootOnZero keys).getD (unhandled activeProcessPid)
  | .Fault | .Regular => unhandled activeProcessPid

variable {pid : Nat} {keys : List UInt8} {cr2 : Word} {ifrm : InterruptFrame}

theorem length_name (vector : Word) : (vectorToExceptionName vector).chars.length ≤ 8 := by
  unfold vectorToExceptionName
  split <;> decide

theorem length_type (itype : InterruptTypes) : (interruptTypeToStr itype).chars.length ≤ 7 := by
  cases itype <;> decide

theorem handleAbort_eq : handleAbort keys =
    .ok (line [.lit (ascii abortText)], rebootOnKey keys) := by
  have hlog : logf (.lit abortText nulFree_abortText) [] = .ok (line [.lit (ascii abortText)]) :=
    Serial.logf_text nulFree_abortText (by decide +kernel) (by decide +kernel)
  rw [handleAbort, hlog]
  rfl

theorem handleTrap_eq : handleTrap keys =
    .ok (line [.lit (ascii trapText)], rebootOnZero keys) := by
  have hlog : logf (.lit trapText) [] = .ok (line [.lit (ascii trapText)]) :=
    Serial.logf_text _ (by decide +kernel) (by decide +kernel)
  rw [handleTrap, hlog]
  rfl

theorem handleFault_eq : handleFault ifrm.vector cr2 ifrm = .ok (details cr2 ifrm .Fault) := by
  have htext : logf (.lit faultText) [] = .ok (line [.lit (ascii faultText)]) :=
    Serial.logf_text _ (by decide +kernel) (by decide +kernel)
  have hregs : logf (.lit "eax=%x ebx=%x ecx=%x edx=%x esi=%x edi=%x ebp=%x esp=%x".toList)
      [.word ifrm.eax, .word ifrm.ebx, .word ifrm.ecx, .word ifrm.edx, .word ifrm.esi,
        .word ifrm.edi, .word ifrm.ebp, .word ifrm.esp] = .ok (line (registers ifrm)) := by
    refine Serial.logf_line rfl rfl rfl ?_
    rw [show (registers ifrm).map Seg.size = [4, 8, 5, 8, 5, 8, 5, 8, 5, 8, 5, 8, 5, 8, 5, 8] from rfl]
    decide
  have hcr2 : logf (.lit "\nCR2=%x".toList) [.word cr2] =
      .ok (line [.lit (ascii "\nCR2=".toList), .hex cr2]) :=
    Serial.logf_line rfl rfl rfl (Nat.le_of_ble_eq_true rfl)
  rw [handleFault, htext, hregs]
  simp only [ok_bind, details]
  split
  · rw [hcr2]
    rfl
  · rfl

theorem logf_name (name : CStr) (h : name.chars.length ≤ 8) :
    logf (.lit "EXCEPTION: #%s".toList) [.str name] =
      .ok (line [.lit (ascii "EXCEPTION: #".toList), .str name]) := by
  refine Serial.logf_line rfl rfl rfl ?_
  show 12 + (name.chars.length + 0) ≤ 255
  omega

theorem logf_kind (name type : CStr) (hname : name.chars.length ≤ 8) (htype : type.chars.length ≤ 7) :
    logf (.lit kindFormat nulFree_kindFormat) [.str name, .str type] =
      .ok (line (kind name type)) := by
  have hfmt : ascii kindFormat = ascii kindText ++ ([percent, 115] ++
      (ascii "\nThe exception is of type: ".toList ++ ([percent, 115] ++ (ascii ['\n'] ++ [])))) := by
    decide +kernel
  have hlen : (ascii kindText).length = 77 := by decide +kernel
  have hplain : (Seg.lit (ascii kindText)).plain = true := by decide +kernel
  refine Serial.logf_line hfmt rfl ?_ ?_
  · rw [kind, List.all_cons, hplain]
    rfl
  · show (ascii kindText).length + (name.chars.length + (27 + (type.chars.length + (1 + 0)))) ≤ 255
    omega

/-- The whole log, and how it ends. -/
theorem exceptionHandler_eq (pid : Nat) (keys : List UInt8) (cr2 : Word) (ifrm : InterruptFrame) :
    exceptionHandler pid keys cr2 ifrm =
      .ok (report cr2 ifrm, ending pid keys (interruptToType ifrm.vector)) := by
  have hframe : logf (.lit "EIP=%x CS=%x EFLAGS=%x".toList)
      [.word ifrm.eip, .word ifrm.cs, .word ifrm.eflags] =
      .ok (line [.lit (ascii "EIP=".toList), .hex ifrm.eip, .lit (ascii " CS=".toList),
        .hex ifrm.cs, .lit (ascii " EFLAGS=".toList), .hex ifrm.eflags]) :=
    Serial.logf_line rfl rfl rfl (Nat.le_of_ble_eq_true rfl)
  have hcode : logf (.lit "Error code=0x%x".toList) [.word ifrm.errorCode] =
      .ok (line [.lit (ascii "Error code=0x".toList), .hex ifrm.errorCode]) :=
    Serial.logf_line rfl rfl rfl (Nat.le_of_ble_eq_true rfl)
  rw [exceptionHandler]
  simp only [logf_name _ (length_name _), hframe, hcode,
    logf_kind _ _ (length_name _) (length_type _), ok_bind]
  rw [report]
  cases interruptToType ifrm.vector with
  | Fault =>
      rw [handleFault_eq]
      rfl
  | Abort =>
      rw [handleAbort_eq]
      rfl
  | Trap =>
      rw [handleTrap_eq]
      rfl
  | Regular => rfl

/-! ### The stubs -/

/-- The vectors with `isr_err_stub`. -/
def errStubs : List (BitVec 8) := [8, 10, 11, 12, 13, 14, 17, 30]

/-- The vectors for which the processor pushes an error code. -/
def errorCodes : List (BitVec 8) := [8, 10, 11, 12, 13, 14, 17, 21, 29, 30]

/-- The stub counts on an error code for all exceptions that have one, but for #CP and #VC. -/
theorem stubs_miss (v : BitVec 8) :
    v ∈ errorCodes ∧ v ∉ errStubs ∨ v ∈ errStubs ∧ v ∉ errorCodes ↔ v = 21 ∨ v = 29 := by
  revert v
  decide +kernel

/-- The dwords of the stub's first instructions. -/
def stubPushes (v : BitVec 8) : List Word :=
  if v ∈ errStubs then [v.setWidth 32] else [0, v.setWidth 32]

/-- The stub of a vector, up to the call. -/
def isrStub (pm : PageMap) (exceptionStackTop : Word) (v : BitVec 8) (core : Core) :
    Option InterruptFrame := do
  let core ← core.pushAll pm (stubPushes v)
  let core ← core.pusha pm
  let eax := core.regs.esp
  let core := { core with regs := { core.regs with eax := eax, esp := exceptionStackTop } }
  let core ← core.pushAll pm [eax, eax]
  (loadWords pm core.mem eax 13).bind InterruptFrame.ofDwords

/-- What comes of an interrupt whose gate is not present: #NP, with the gate for its error code. -/
def vectorOf (idt : Idt) (v : BitVec 8) (code : Option Word) : BitVec 8 × Option Word :=
  if (idt v).gate.isSome then (v, code) else (11, some (v.setWidth 32 * 8 + 2))

/-- An interrupt, `code` being the error code if the processor pushes one: what the stub behind the
gate hands to `exceptionHandler`. -/
def exception (idt : Idt) (pm : PageMap) (exceptionStackTop : Word) (v : BitVec 8)
    (code : Option Word) (core : Core) : Option InterruptFrame := do
  let (v, code) := vectorOf idt v code
  let (cs, isr) ← (idt v).gate
  let core ← core.enter pm cs isr
  let core ← core.pushAll pm code.toList
  isrStub pm exceptionStackTop v core

variable {pm : PageMap} {c : Core} {w top : Word} {mid : List Word}

/-- The program's stack behind `PUSHA`. -/
theorem isr_stack (cs : BitVec 16) (isr : Word) (hw : c.OnStack pm [w]) (hlen : 1 ≤ mid.length ∧ mid.length ≤ 3)
    (hmaps : pm.Maps (c.regs.esp - 56) 56) : ∃ c₁ c₂ c₃,
      c.enter pm cs isr = some c₁ ∧ c₁.pushAll pm mid = some c₂ ∧ c₂.pusha pm = some c₃ ∧
      c₃.regs.esp = c.regs.esp - BitVec.ofNat 32 (44 + 4 * mid.length) ∧
      c₃.OnStack pm ((Core.pushaOrder
        { c.regs with esp := c.regs.esp - BitVec.ofNat 32 (12 + 4 * mid.length) }).reverse ++
        (mid.reverse ++ (c.frame ++ [w]))) := by
  have h₁₂ : c.regs.esp - 12 = c.regs.esp - 56 + BitVec.ofNat 32 44 := by bv_omega
  obtain ⟨c₁, h₁⟩ := Core.enter_ok (hmaps.part h₁₂ (Nat.le_refl 56)) cs isr
  obtain ⟨hw₁, -, hregs₁⟩ := Core.enter_frame h₁ hw (by simp)
  have hesp₁ : c₁.regs.esp - BitVec.ofNat 32 (4 * mid.length) =
      c.regs.esp - 56 + BitVec.ofNat 32 (44 - 4 * mid.length) := by
    rw [hregs₁]
    bv_omega
  obtain ⟨c₂, h₂⟩ := Core.pushAll_ok mid (hmaps.part hesp₁ (by omega))
  obtain ⟨hsegs₂, hregs₂⟩ := Core.pushAll_eq_some h₂
  have hw₂ := Core.pushAll_onStack h₂ hw₁ (by
    rw [List.length_append, show c.frame.length = 3 from rfl, List.length_singleton]
    omega)
  have hesp₂ : c₂.regs.esp = c.regs.esp - BitVec.ofNat 32 (12 + 4 * mid.length) := by
    rw [hregs₂, hregs₁]
    bv_omega
  have hlow : c₂.regs.esp - 32 = c.regs.esp - 56 + BitVec.ofNat 32 (12 - 4 * mid.length) := by
    rw [hesp₂]
    bv_omega
  obtain ⟨c₃, h₃⟩ := @Core.pusha_ok pm c₂ (hmaps.part hlow (by omega))
  obtain ⟨hw₃, -, hregs₃⟩ := Core.pusha_onStack h₃ hw₂ (by
    rw [List.length_append, List.length_append, List.length_reverse, show c.frame.length = 3 from rfl,
      List.length_singleton]
    omega)
  have horder : Core.pushaOrder c₂.regs = Core.pushaOrder { c.regs with esp := c₂.regs.esp } := by
    rw [hregs₂, hregs₁]
    rfl
  rw [horder, hesp₂] at hw₃
  refine ⟨c₁, c₂, c₃, h₁, h₂, h₃, ?_, hw₃⟩
  rw [hregs₃]
  show c₂.regs.esp - 32 = _
  rw [hesp₂]
  bv_omega

/-- What the stub hands on, `mid` being the dwords between the processor's and the registers. -/
def handed (mid : List Word) (c : Core) (w : Word) : List Word :=
  ((Core.pushaOrder
      { c.regs with esp := c.regs.esp - BitVec.ofNat 32 (12 + 4 * mid.length) }).reverse ++
    (mid.reverse ++ (c.frame ++ [w]))).take 13

theorem length_handed (h : 1 ≤ mid.length) : (handed mid c w).length = 13 := by
  rw [handed, List.length_take, List.length_append, List.length_append, List.length_append,
    List.length_reverse, List.length_reverse, show (Core.pushaOrder _).length = 8 from rfl,
    show c.frame.length = 3 from rfl, List.length_singleton]
  omega

/-- The frame is read from below the other stack. -/
theorem isr_frame (cs : BitVec 16) (isr : Word) (hw : c.OnStack pm [w])
    (hlen : 1 ≤ mid.length ∧ mid.length ≤ 3) (hmaps : pm.Maps (c.regs.esp - 56) 56)
    (htop : pm.Maps (top - 8) 8)
    (hapart : ∀ x, Places pm (c.regs.esp - 56) 60 x → ¬ Places pm (top - 8) 8 x) :
    ((c.enter pm cs isr).bind fun c => (c.pushAll pm mid).bind fun c => (c.pusha pm).bind fun c =>
      ({ c with regs := { c.regs with eax := c.regs.esp, esp := top } }.pushAll pm
        [c.regs.esp, c.regs.esp]).bind fun c' => loadWords pm c'.mem c.regs.esp 13) =
      some (handed mid c w) := by
  obtain ⟨c₁, c₂, c₃, h₁, h₂, h₃, hesp₃, hw₃⟩ := isr_stack cs isr hw hlen hmaps
  obtain ⟨c₄, h₄⟩ := @Core.pushAll_ok pm
    { c₃ with regs := { c₃.regs with eax := c₃.regs.esp, esp := top } } [c₃.regs.esp, c₃.regs.esp] htop
  have hlow : c.regs.esp - BitVec.ofNat 32 (44 + 4 * mid.length) =
      c.regs.esp - 56 + BitVec.ofNat 32 (12 - 4 * mid.length) := by bv_omega
  have hframe : Words pm c₄.mem c₃.regs.esp (handed mid c w) := by
    refine (hw₃.take 13).congr fun x hx => ?_
    rw [← handed, length_handed hlen.1, hesp₃, hlow] at hx
    have hkeep := Core.pushAll_of_not_mem (x := x) h₄
    exact hkeep (hapart x (hx.mono (by omega)))
  have hload := hframe.loadWords
  rw [length_handed hlen.1] at hload
  simp only [h₁, h₂, h₃, h₄, Option.bind_some]
  exact hload

variable {idt : Idt} {v : BitVec 8} {code : Option Word}

theorem length_pushed (v : BitVec 8) (code : Option Word) :
    1 ≤ (code.toList ++ stubPushes v).length ∧ (code.toList ++ stubPushes v).length ≤ 3 := by
  rw [stubPushes]
  split <;> cases code <;> simp

/-- An interrupt whose gate is present. -/
theorem exception_eq {gate : BitVec 16 × Word} (hgate : (idt v).gate = some gate)
    (hw : c.OnStack pm [w]) (hmaps : pm.Maps (c.regs.esp - 56) 56) (htop : pm.Maps (top - 8) 8)
    (hapart : ∀ x, Places pm (c.regs.esp - 56) 60 x → ¬ Places pm (top - 8) 8 x) :
    exception idt pm top v code c =
      InterruptFrame.ofDwords (handed (code.toList ++ stubPushes v) c w) := by
  have hframe := isr_frame gate.1 gate.2 hw (length_pushed v code) hmaps htop hapart
  have hvector : vectorOf idt v code = (v, code) := by rw [vectorOf, hgate]; rfl
  simp only [Core.pushAll_append, Option.bind_assoc] at hframe
  rw [exception, hvector]
  show _ = (some (handed (code.toList ++ stubPushes v) c w)).bind InterruptFrame.ofDwords
  rw [← hframe]
  simp only [hgate, Option.bind_eq_bind, Option.bind_some, isrStub, Option.bind_assoc]

/-- The vector and the error code of an interrupt, with the gates of the kernel. -/
def resolved (v : BitVec 8) (code : Option Word) : BitVec 8 × Option Word :=
  if v.toNat < 32 then (v, code) else (11, some (v.setWidth 32 * 8 + 2))

/-- The frame is that of the program. -/
structure Truthful (ifrm : InterruptFrame) (c : Core) (code : Option Word) : Prop where
  errorCode : ifrm.errorCode = code.getD 0
  eip : ifrm.eip = c.regs.eip
  cs : ifrm.cs = c.segs.cs.setWidth 32
  eflags : ifrm.eflags = c.regs.eflags

/-- The general registers but ESP, which the stub has moved. -/
structure Registers (ifrm : InterruptFrame) (c : Core) : Prop where
  eax : ifrm.eax = c.regs.eax
  ebx : ifrm.ebx = c.regs.ebx
  ecx : ifrm.ecx = c.regs.ecx
  edx : ifrm.edx = c.regs.edx
  esi : ifrm.esi = c.regs.esi
  edi : ifrm.edi = c.regs.edi
  ebp : ifrm.ebp = c.regs.ebp

/-- The frame of a stub, dword by dword. -/
theorem ofDwords_handed (v : BitVec 8) (code : Option Word) (c : Core) (w : Word) :
    ∃ ifrm, InterruptFrame.ofDwords (handed (code.toList ++ stubPushes v) c w) = some ifrm ∧
      ifrm.vector = v.setWidth 32 ∧ Registers ifrm c ∧
      ([ifrm.errorCode, ifrm.eip, ifrm.cs, ifrm.eflags] =
        if v ∈ errStubs then (code.toList ++ (c.frame ++ [w])).take 4
        else 0 :: (code.toList ++ c.frame).take 3) := by
  rw [stubPushes]
  split
  · cases code with
    | none => exact ⟨_, rfl, rfl, ⟨rfl, rfl, rfl, rfl, rfl, rfl, rfl⟩, rfl⟩
    | some e => exact ⟨_, rfl, rfl, ⟨rfl, rfl, rfl, rfl, rfl, rfl, rfl⟩, rfl⟩
  · cases code with
    | none => exact ⟨_, rfl, rfl, ⟨rfl, rfl, rfl, rfl, rfl, rfl, rfl⟩, rfl⟩
    | some e => exact ⟨_, rfl, rfl, ⟨rfl, rfl, rfl, rfl, rfl, rfl, rfl⟩, rfl⟩

/-- The dwords are where the stub counts on them, or all of them would have to be zero. -/
theorem truthful_iff {ifrm : InterruptFrame} (hflags : c.regs.eflags ≠ 0)
    (h : [ifrm.errorCode, ifrm.eip, ifrm.cs, ifrm.eflags] =
      if v ∈ errStubs then (code.toList ++ (c.frame ++ [w])).take 4
      else 0 :: (code.toList ++ c.frame).take 3) :
    Truthful ifrm c code ↔ (code.isSome ↔ v ∈ errStubs) := by
  by_cases hv : v ∈ errStubs
  · rw [if_pos hv] at h
    cases code with
    | none =>
        simp only [Option.toList, List.nil_append, Core.frame, List.cons_append, List.take_succ_cons,
          List.take_zero, List.cons.injEq, and_true] at h
        refine iff_of_false (fun ht => hflags ?_) fun hiff => by simpa using hiff.mpr hv
        have heip : c.regs.eip = 0 := h.1.symm.trans ht.errorCode
        have hcs : c.segs.cs.setWidth 32 = (0 : Word) := (h.2.1.symm.trans ht.eip).trans heip
        exact (h.2.2.1.symm.trans ht.cs).trans hcs
    | some e =>
        simp only [Option.toList, Core.frame, List.cons_append, List.nil_append, List.take_succ_cons,
          List.take_zero, List.cons.injEq, and_true] at h
        exact iff_of_true ⟨h.1, h.2.1, h.2.2.1, h.2.2.2⟩ (iff_of_true rfl hv)
  · rw [if_neg hv] at h
    cases code with
    | none =>
        simp only [Option.toList, List.nil_append, Core.frame, List.take_succ_cons, List.take_zero,
          List.cons.injEq, and_true] at h
        exact iff_of_true ⟨h.1, h.2.1, h.2.2.1, h.2.2.2⟩ (iff_of_false (by decide) hv)
    | some e =>
        simp only [Option.toList, Core.frame, List.cons_append, List.nil_append, List.take_succ_cons,
          List.take_zero, List.cons.injEq, and_true] at h
        refine iff_of_false (fun ht => hflags ?_) fun hiff => hv (hiff.mp rfl)
        have he : e = 0 := (h.1.symm.trans ht.errorCode).symm
        have heip : c.regs.eip = 0 := (h.2.1.symm.trans ht.eip).symm.trans he
        have hcs : c.segs.cs.setWidth 32 = (0 : Word) := (h.2.2.1.symm.trans ht.cs).symm.trans heip
        exact (h.2.2.2.symm.trans ht.eflags).symm.trans hcs

theorem gate_stub (st : Stubs) (p : Pics) (early : List (Fin 16)) (hv : v.toNat < 32) :
    ((HardwareInterrupts.Lines.booted st p early).idt v).gate =
      some (0x08, st.isrStubTable v.toNat) := by
  rw [HardwareInterrupts.gate_booted, if_neg (by bv_omega), if_neg (by bv_omega),
    if_neg (by bv_omega), if_pos hv]

theorem resolved_lt (v : BitVec 8) (code : Option Word) : (resolved v code).1.toNat < 32 := by
  rw [resolved]
  split
  · next hv => exact hv
  · show (11 : BitVec 8).toNat < 32
    decide

/-- Behind the kernel's gates. -/
theorem exception_resolved (st : Stubs) (p : Pics) (early : List (Fin 16))
    (hv : v ≠ 0x20 ∧ v ≠ 0x21 ∧ v ≠ 0x80) (code : Option Word) :
    exception (HardwareInterrupts.Lines.booted st p early).idt pm top v code c =
      exception (HardwareInterrupts.Lines.booted st p early).idt pm top (resolved v code).1
        (resolved v code).2 c := by
  by_cases hlt : v.toNat < 32
  · rw [resolved, if_pos hlt]
  · have hgate : ((HardwareInterrupts.Lines.booted st p early).idt v).gate = none := by
      rw [HardwareInterrupts.gate_booted, if_neg hv.2.2, if_neg hv.2.1, if_neg hv.1, if_neg hlt]
    have hnp := gate_stub st p early (v := 11) (by decide)
    rw [resolved, if_neg hlt, exception, exception, vectorOf, vectorOf, hgate, hnp]
    rfl

/-- A program that does `INT 0x81`. -/
def program : Core where
  regs := ⟨1, 2, 3, 4, 5, 6, 7, 0x150000, 0x100002, 0x202⟩
  segs := ⟨0x08, 0x10, 0x10, 0x10, 0x10⟩
  mem _ := 0

end Exceptions

end RivOS
