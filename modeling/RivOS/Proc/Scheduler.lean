import RivOS.Proc.Process
import RivOS.Support.Runs

/-!
# Proc — The timer interrupt and the scheduler

The path of a timer interrupt: the processor's part, `pitStub` (`drivers/interrupts/pit/stub.asm`),
the kernel's `pitHandler` (`drivers/interrupts/pit/handler.cpp`), the scheduler's own
(`sbinSrc/sched/scheduling/pitHandler.c`), `Process::ctxtSwitch` and `resumeProcess`
(`proc/run.asm`).

* The stack of the interrupted process is byte memory behind its page tables.  The saved states and
  the scratch stack of `pitStub` are the kernel's own, and no instruction of a process writes them.
* Compiled code leaves what it likes in the registers; `junk` stands for that.
* The translation lookaside buffer and the interrupt controller are left out.
-/

namespace RivOS

/-! ### The scheduler -/

/-- The frame `pitStub` hands on, as it lies in memory. -/
structure RegisterStatePIT where
  edi : Word
  esi : Word
  ebp : Word
  esp : Word  -- before `PUSHA`
  ebx : Word
  edx : Word
  ecx : Word
  eax : Word
  eip : Word
  cs : Word
  eflags : Word

/-- The eleven dwords of the structure, in the order of its fields. -/
def RegisterStatePIT.ofDwords : List Word → Option RegisterStatePIT
  | [edi, esi, ebp, esp, ebx, edx, ecx, eax, eip, cs, eflags] =>
      some ⟨edi, esi, ebp, esp, ebx, edx, ecx, eax, eip, cs, eflags⟩
  | _ => none

/-- The assignments of the scheduler to `proc->state`. -/
def RegisterState.save (s : RegisterState) (state : RegisterStatePIT) : RegisterState :=
  { s with
    edi := state.edi
    esi := state.esi
    ebp := state.ebp
    esp := state.esp + 12
    ebx := state.ebx
    edx := state.edx
    ecx := state.ecx
    eax := state.eax
    eip := state.eip
    cs := state.cs
    eflags := state.eflags }

/-- The scheduler's globals. -/
structure Sched where
  ticks : Nat
  currentProcess : Nat

namespace Sched

/-- `PROCESS_CTXTSWITCH_INTERVAL`. -/
def processCtxtSwitchInterval : Nat := 50

/-- The loop over `procList->arr` and the stores through `proc`; without a process of that pid,
`proc` is never set. -/
def saveState (procPid : Nat) (state : RegisterStatePIT) : List Process → Except Halt (List Process)
  | [] => .error .undefined
  | proc :: rest =>
      if proc.pid = procPid then .ok ({ proc with state := proc.state.save state } :: rest)
      else (proc :: ·) <$> saveState procPid state rest

/-- The first half of `pitHandler`: without an active process there is nothing to save. -/
def saveInterrupted (procPid : Nat) (state : RegisterStatePIT) (procList : List Process) :
    Except Halt (List Process) :=
  if procPid ≠ 0 then saveState procPid state procList else .ok procList

/-- The second half: the process `procCtxtSwitch` is called with, if it is. -/
def nextProcess (sched : Sched) (procList : List Process) : Except Halt (Sched × Option Process) :=
  if procList.length > 1 ∧ sched.ticks % processCtxtSwitchInterval = 0 then
    let sched := { sched with currentProcess := sched.currentProcess ^^^ 1 }
    (orHalt .undefined procList[sched.currentProcess]?).map fun proc => (sched, some proc)
  else .ok (sched, none)

def pitHandler (sched : Sched) (procPid : Nat) (procList : List Process)
    (state : RegisterStatePIT) : Except Halt (Sched × List Process × Option Process) := do
  let sched := { sched with ticks := (sched.ticks + 1) % 2 ^ 64 }
  let procList ← saveInterrupted procPid state procList
  let (sched, next) ← sched.nextProcess procList
  return (sched, procList, next)

end Sched

/-! ### The machine -/

structure Machine where
  core : Core
  cr3 : Dir
  kernel : Kernel
  /-- The kernel's count of timer interrupts. -/
  ticks : Nat
  sched : Sched
  /-- `ownerDir` of the entry for the module `PIT`, whose `func` is the scheduler's handler. -/
  ownerDir : Dir
  /-- The address in gate 0x20, `pitStub`. -/
  gate : Word

namespace Machine

/-- The address space in force. -/
def space (m : Machine) : PageMap := m.kernel.mmu.pageMap m.cr3

def switchAddressSpace (m : Machine) (dir : Dir) : Machine :=
  { m with
    cr3 := if dir = m.kernel.mmu.activeDirectory then m.cr3 else dir
    kernel := { m.kernel with mmu := m.kernel.mmu.switchAddressSpace dir } }

/-- The moves of `resumeProcess` from the saved state, at the offsets the assembly names. -/
def loadSaved (state : RegisterState) (core : Core) : Core :=
  { core with
    segs := { core.segs with
      ds := (state.dword 48).setWidth 16
      es := (state.dword 52).setWidth 16
      fs := (state.dword 56).setWidth 16
      gs := (state.dword 60).setWidth 16 }
    regs := { core.regs with
      ebx := state.dword 4
      ecx := state.dword 8
      edx := state.dword 12
      edi := state.dword 20
      ebp := state.dword 24
      eax := state.dword 0
      esi := state.dword 16 } }

/-- `resumeProcess(state, pageDirectory)`. -/
def resumeProcess (m : Machine) (junk : Regs) (state : RegisterState) (pageDirectory : Dir) :
    Except Halt Machine := do
  let m := { m with cr3 := pageDirectory }
  let core := { m.core with regs := { junk with esp := state.dword 28 } }
  -- eflags, cs, eip
  let core ← orHalt .fault (core.pushAll m.space [state.dword 36, 0x08, state.dword 32])
  let core ← orHalt .fault ((loadSaved state core).iretd m.space)
  return { m with core }

/-- How the kernel's `pitHandler` ends: it returns to `pitStub`, or a process is resumed on the
way and it does not. -/
inductive Handled where
  | returned (m : Machine)
  | resumed (m : Machine)

/-- The kernel's `pitHandler`, called with the frame at `state`. -/
def pitHandler (m : Machine) (junk : Regs) (state : Word) : Except Halt Handled := do
  let ownerVisibleState ←
    orHalt .fault ((loadWords m.space m.core.mem state 11).bind RegisterStatePIT.ofDwords)
  let interrupted := m.kernel.mmu.activeDirectory
  let m := m.switchAddressSpace m.ownerDir
  let (sched, processes, next) ←
    m.sched.pitHandler m.kernel.activeProcessPid m.kernel.processes ownerVisibleState
  let m := { m with sched, kernel := { m.kernel with processes } }
  match next with
  | some proc =>
      let kernel ← m.kernel.ctxtSwitch proc
      return .resumed (← resumeProcess { m with kernel } junk proc.state proc.pageDirectory)
  | none =>
      let m := m.switchAddressSpace interrupted
      return .returned { m with ticks := (m.ticks + 1) % 2 ^ 64 }

/-- `pitStub`: the interrupted stack pointer waits on the scratch stack for the handler to return. -/
def pitStub (m : Machine) (junk : Regs) : Except Halt Machine := do
  let core ← orHalt .fault (m.core.pusha m.space)
  let eax := core.regs.esp
  match ← pitHandler { m with core } junk eax with
  | .resumed m => return m
  | .returned m =>
      let core := { m.core with regs := { junk with esp := eax } }
      let core ← orHalt .fault (core.popa m.space)
      let core ← orHalt .fault (core.iretd m.space)
      return { m with core }

/-- A timer interrupt. -/
def timer (m : Machine) (junk : Regs) : Except Halt Machine := do
  let core ← orHalt .fault (m.core.enter m.space 0x08 m.gate)
  pitStub { m with core } junk

/-! ### Runs -/

inductive Event where
  /-- The active process executes. -/
  | exec
  /-- A timer interrupt: whom it interrupted and whom it resumed, with their registers. -/
  | tick (interrupted resumed : Nat × Regs)

/-- The active process may do what it likes to its registers, to memory, and through the kernel to
page tables; it keeps the address space it runs in. -/
inductive Step : Machine → Event → Machine → Prop where
  | exec {m : Machine} (core : Core) (mmu : Mmu) (frames : PhysicalFrameAllocator)
      (h : mmu.activeDirectory = m.kernel.mmu.activeDirectory) :
      Step m .exec { m with core, kernel := { m.kernel with mmu, frames } }
  | tick {m m' : Machine} (junk : Regs) (h : m.timer junk = .ok m') :
      Step m (.tick (m.kernel.activeProcessPid, m.core.regs)
        (m'.kernel.activeProcessPid, m'.core.regs)) m'

end Machine

end RivOS
