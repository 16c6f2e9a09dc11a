import RivOS.Mem.Mmu
import RivOS.Support.X86

/-!
# Proc — Processes

`proc/process.hpp`, and of `proc/process.cpp` what starts and resumes a process, up to the assembly
that does not return.  The kernel's bookkeeping is one record; names and log lines are left out.
-/

namespace RivOS

inductive ProcessPriveledgeLevel where
  | User
  /-- Runs in kernel mode, and is not to be switched to. -/
  | Driver
  | Kernel
deriving DecidableEq

/-- The saved registers of a process. -/
structure RegisterState where
  eax : Word
  ebx : Word
  ecx : Word
  edx : Word
  esi : Word
  edi : Word
  ebp : Word
  esp : Word
  eip : Word
  eflags : Word
  cs : Word
  ss : Word
  ds : Word
  es : Word
  fs : Word
  gs : Word
deriving DecidableEq

namespace RegisterState

/-- The structure as it lies in memory, field after field. -/
def dwords (s : RegisterState) : List Word :=
  [s.eax, s.ebx, s.ecx, s.edx, s.esi, s.edi, s.ebp, s.esp, s.eip, s.eflags, s.cs, s.ss, s.ds, s.es,
    s.fs, s.gs]

/-- The dword at an offset that the assembly names. -/
def dword (s : RegisterState) (off : Nat) : Word := s.dwords.getD (off / 4) 0

/-- The registers among the fields. -/
def regs (s : RegisterState) : Regs where
  eax := s.eax
  ebx := s.ebx
  ecx := s.ecx
  edx := s.edx
  esi := s.esi
  edi := s.edi
  ebp := s.ebp
  esp := s.esp
  eip := s.eip
  eflags := s.eflags

/-- What `ElfExecutable::load` stores for a program with this entry point. -/
def loaded (programEntry : Word) : RegisterState where
  eip := programEntry
  esp := stackBegin
  eax := 0
  ebx := 0
  ecx := 0
  edx := 0
  esi := 0
  edi := 0
  ebp := 0
  eflags := 0x202  -- reserved bit 1 + IF
  cs := 0x08
  ss := 0x10
  ds := 0x10
  es := 0x10
  fs := 0x10
  gs := 0x10

end RegisterState

structure PhysToVirt where
  phys : Nat
  virt : Word

structure Process where
  pid : Nat
  priveledge : ProcessPriveledgeLevel
  pages : List PhysToVirt
  stackPages : List PhysToVirt
  state : RegisterState
  entryPoint : Word
  pageDirectory : Dir
  heapBrk : Word := 0x50000000

/-- What the kernel knows of memory and processes. -/
structure Kernel where
  mmu : Mmu
  frames : PhysicalFrameAllocator
  processes : List Process
  latestPid : Nat
  activeProcessPid : Nat

/-- What mapping pages for a process changes, and the pages noted for it. -/
structure Mapping where
  mmu : Mmu
  frames : PhysicalFrameAllocator
  pages : List PhysToVirt

/-- Map a page that is present and writable, on the frame just allocated, and note it. -/
def Mapping.enter (l : Mapping) (dir : Dir) (virt : Word)
    (alloc : Nat × PhysicalFrameAllocator) : Except Halt Mapping := do
  let mmu ← l.mmu.mapPageIn dir alloc.1 virt (Mmu.flagsPresent ||| Mmu.flagsWritable)
  return { mmu, frames := alloc.2, pages := l.pages ++ [⟨alloc.1, virt⟩] }

namespace Kernel

/-- `Process::ctxtSwitch` up to the call of `resumeProcess(state, pageDirectory)`. -/
def ctxtSwitch (k : Kernel) (p : Process) : Except Halt Kernel :=
  let k := { k with activeProcessPid := p.pid }
  if p.priveledge = .Driver then
    kpanic "Context switching to a process marked 'Driver' is forbidden."
  else if p.state.eip = 0 ∨ p.state.esp = 0 then kpanic "ctxtSwitch got a zeroed RegisterState"
  else .ok { k with mmu := { k.mmu with activeDirectory := p.pageDirectory } }

/-- A process can be switched to unless it is a driver or has no saved state. -/
theorem ctxtSwitch_eq_ok_iff {k k' : Kernel} {p : Process} : k.ctxtSwitch p = .ok k' ↔
    (p.priveledge ≠ .Driver ∧ p.state.eip ≠ 0 ∧ p.state.esp ≠ 0) ∧
      k' = { k with
        activeProcessPid := p.pid
        mmu := { k.mmu with activeDirectory := p.pageDirectory } } := by
  rw [ctxtSwitch]
  split
  · rename_i hdriver
    exact ⟨nofun, fun h => absurd hdriver h.1.1⟩
  · rename_i hdriver
    split
    · rename_i hzero
      exact ⟨nofun, fun h => absurd hzero (not_or.mpr h.1.2)⟩
    · rename_i hzero
      refine ⟨fun h => ⟨⟨hdriver, not_or.mp hzero⟩, (Except.ok.inj h).symm⟩, ?_⟩
      rintro ⟨-, rfl⟩
      rfl

theorem ctxtSwitch_eq_ok {k k' : Kernel} {p : Process} (h : k.ctxtSwitch p = .ok k') :
    k' = { k with
      activeProcessPid := p.pid
      mmu := { k.mmu with activeDirectory := p.pageDirectory } } :=
  (ctxtSwitch_eq_ok_iff.mp h).2

end Kernel

end RivOS
