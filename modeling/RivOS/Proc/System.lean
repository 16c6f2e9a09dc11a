import Mathlib.Data.List.Induction
import RivOS.Proc.Loader
import RivOS.Support.Runs

/-!
# Proc — Loading, starting and growing processes

The kernel calls that change address spaces: `ElfExecutable::load`, `Process::run` and
`Process::ctxtSwitch` (`proc/process.cpp`), and the `Mmap` system call
(`drivers/interrupts/sysc/handler.cpp`), in any order, from the state `kernelMain` leaves.
-/

namespace RivOS

namespace Kernel

/-! ### `Process::run` -/

/-- The pages of a process's stack, downwards from `STACK_BEGIN`. -/
def stackAddrs : List Word :=
  (List.range ((stackSize + 4095) / 4096)).map fun i => stackBegin - BitVec.ofNat 32 (i * 4096)

/-- One page of the stack; whether there was a frame for it is not asked. -/
def mapStackPage (dir : Dir) (l : Mapping) (virt : Word) : Except Halt Mapping :=
  l.enter dir virt l.frames.allocFrame

/-- `Process::run` on the `i`-th process, up to the jump to its entry point. -/
def run (k : Kernel) (i : Nat) : Except Halt Kernel := do
  let p ← orHalt .undefined k.processes[i]?
  let l ← stackAddrs.foldlM (mapStackPage p.pageDirectory)
    { mmu := k.mmu.setDir p.pageDirectory Mmu.stackPde none
      frames := k.frames
      pages := p.stackPages }
  return { k with
    mmu := { l.mmu with activeDirectory := p.pageDirectory }
    frames := l.frames
    processes := k.processes.set i { p with stackPages := l.pages }
    activeProcessPid := p.pid }

theorem run_cases {k k' : Kernel} {i : Nat} (h : k.run i = .ok k') : ∃ p l,
    k.processes[i]? = some p ∧
      stackAddrs.foldlM (mapStackPage p.pageDirectory)
        { mmu := k.mmu.setDir p.pageDirectory Mmu.stackPde none
          frames := k.frames
          pages := p.stackPages } = .ok l ∧
      k' = { k with
        mmu := { l.mmu with activeDirectory := p.pageDirectory }
        frames := l.frames
        processes := k.processes.set i { p with stackPages := l.pages }
        activeProcessPid := p.pid } := by
  obtain ⟨p, hp, h⟩ := bind_eq_ok.mp h
  obtain ⟨l, hloop, h⟩ := bind_eq_ok.mp h
  cases h
  exact ⟨p, l, orHalt_eq_ok.mp hp, hloop, rfl⟩

/-! ### `Mmap` -/

/-- The loop of `Mmap`, which ends early when there is no frame left; whether it mapped all. -/
def mapHeap (dir : Dir) (mmu : Mmu) (frames : PhysicalFrameAllocator) :
    List Word → Except Halt (Bool × Mmu × PhysicalFrameAllocator)
  | [] => .ok (true, mmu, frames)
  | virt :: rest =>
      if frames.allocFrame.1 = 0 then .ok (false, mmu, frames.allocFrame.2)
      else do
        let mmu ← mmu.mapPageIn dir frames.allocFrame.1 virt
          (Mmu.flagsPresent ||| Mmu.flagsWritable)
        mapHeap dir mmu frames.allocFrame.2 rest

/-- The last process with the active pid. -/
def activeIndex (k : Kernel) : Option Nat :=
  ((List.range k.processes.length).filter fun i =>
    k.processes[i]?.map Process.pid = some k.activeProcessPid).getLast?

/-- `Mmap` with `edi` bytes asked for, and what it leaves in `eax`. -/
def mmap (k : Kernel) (edi : Word) : Except Halt (Kernel × Word) :=
  match k.activeIndex with
  | none => .ok (k, 0)
  | some i => do
      let proc ← orHalt .undefined k.processes[i]?
      let size := (edi + 4095) &&& ~~~4095
      let pages := (List.range (size.toNat / 4096)).map fun j =>
        proc.heapBrk + BitVec.ofNat 32 (j * 4096)
      let (all, mmu, frames) ← mapHeap proc.pageDirectory k.mmu k.frames pages
      if all then
        return ({ k with
          mmu, frames
          processes := k.processes.set i { proc with heapBrk := proc.heapBrk + size } },
          proc.heapBrk)
      else return ({ k with mmu, frames }, 0)  -- out of memory

/-- There is no active process, or its break moves if all the pages could be mapped. -/
theorem mmap_cases {k k' : Kernel} {edi eax : Word} (h : k.mmap edi = .ok (k', eax)) :
    (k.activeIndex = none ∧ k' = k ∧ eax = 0) ∨ ∃ i proc all mmu frames,
      k.activeIndex = some i ∧ k.processes[i]? = some proc ∧
      mapHeap proc.pageDirectory k.mmu k.frames
        ((List.range (((edi + 4095) &&& ~~~4095).toNat / 4096)).map fun j =>
          proc.heapBrk + BitVec.ofNat 32 (j * 4096)) = .ok (all, mmu, frames) ∧
      ((all = true ∧ eax = proc.heapBrk ∧ k' = { k with
          mmu, frames
          processes := k.processes.set i
            { proc with heapBrk := proc.heapBrk + ((edi + 4095) &&& ~~~4095) } }) ∨
        (all = false ∧ eax = 0 ∧ k' = { k with mmu, frames })) := by
  rw [mmap] at h
  split at h
  · rename_i hnone
    cases h
    exact .inl ⟨hnone, rfl, rfl⟩
  · rename_i i hi
    obtain ⟨p, hp, h⟩ := bind_eq_ok.mp h
    obtain ⟨⟨all, mmu, frames⟩, hmap, h⟩ := bind_eq_ok.mp h
    refine .inr ⟨i, p, all, mmu, frames, hi, orHalt_eq_ok.mp hp, hmap, ?_⟩
    cases all with
    | true =>
        cases h
        exact .inl ⟨rfl, rfl, rfl⟩
    | false =>
        cases h
        exact .inr ⟨rfl, rfl, rfl⟩

/-! ### Runs -/

/-- What `kernelMain` leaves: the kernel's own tables, one for a slot, and no process. -/
structure Booted (k : Kernel) : Prop where
  first : k.mmu.dirs .kernel 0 = some .first
  slot : ∀ {s s' t}, k.mmu.dirs .kernel s = some t → k.mmu.dirs .kernel s' = some t → s = s'
  pool : ∀ {s i}, k.mmu.dirs .kernel s = some (.pool i) → i < k.mmu.nextPageTable
  noDirectory : k.mmu.nextDirectory = 0 ∧ ∀ i s, k.mmu.dirs (.process i) s = none
  tables : ∀ {t j e}, k.mmu.tables t j = some e → ∃ s, k.mmu.dirs .kernel s = some t
  active : k.mmu.activeDirectory = .kernel
  null : k.frames.isUsed 0 = true
  processes : k.processes = []

/-- A call, and for `load` the file and what the memory holds at the time. -/
inductive Call where
  | load (file : PMem) (priveledge : ProcessPriveledgeLevel) (mem : Mem)
  | run (i : Nat)
  | ctxtSwitch (i : Nat)
  | mmap (edi : Word)

end Kernel

/-- The kernel, and which processes of its list have been started. -/
structure System where
  kernel : Kernel
  started : List Nat

namespace System

open Kernel (Call)

/-- A call made by whoever is running, the kernel or a process. -/
def call (b : BootStack) (s : System) : Call → Except Halt System
  | .load file priveledge mem => do
      let (_, kernel, _) ← ElfExecutable.load file b priveledge s.kernel mem
      return { s with kernel }
  | .run i => do
      let kernel ← s.kernel.run i
      return { kernel, started := i :: s.started }
  | .ctxtSwitch i => do
      let p ← orHalt .undefined s.kernel.processes[i]?
      let kernel ← s.kernel.ctxtSwitch p
      return { kernel, started := i :: s.started }
  | .mmap edi => do
      let (kernel, _) ← s.kernel.mmap edi
      return { s with kernel }

/-- A call that comes to its end, and after which the machine goes on. -/
def Step (b : BootStack) (s : System) (c : Call) (t : System) : Prop := s.call b c = .ok t

/-- A call leaves what the function that it calls returns. -/
theorem step_cases {b : BootStack} {s t : System} {c : Call} (h : s.Step b c t) :
    (∃ file priveledge mem p k' mem', c = .load file priveledge mem ∧
      ElfExecutable.load file b priveledge s.kernel mem = .ok (p, k', mem') ∧
      t = { s with kernel := k' }) ∨
    (∃ i k', c = .run i ∧ s.kernel.run i = .ok k' ∧
      t = { kernel := k', started := i :: s.started }) ∨
    (∃ i p k', c = .ctxtSwitch i ∧ s.kernel.processes[i]? = some p ∧
      s.kernel.ctxtSwitch p = .ok k' ∧ t = { kernel := k', started := i :: s.started }) ∨
    ∃ edi k' eax, c = .mmap edi ∧ s.kernel.mmap edi = .ok (k', eax) ∧
      t = { s with kernel := k' } := by
  cases c with
  | load file priveledge mem =>
      obtain ⟨⟨p, k', mem'⟩, hload, h⟩ := bind_eq_ok.mp h
      cases h
      exact .inl ⟨file, priveledge, mem, p, k', mem', rfl, hload, rfl⟩
  | run i =>
      obtain ⟨k', hrun, h⟩ := bind_eq_ok.mp h
      cases h
      exact .inr (.inl ⟨i, k', rfl, hrun, rfl⟩)
  | ctxtSwitch i =>
      obtain ⟨p, hp, h⟩ := bind_eq_ok.mp h
      obtain ⟨k', hswitch, h⟩ := bind_eq_ok.mp h
      cases h
      exact .inr (.inr (.inl ⟨i, p, k', rfl, orHalt_eq_ok.mp hp, hswitch, rfl⟩))
  | mmap edi =>
      obtain ⟨⟨k', eax⟩, hmap, h⟩ := bind_eq_ok.mp h
      cases h
      exact .inr (.inr (.inr ⟨edi, k', eax, rfl, hmap, rfl⟩))

/-- A call, if `G` lets it. -/
def checked (b : BootStack) (G : System → Call → Bool) (s : System) (c : Call) :
    Except Halt System :=
  if G s c then s.call b c else .error .undefined

/-- Checked calls one after the other are a run. -/
theorem run_of_foldlM {b : BootStack} {G : System → Call → Bool} {cs : List Call} {s t : System}
    (h : cs.foldlM (checked b G) s = .ok t) :
    Run (Guarded (fun s c => G s c = true) (Step b)) s cs t := by
  induction cs using List.reverseRecOn generalizing t with
  | nil =>
      cases h
      exact .nil
  | append_singleton cs c ih =>
      rw [List.foldlM_append] at h
      obtain ⟨u, hu, h⟩ := bind_eq_ok.mp h
      rw [List.foldlM_cons] at h
      obtain ⟨t', ht, h⟩ := bind_eq_ok.mp h
      cases h
      rw [checked] at ht
      split at ht
      · rename_i hG
        exact (ih hu).snoc ⟨hG, ht⟩
      · cases ht

end System

end RivOS
