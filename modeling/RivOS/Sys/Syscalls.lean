import Mathlib.Tactic.IntervalCases
import RivOS.Fs.Descriptors
import RivOS.Sys.SysMod
import RivOS.Proc.Mmap

/-!
# Sys — System calls

`syscallHandler` of `drivers/interrupts/sysc/handler.cpp`, with `Process::exit`.  Pointers that a
caller passes are read and written through the active address space.

* `SyscallNumbers.ofEax`: only the low byte of `eax` selects a call.
* `dispatch_*`: what keeps each call from looking like a refusal.
* `undefined_iff`: a number that is not defined is refused, and nothing done, exactly if its low byte
  is not defined either, but for two coincidences.
-/

namespace RivOS

inductive SyscallNumbers where
  | Open
  | Write
  | Read
  | Close
  | Claim
  | SetFunc
  | Release
  | Mmap
  | Munmap
  | Exit
  | Filesize
deriving DecidableEq

namespace SyscallNumbers

def ofByte : Nat → Option SyscallNumbers
  | 0 => some .Open
  | 1 => some .Write
  | 2 => some .Read
  | 3 => some .Close
  | 4 => some .Claim
  | 5 => some .SetFunc
  | 6 => some .Release
  | 7 => some .Mmap
  | 8 => some .Munmap
  | 9 => some .Exit
  | 10 => some .Filesize
  | _ => none

/-- The conversion to an enumeration of bytes. -/
def ofEax (eax : Word) : Option SyscallNumbers := ofByte (eax.toNat % 256)

theorem ofByte_eq_none_iff {n : Nat} : ofByte n = none ↔ 10 < n := by
  constructor
  · intro h
    by_contra hle
    interval_cases n <;> cases h
  · intro h
    rw [ofByte]
    all_goals
      rintro rfl
      exact absurd h (by decide)

/-- Distinct bytes select distinct calls. -/
theorem ofByte_inj {m n : Nat} {c : SyscallNumbers} (hm : ofByte m = some c)
    (hn : ofByte n = some c) : m = n := by
  have hm' : ¬ 10 < m := fun h => by
    rw [ofByte_eq_none_iff.mpr h] at hm
    cases hm
  have hn' : ¬ 10 < n := fun h => by
    rw [ofByte_eq_none_iff.mpr h] at hn
    cases hn
  have hall : ∀ m < 11, ∀ n < 11, ofByte m = ofByte n → m = n := by decide
  exact hall m (by omega) n (by omega) (hm.trans hn.symm)

end SyscallNumbers

inductive ProcessImportance where
  | REQ
  | OPT
deriving DecidableEq

/-- The fields of a process that only `exit` reads. -/
structure ExitInfo where
  pname : String
  importance : ProcessImportance

/-- What system calls read and change.  `exitInfo` goes by the index of a process. -/
structure SyscallState (μ δ : Type) where
  fs : FileSystem μ δ
  modules : List SysModuleHandler.Entry
  kernel : Kernel
  exitInfo : Nat → ExitInfo
  mem : Mem
  isInSyscall : Bool

/-! ### Pointers -/

/-- The string at an address, if its NUL is among the next `n` bytes. -/
def cstrV (pm : PageMap) (m : Mem) : Nat → Word → Option CStr
  | 0, _ => none
  | n + 1, a => do
      let c ← byteV pm m a
      if h : 0 = c then return ⟨[], List.not_mem_nil⟩
      else
        let s ← cstrV pm m n (a + 1)
        return ⟨c :: s.chars, List.not_mem_cons_of_ne_of_not_mem h s.nulFree⟩

/-- Of the `n` bytes at an address those before the first that is not mapped. -/
def bufV (pm : PageMap) (m : Mem) : Word → Nat → List UInt8
  | _, 0 => []
  | a, n + 1 => (byteV pm m a).elim [] fun b => b :: bufV pm m (a + 1) n

namespace SyscallState

/-- The registers that the interrupt stub pushes. -/
structure SyscInterruptFrame where
  edi : Word
  esi : Word
  ebp : Word
  esp : Word
  ebx : Word
  edx : Word
  ecx : Word
  eax : Word
  eip : Word
  cs : Word
  eflags : Word

variable {μ δ : Type} (drivers : μ → FileSystemDriver δ) (fuel : Nat)
  (doNothing : UInt32) (dirAddr : Dir → UInt32)

def pageMap (s : SyscallState μ δ) : PageMap := s.kernel.mmu.pageMap s.kernel.mmu.activeDirectory

/-- The string that a register points to. -/
def cstr (s : SyscallState μ δ) (a : Word) : Except Halt CStr :=
  orHalt .fault (cstrV s.pageMap s.mem (2 ^ 32) a)

def activeProcessPid (s : SyscallState μ δ) : UInt32 := .ofNat s.kernel.activeProcessPid

/-- `Process::exit` of the `i`-th process. -/
def exit (s : SyscallState μ δ) (i : Nat) : Except Halt Unit :=
  if (s.exitInfo i).importance = .REQ then
    kpanic ("Required process exited: " ++ (s.exitInfo i).pname)
  else .ok ()

/-- `(u8)` of a success code. -/
def ofCode : FileSystemDriver.SuccessCodes → Word
  | .Sucess => 0
  | .Error => 1

/-- The cases of the `switch`, and what they leave in `eax`. -/
def dispatch (s : SyscallState μ δ) (ifrm : SyscInterruptFrame) :
    SyscallNumbers → Except Halt (SyscallState μ δ × Word)
  | .Open => do
      let fp ← s.cstr ifrm.edi
      let (fd, fs) ← orHalt .undefined (s.fs.open drivers fuel fp)
      return ({ s with fs }, BitVec.ofInt 32 fd)
  | .Write => do
      let conts := bufV s.pageMap s.mem ifrm.esi ifrm.edx.toNat
      let (code, fs) ← orHalt (.panic "Called val() on an err value")
        (s.fs.write drivers (toFd ifrm.edi.toNat) conts ifrm.edx.toNat)
      return ({ s with fs }, ofCode code)
  | .Read => do
      let ((code, bytes), fs) ← orHalt (.panic "Called val() on an err value")
        (s.fs.read drivers (toFd ifrm.edi.toNat) ifrm.edx.toNat)
      let mem ← orHalt .fault (storeV s.pageMap s.mem ifrm.esi bytes)
      return ({ s with fs, mem }, ofCode code)
  | .Close => do
      let fs ← orHalt (.panic "Called val() on an err value")
        (s.fs.close drivers (toFd ifrm.edi.toNat))
      return ({ s with fs }, ifrm.eax)
  | .Claim => do
      let mod ← s.cstr ifrm.edi
      let (ret, modules) := SysModuleHandler.claim s.activeProcessPid mod s.modules
      return ({ s with modules }, ret.toBitVec)
  | .SetFunc => do
      let mod ← s.cstr ifrm.edi
      let (ret, modules) := SysModuleHandler.setFunc s.activeProcessPid
        (dirAddr s.kernel.mmu.activeDirectory) mod (.ofBitVec ifrm.esi) s.modules
      return ({ s with modules }, ret.toBitVec)
  | .Release => do
      let mod ← s.cstr ifrm.edi
      let (ret, modules) := SysModuleHandler.release doNothing s.activeProcessPid mod s.modules
      return ({ s with modules }, ret.toBitVec)
  | .Mmap => do
      let (kernel, a) ← s.kernel.mmap ifrm.edi
      return ({ s with kernel }, a)
  | .Munmap => return (s, ifrm.eax)
  | .Exit => do
      -- the loop over all processes, whose pids need not differ
      (List.range s.kernel.processes.length).forM fun i =>
        if s.kernel.processes[i]?.map Process.pid = some s.kernel.activeProcessPid then s.exit i
        else .ok ()
      return (s, ifrm.eax)
  | .Filesize => do
      let size ← orHalt (.panic "Called val() on an err value")
        (s.fs.fileSize (toFd ifrm.edi.toNat))
      return (s, size.toBitVec)

/-- `syscallHandler`. -/
def syscallHandler (s : SyscallState μ δ) (ifrm : SyscInterruptFrame) :
    Except Halt (SyscallState μ δ × SyscInterruptFrame) := do
  let s := { s with isInSyscall := true }
  let (s, eax) ← match SyscallNumbers.ofEax ifrm.eax with
    | some n => dispatch drivers fuel doNothing dirAddr s ifrm n
    | none => .ok (s, -1)
  return ({ s with isInSyscall := false }, { ifrm with eax })

/-! ### Calls that are refused -/

variable {drivers : μ → FileSystemDriver δ} {fuel : Nat} {doNothing : UInt32}
  {dirAddr : Dir → UInt32} {s s' : SyscallState μ δ} {ifrm : SyscInterruptFrame}
  {n : SyscallNumbers}

/-- Descriptors, modules, and what the kernel knows of memory and processes are as they were. -/
structure Untouched (s s' : SyscallState μ δ) : Prop where
  fs : s'.fs = s.fs
  modules : s'.modules = s.modules
  kernel : s'.kernel = s.kernel

variable (drivers fuel doNothing dirAddr) in
/-- The call comes back with -1 and has done nothing. -/
def Refused (s : SyscallState μ δ) (ifrm : SyscInterruptFrame) : Prop :=
  ∃ s' ifrm', syscallHandler drivers fuel doNothing dirAddr s ifrm = .ok (s', ifrm') ∧
    ifrm'.eax = -1 ∧ Untouched s s'

theorem refused_of_undefined (h : SyscallNumbers.ofEax ifrm.eax = none) :
    Refused drivers fuel doNothing dirAddr s ifrm := by
  refine ⟨{ s with isInSyscall := false }, { ifrm with eax := -1 }, ?_, rfl, rfl, rfl, rfl⟩
  rw [syscallHandler, h]
  rfl

theorem refused_iff (h : SyscallNumbers.ofEax ifrm.eax = some n) :
    Refused drivers fuel doNothing dirAddr s ifrm ↔
      ∃ s', dispatch drivers fuel doNothing dirAddr { s with isInSyscall := true } ifrm n =
        .ok (s', -1) ∧ Untouched s s' := by
  constructor
  · rintro ⟨s', ifrm', hrun, heax, hs⟩
    rw [syscallHandler, h] at hrun
    obtain ⟨⟨t, eax⟩, ht, hrun⟩ := bind_eq_ok.mp hrun
    cases hrun
    obtain rfl : eax = -1 := heax
    exact ⟨t, ht, hs.fs, hs.modules, hs.kernel⟩
  · rintro ⟨s', hrun, hs⟩
    refine ⟨{ s' with isInSyscall := false }, { ifrm with eax := -1 }, ?_, rfl, hs.fs, hs.modules,
      hs.kernel⟩
    rw [syscallHandler, h]
    exact bind_eq_ok.mpr ⟨_, hrun, rfl⟩

/-! ### What gives a call away -/

theorem ofCode_ne (code : FileSystemDriver.SuccessCodes) : ofCode code ≠ -1 := by
  cases code <;> decide

theorem one_ne : (1 : UInt32).toBitVec ≠ -1 := by decide

/-- The calls on modules return 0 or 1. -/
theorem update_ne {entries : List SysModuleHandler.Entry} {id : SysModuleId}
    {refuse : SysModuleHandler.Entry → Bool}
    {f : SysModuleHandler.Entry → SysModuleHandler.Entry} :
    (SysModuleHandler.update entries id refuse f).1.toBitVec ≠ -1 := by
  rw [SysModuleHandler.update]
  split
  · exact one_ne
  · split
    · exact one_ne
    · exact (by decide : (0 : UInt32).toBitVec ≠ -1)

theorem claim_ne {pid : UInt32} {mod : CStr} {entries : List SysModuleHandler.Entry} :
    (SysModuleHandler.claim pid mod entries).1.toBitVec ≠ -1 := by
  rw [SysModuleHandler.claim]
  split
  · exact one_ne
  · exact update_ne

theorem setFunc_ne {pid dir func : UInt32} {mod : CStr} {entries : List SysModuleHandler.Entry} :
    (SysModuleHandler.setFunc pid dir mod func entries).1.toBitVec ≠ -1 := by
  rw [SysModuleHandler.setFunc]
  split
  · exact one_ne
  · exact update_ne

/-- A number whose low byte selects a call is not -1. -/
theorem eax_ne (h : SyscallNumbers.ofEax ifrm.eax = some n) : ifrm.eax ≠ -1 := by
  intro heax
  rw [heax] at h
  cases h

theorem latestFd_open {fs fs' : FileSystem μ δ} {fp : CStr} {fd : Int}
    (h : fs.open drivers fuel fp = some (fd, fs')) :
    fs'.latestFd = (fs.latestFd + 1) % 2 ^ 32 := by
  rw [FileSystem.open] at h
  simp only at h
  split at h
  · cases h
  · cases h
    rfl
  · obtain ⟨m, -, h⟩ := Option.map_eq_some_iff.mp h
    cases h
    rfl

/-- `Open` always takes a descriptor. -/
theorem open_ne {fs fs' : FileSystem μ δ} {fp : CStr} {fd : Int}
    (h : fs.open drivers fuel fp = some (fd, fs')) : fs' ≠ fs := by
  rintro rfl
  have := latestFd_open h
  omega

/-- A file of a size that looks like -1 is open under the descriptor. -/
def HugeFile (fs : FileSystem μ δ) (fd : Int) : Prop :=
  fd ≠ 0 ∧ ∃ gf, fs.fdMapping.get fd = some gf ∧ gf.f.size = 0xFFFFFFFF

theorem fileSize_eq_iff {fs : FileSystem μ δ} {fd : Int} :
    fs.fileSize fd = some 0xFFFFFFFF ↔ HugeFile fs fd := by
  constructor
  · intro h
    rw [FileSystem.fileSize] at h
    split at h
    · exact absurd (Option.some.inj h) (by decide)
    · rename_i h0
      split at h
      · exact absurd (Option.some.inj h) (by decide)
      · exact ⟨h0, Option.map_eq_some_iff.mp h⟩
  · rintro ⟨h0, gf, hget, hsize⟩
    have hx : fs.fdMapping.exists fd = true := by
      rw [Map.exists_iff]
      exact AssocVec.mem_keys_of_find (by rw [← Map.get_eq_find, hget])
    simp [FileSystem.fileSize, h0, hx, hget, hsize]

/-- The break of the active process looks like -1, and nothing is left of the size after rounding it
up to pages. -/
def TopBreak (k : Kernel) (edi : Word) : Prop :=
  (edi = 0 ∨ 0xFFFFF000 < edi.toNat) ∧
    ∃ i p, k.activeIndex = some i ∧ k.processes[i]? = some p ∧ p.heapBrk = -1

theorem mmapSize_pages_iff {edi : Word} :
    (mmapSize edi).toNat / 4096 = 0 ↔ edi = 0 ∨ 0xFFFFF000 < edi.toNat := by
  by_cases h : edi.toNat ≤ 0xFFFFF000
  · have hzero : edi = 0 ↔ edi.toNat = 0 := by
      rw [← BitVec.toNat_inj]
      rfl
    rw [toNat_mmapSize_of_le h, Nat.mul_div_cancel _ (by decide), hzero]
    omega
  · rw [toNat_mmapSize_of_gt (Nat.not_le.mp h)]
    omega

open RivOS.System (exists_used_of_mapHeap) in
theorem mmap_refused_iff {k : Kernel} {edi : Word} : k.mmap edi = .ok (k, -1) ↔ TopBreak k edi := by
  constructor
  · intro h
    obtain ⟨-, -, ⟨⟩⟩ | ⟨i, p, all, mmu, frames, hi, hp, hloop, hret⟩ := Kernel.mmap_cases h
    obtain ⟨rfl, ha, hk⟩ | ⟨-, ⟨⟩, -⟩ := hret
    refine ⟨mmapSize_pages_iff.mp (Nat.eq_zero_of_not_pos fun hpages => ?_), i, p, hi, hp, ha.symm⟩
    -- a frame that the loop took is in use
    by_cases hne : k.frames.allocFrame.1 = 0
    · obtain ⟨n, hn⟩ := Nat.exists_eq_succ_of_ne_zero (Nat.ne_of_gt hpages)
      rw [show ((edi + 4095) &&& ~~~4095).toNat / 4096 = n.succ from hn, List.range_succ_eq_map,
        List.map_cons, Kernel.mapHeap, if_pos hne] at hloop
      cases hloop
    · obtain ⟨f, hf, hused⟩ := exists_used_of_mapHeap hne hpages hloop
      have hframes : k.frames = frames := congrArg Kernel.frames hk
      rw [← hframes, hf] at hused
      cases hused
  · rintro ⟨hsize, i, p, hi, hp, hbrk⟩
    have hzero : mmapSize edi = 0 := by
      have hpages := mmapSize_pages_iff.mpr hsize
      have haligned := mmapSize_aligned edi
      refine BitVec.toNat_inj.mp (?_ : _ = 0)
      omega
    rw [Kernel.mmap, hi]
    simp only [hp, orHalt, ok_bind]
    rw [show (edi + 4095) &&& ~~~4095 = 0 from hzero]
    refine bind_eq_ok.mpr ⟨(true, k.mmu, k.frames), rfl, ?_⟩
    obtain ⟨hlt, hget⟩ := List.getElem?_eq_some_iff.mp hp
    have hset : k.processes.set i { p with heapBrk := p.heapBrk + 0 } = k.processes := by
      rw [show p.heapBrk + 0 = p.heapBrk from BitVec.add_zero _]
      exact hget ▸ List.set_getElem_self hlt
    rw [if_pos rfl, hset, hbrk]
    rfl

/-- A call that does nothing and leaves -1 is an `Mmap` or a `Filesize` whose result is -1. -/
theorem dispatch_cases
    (h : dispatch drivers fuel doNothing dirAddr s ifrm n = .ok (s', -1)) (hs : Untouched s s')
    (hn : SyscallNumbers.ofEax ifrm.eax = some n) :
    (n = .Mmap ∧ TopBreak s.kernel ifrm.edi) ∨
      (n = .Filesize ∧ HugeFile s.fs (toFd ifrm.edi.toNat)) := by
  cases n with
  | Open =>
      obtain ⟨fp, -, h⟩ := bind_eq_ok.mp h
      obtain ⟨⟨fd, fs⟩, hopen, h⟩ := bind_eq_ok.mp h
      obtain rfl : { s with fs } = s' := congrArg Prod.fst (Except.ok.inj h)
      exact absurd hs.fs (open_ne (orHalt_eq_ok.mp hopen))
  | Write =>
      obtain ⟨⟨code, fs⟩, -, h⟩ := bind_eq_ok.mp h
      exact absurd (congrArg Prod.snd (Except.ok.inj h)) (ofCode_ne code)
  | Read =>
      obtain ⟨⟨⟨code, bytes⟩, fs⟩, -, h⟩ := bind_eq_ok.mp h
      obtain ⟨mem, -, h⟩ := bind_eq_ok.mp h
      exact absurd (congrArg Prod.snd (Except.ok.inj h)) (ofCode_ne code)
  | Close =>
      obtain ⟨fs, -, h⟩ := bind_eq_ok.mp h
      exact absurd (congrArg Prod.snd (Except.ok.inj h)) (eax_ne hn)
  | Claim =>
      obtain ⟨mod, -, h⟩ := bind_eq_ok.mp h
      exact absurd (congrArg Prod.snd (Except.ok.inj h)) claim_ne
  | SetFunc =>
      obtain ⟨mod, -, h⟩ := bind_eq_ok.mp h
      exact absurd (congrArg Prod.snd (Except.ok.inj h)) setFunc_ne
  | Release =>
      obtain ⟨mod, -, h⟩ := bind_eq_ok.mp h
      exact absurd (congrArg Prod.snd (Except.ok.inj h)) update_ne
  | Mmap =>
      obtain ⟨⟨k, a⟩, hmap, h⟩ := bind_eq_ok.mp h
      cases h
      obtain rfl : k = s.kernel := hs.kernel
      exact .inl ⟨rfl, mmap_refused_iff.mp hmap⟩
  | Munmap => exact absurd (congrArg Prod.snd (Except.ok.inj h)) (eax_ne hn)
  | Exit =>
      obtain ⟨_, -, h⟩ := bind_eq_ok.mp h
      exact absurd (congrArg Prod.snd (Except.ok.inj h)) (eax_ne hn)
  | Filesize =>
      obtain ⟨size, hsize, h⟩ := bind_eq_ok.mp h
      obtain rfl : size = 0xFFFFFFFF :=
        UInt32.toBitVec_inj.mp (congrArg Prod.snd (Except.ok.inj h))
      exact .inr ⟨rfl, fileSize_eq_iff.mp (orHalt_eq_ok.mp hsize)⟩

/-- A number over 10 is refused, and nothing done, exactly if its low byte is over 10, but for a
break and a size that look like -1. -/
theorem undefined_iff (drivers : μ → FileSystemDriver δ) (fuel : Nat) (doNothing : UInt32)
    (dirAddr : Dir → UInt32) (s : SyscallState μ δ) (ifrm : SyscInterruptFrame) :
    Refused drivers fuel doNothing dirAddr s ifrm ↔
      10 < ifrm.eax.toNat % 256 ∨
        (ifrm.eax.toNat % 256 = 7 ∧ TopBreak s.kernel ifrm.edi) ∨
          (ifrm.eax.toNat % 256 = 10 ∧ HugeFile s.fs (toFd ifrm.edi.toNat)) := by
  constructor
  · intro h
    cases hn : SyscallNumbers.ofEax ifrm.eax with
    | none => exact .inl (SyscallNumbers.ofByte_eq_none_iff.mp hn)
    | some n =>
        obtain ⟨s', hrun, hs⟩ := (refused_iff hn).mp h
        rcases dispatch_cases hrun ⟨hs.fs, hs.modules, hs.kernel⟩ hn with ⟨rfl, htop⟩ | ⟨rfl, hhuge⟩
        · exact .inr (.inl ⟨SyscallNumbers.ofByte_inj hn rfl, htop⟩)
        · exact .inr (.inr ⟨SyscallNumbers.ofByte_inj hn rfl, hhuge⟩)
  · rintro (hundef | ⟨hmmap, htop⟩ | ⟨hsize, hhuge⟩)
    · exact refused_of_undefined (SyscallNumbers.ofByte_eq_none_iff.mpr hundef)
    · have hn : SyscallNumbers.ofEax ifrm.eax = some .Mmap := by
        rw [SyscallNumbers.ofEax, hmmap]
        rfl
      refine (refused_iff hn).mpr ⟨{ s with isInSyscall := true }, ?_, rfl, rfl, rfl⟩
      exact bind_eq_ok.mpr ⟨(s.kernel, -1), mmap_refused_iff.mpr htop, rfl⟩
    · have hn : SyscallNumbers.ofEax ifrm.eax = some .Filesize := by
        rw [SyscallNumbers.ofEax, hsize]
        rfl
      refine (refused_iff hn).mpr ⟨{ s with isInSyscall := true }, ?_, rfl, rfl, rfl⟩
      exact bind_eq_ok.mpr ⟨0xFFFFFFFF, orHalt_eq_ok.mpr (fileSize_eq_iff.mpr hhuge), rfl⟩

theorem nulFree_slash : 0 ∉ ascii ['/'] := by decide

/-- One file is open, under the descriptor 1. -/
def oneOpen : SyscallState Unit Unit where
  fs := ⟨[⟨.lit ['/'] nulFree_slash, ()⟩], 2, ⟨[(1, ⟨⟨0, 4, true⟩, ()⟩)]⟩, ()⟩
  modules := SysModuleHandler.init
  kernel := System.freshKernel 16 64
  exitInfo _ := ⟨"shell", .REQ⟩
  mem _ := 0
  isInSyscall := false

/-- All registers zero but `eax` and `edi`. -/
def request (eax edi : Word) : SyscInterruptFrame := ⟨edi, 0, 0, 0, 0, 0, 0, eax, 0, 0, 0⟩

/-- The number 259 closes a file. -/
theorem undefined_closes : ∃ s' ifrm', syscallHandler (fun _ => FileSystem.rootDriver) 1 0
    (fun _ => 0) oneOpen (request 259 1) = .ok (s', ifrm') ∧
      oneOpen.fs.fdMapping.exists 1 = true ∧ s'.fs.fdMapping.exists 1 = false ∧
        ¬ Refused (fun _ => FileSystem.rootDriver) 1 0 (fun _ => 0) oneOpen (request 259 1) := by
  have hclose : FileSystem.close (fun _ => FileSystem.rootDriver) oneOpen.fs
      (toFd (request 259 1).edi.toNat) = some { oneOpen.fs with fdMapping := ⟨[]⟩ } := by
    rw [show toFd (request 259 1).edi.toNat = 1 by decide]
    rfl
  have hrun : syscallHandler (fun _ => FileSystem.rootDriver) 1 0 (fun _ => 0) oneOpen
      (request 259 1) = .ok ({ oneOpen with fs := { oneOpen.fs with fdMapping := ⟨[]⟩ } },
        request 259 1) := by
    rw [syscallHandler, show SyscallNumbers.ofEax (request 259 1).eax = some .Close from rfl]
    exact bind_eq_ok.mpr ⟨_, bind_eq_ok.mpr ⟨_, orHalt_eq_ok.mpr hclose, rfl⟩, rfl⟩
  refine ⟨_, _, hrun, rfl, rfl, ?_⟩
  rintro ⟨s', ifrm', hrun', heax, -⟩
  cases hrun.symm.trans hrun'
  cases heax

end SyscallState

end RivOS
