import RivOS.Sys.Protection
import RivOS.Sys.Syscalls
import RivOS.Proc.Dispatch
import RivOS.Proc.StartUp

/-!
# Proc — Processes that exit

System calls, timer interrupts, and the loading and starting of programs, in any order, from the
state `kernelMain` leaves; and what becomes of a process that makes the call `Exit`.

* `syscall_cases`: what a system call may change of the list of processes and of the modules.
* `inv_of_run`: the pids are those that were given out, in every run.
* `exits_for_good_iff`: a process that exits never goes on, and keeps no module, exactly if it is a
  required one; then the kernel panics.
* `optional_goes_on`: any other goes on right away, is in the list for good, and keeps what it has
  claimed.
-/

namespace RivOS

/-! ### Calls about modules -/

namespace SysModuleHandler

variable {es es' : List Entry} {doNothing pid o : UInt32} {id : SysModuleId} {mod : CStr}

/-- A process has made a call about a module, or none. -/
def CalledBy (doNothing pid : UInt32) (es es' : List Entry) : Prop :=
  es' = es ∨ ∃ ret mod, claim pid mod es = (ret, es') ∨ release doNothing pid mod es = (ret, es') ∨
    ∃ dir func, setFunc pid dir mod func es = (ret, es')

/-- It changes an entry that is free or its own. -/
theorem CalledBy.cases (ht : Table es) (h : CalledBy doNothing pid es es') :
    es' = es ∨ ∃ id e owner func dir, entry es id = some e ∧ (e.owner = 0 ∨ e.owner = pid) ∧
      es' = store es id ⟨e.module, owner, func, dir⟩ := by
  rcases h with rfl | ⟨ret, mod, h | h | ⟨dir, func, h⟩⟩
  · exact .inl rfl
  · rcases claim_cases ht h with ⟨-, rfl, -⟩ | ⟨e, -, he, howner, -, rfl⟩
    · exact .inl rfl
    · exact .inr ⟨_, e, _, _, _, he, .inl howner, rfl⟩
  · rcases release_cases h with ⟨-, rfl⟩ | ⟨e, he, howner, -, rfl⟩
    · exact .inl rfl
    · exact .inr ⟨_, e, _, _, _, he, .inr howner, rfl⟩
  · rcases setFunc_cases h with ⟨-, rfl⟩ | ⟨e, he, howner, -, rfl⟩
    · exact .inl rfl
    · exact .inr ⟨_, e, _, _, _, he, .inr howner, rfl⟩

theorem CalledBy.table (ht : Table es) (h : CalledBy doNothing pid es es') : Table es' := by
  rcases h.cases ht with rfl | ⟨id, e, _, _, _, he, -, rfl⟩
  · exact ht
  · exact table_store ht he rfl

/-- What another process owns stays that process's. -/
theorem CalledBy.owner_kept (ht : Table es) (h : CalledBy doNothing pid es es')
    (hid : getowner es id = o) (h0 : o ≠ 0) (hpid : o ≠ pid) :
    getowner es' id = o := by
  rcases h.cases ht with rfl | ⟨id', e, owner, func, dir, he, howner, rfl⟩
  · exact hid
  · rw [getowner_store ht he]
    split
    · next heq =>
        subst heq
        rw [getowner_of_entry he] at hid
        rcases howner with hzero | hsame
        · exact absurd (hid.symm.trans hzero) h0
        · exact absurd (hid.symm.trans hsame) hpid
    · exact hid

/-- A module that has an owner is refused. -/
theorem claim_owned (ht : Table es) (hid : getowner es (toSysMId mod) ≠ 0)
    (other : UInt32) : (claim other mod es).1 = 1 := by
  rcases claim_cases ht (Prod.eta (claim other mod es)).symm with ⟨h, -⟩ | ⟨e, -, he, howner, -⟩
  · exact h
  · exact absurd ((getowner_of_entry he).trans howner) hid

end SysModuleHandler

/-! ### Ticks -/

theorem Process.Resumes.pageDirectory_eq {fr : RegisterStatePIT} {p q : Process}
    (h : p.Resumes fr q) : q.pageDirectory = p.pageDirectory := by
  rcases h with rfl | rfl <;> rfl

/-- Saved registers are no matter. -/
theorem Numbered.resumes {fr : RegisterStatePIT} {k : Kernel} {procs : List Process}
    (hk : Numbered k) (h : List.Forall₂ (Process.Resumes fr) k.processes procs) :
    Numbered { k with processes := procs } := by
  have hsettled : Settled { k with processes := procs } := by
    refine ⟨hk.settled.shaped, hk.settled.null, h.length_eq ▸ hk.settled.length, fun i q hq => ?_⟩
    obtain ⟨hi, rfl⟩ := List.getElem?_eq_some_iff.mp hq
    have hi' : i < k.processes.length := h.length_eq ▸ hi
    rw [← hk.settled.directory i _ (List.getElem?_eq_getElem hi')]
    exact (h.get hi' hi).pageDirectory_eq
  exact hk.of_pids hsettled (map_eq_of_resumes Process.Resumes.pid_eq h) rfl

/-- What a tick makes of the kernel. -/
theorem Dispatcher.tick_kernel {d d' : Dispatcher} {fr : RegisterStatePIT} {e : Option Nat}
    (h : d.tick fr = .ok (e, d')) : ∃ procs,
      List.Forall₂ (Process.Resumes fr) d.kernel.processes procs ∧
        ((e = none ∧ d'.kernel = { d.kernel with processes := procs }) ∨
          ∃ (i j : Nat) (p : Process), e = some i ∧ procs[j]? = some p ∧
            Kernel.ctxtSwitch { d.kernel with processes := procs } p = .ok d'.kernel) := by
  obtain ⟨⟨sched, procs, next⟩, hpit, h⟩ := bind_eq_ok.mp h
  obtain ⟨hsave, hnext⟩ := Dispatcher.pitHandler_eq_ok.mp hpit
  refine ⟨procs, Sched.saveInterrupted_resumes hsave, ?_⟩
  obtain ⟨-, ⟨rfl, -⟩ | ⟨-, -, p, hp, rfl⟩⟩ := Sched.nextProcess_cases hnext
  · cases h
    exact .inl ⟨rfl, rfl⟩
  · obtain ⟨kernel, hk, h⟩ := bind_eq_ok.mp h
    cases h
    exact .inr ⟨_, _, p, rfl, hp, hk⟩

/-! ### The list of processes -/

def Kernel.pids (k : Kernel) : List Nat := k.processes.map Process.pid

/-- The pids are those that were given out, and the active one is among them. -/
structure Enrolled (k : Kernel) : Prop where
  numbered : Numbered k
  active : k.activeProcessPid = 0 ∨ k.activeProcessPid ∈ k.pids

section Enrolled

variable {k k' : Kernel} {b : BootStack}

theorem Enrolled.of_pids (hk : Enrolled k) (hs : Settled k') (hpids : k'.pids = k.pids)
    (hlatest : k'.latestPid = k.latestPid)
    (hactive : k'.activeProcessPid = k.activeProcessPid ∨ k'.activeProcessPid ∈ k.pids) :
    Enrolled k' ∧ k.pids <+: k'.pids := by
  refine ⟨⟨hk.numbered.of_pids hs hpids hlatest, ?_⟩, hpids ▸ List.prefix_refl _⟩
  rw [hpids]
  rcases hactive with hsame | hmem
  · rw [hsame]
    exact hk.active
  · exact .inr hmem

theorem Enrolled.mmap {edi a : Word} (hk : Enrolled k) (h : k.mmap edi = .ok (k', a)) :
    Enrolled k' ∧ k.pids <+: k'.pids := by
  obtain ⟨hpids, hlatest, hactive⟩ := pids_mmap h
  exact hk.of_pids (hk.numbered.settled.mmap h) hpids hlatest (.inl hactive)

theorem Enrolled.load {file : PMem} {priveledge : ProcessPriveledgeLevel} {mem mem' : Mem}
    {p : Process} (hk : Enrolled k)
    (h : ElfExecutable.load file b priveledge k mem = .ok (p, k', mem')) :
    Enrolled k' ∧ k.pids <+: k'.pids := by
  obtain ⟨_, _, _, -, -, -, -, -, -, hprocs, -, -, hactive⟩ := ElfExecutable.load_cases h
  have hprefix : k.pids <+: k'.pids := by
    rw [Kernel.pids, Kernel.pids, hprocs, List.map_append]
    exact List.prefix_append ..
  refine ⟨⟨hk.numbered.load h, ?_⟩, hprefix⟩
  rw [hactive]
  exact hk.active.imp_right fun hmem => hprefix.subset hmem

theorem Enrolled.run {i : Nat} (hk : Enrolled k) (h : k.run i = .ok k') :
    Enrolled k' ∧ k.pids <+: k'.pids := by
  have hsettled := hk.numbered.settled.run h
  obtain ⟨q, l, hq, -, rfl⟩ := Kernel.run_cases h
  exact hk.of_pids hsettled (map_pid_set hq rfl) rfl
    (.inr (List.mem_map_of_mem (List.mem_of_getElem? hq)))

theorem Enrolled.tick {d d' : Dispatcher} {fr : RegisterStatePIT} {e : Option Nat}
    (hk : Enrolled d.kernel) (h : d.tick fr = .ok (e, d')) :
    Enrolled d'.kernel ∧ d.kernel.pids <+: d'.kernel.pids := by
  obtain ⟨procs, hall, hcases⟩ := Dispatcher.tick_kernel h
  have hnumbered := hk.numbered.resumes hall
  have hpids := map_eq_of_resumes Process.Resumes.pid_eq hall
  rcases hcases with ⟨-, hkernel⟩ | ⟨i, j, q, -, hq, hswitch⟩
  · rw [hkernel]
    exact hk.of_pids hnumbered.settled hpids rfl (.inl rfl)
  · have hsettled := hnumbered.settled.ctxtSwitch hq hswitch
    obtain hkernel := Kernel.ctxtSwitch_eq_ok hswitch
    rw [hkernel] at hsettled ⊢
    refine hk.of_pids hsettled hpids rfl (.inr ?_)
    rw [← show procs.map Process.pid = d.kernel.pids from hpids]
    exact List.mem_map_of_mem (List.mem_of_getElem? hq)

theorem Enrolled.active_lt (hk : Enrolled k) : k.activeProcessPid < 2 ^ 32 := by
  rcases hk.active with hzero | hmem
  · omega
  · rw [Kernel.pids, hk.numbered.pids, List.mem_range'_1] at hmem
    have hfew := hk.numbered.few
    omega

end Enrolled

/-! ### The system -/

/-- What system calls and the scheduler know. -/
structure World (μ δ : Type) where
  sys : SyscallState μ δ
  sched : Sched

namespace World

inductive Event where
  /-- A system call has come to its end and returns to the process that made it. -/
  | sysc (pid : Nat)
  /-- A timer interrupt, and the process that it switched to. -/
  | tick (switched : Option Nat)
  | load
  | run (pid : Nat)

/-- Whom a return from a system call or a context switch lets go on. -/
def Event.resumed : Event → Option Nat
  | .sysc pid => some pid
  | .tick switched => switched
  | .load => none
  | .run _ => none

section Steps

variable {μ δ : Type} (drivers : μ → FileSystemDriver δ) (fuel : Nat) (doNothing : UInt32)
  (dirAddr : Dir → UInt32) (b : BootStack)

/-- A process is made with all its fields zero, and zero is `REQ`. -/
inductive Step : World μ δ → Event → World μ δ → Prop where
  | sysc {w : World μ δ} {ifrm ifrm' : SyscallState.SyscInterruptFrame} {sys : SyscallState μ δ}
      (h : w.sys.syscallHandler drivers fuel doNothing dirAddr ifrm = .ok (sys, ifrm')) :
      Step w (.sysc w.sys.kernel.activeProcessPid) { w with sys }
  | tick {w : World μ δ} {fr : RegisterStatePIT} {i : Option Nat} {d : Dispatcher}
      (h : Dispatcher.tick ⟨w.sched, w.sys.kernel⟩ fr = .ok (i, d)) :
      Step w (.tick (i.map fun _ => d.kernel.activeProcessPid))
        ⟨{ w.sys with kernel := d.kernel }, d.sched⟩
  | load {w : World μ δ} {file : PMem} {priveledge : ProcessPriveledgeLevel} {p : Process}
      {kernel : Kernel} {mem : Mem} (pname : String)
      (h : ElfExecutable.load file b priveledge w.sys.kernel w.sys.mem = .ok (p, kernel, mem)) :
      Step w .load { w with sys := { w.sys with
        kernel, mem
        exitInfo := Function.update w.sys.exitInfo w.sys.kernel.processes.length ⟨pname, .REQ⟩ } }
  | run {w : World μ δ} {i : Nat} {p : Process} {kernel : Kernel}
      (importance : ProcessImportance) (hp : w.sys.kernel.processes[i]? = some p)
      (h : w.sys.kernel.run i = .ok kernel) :
      Step w (.run p.pid) { w with sys := { w.sys with
        kernel
        exitInfo := Function.update w.sys.exitInfo i ⟨(w.sys.exitInfo i).pname, importance⟩ } }

/-- No process has been loaded, and no module claimed. -/
structure Start (w : World μ δ) : Prop where
  booted : w.sys.kernel.Booted
  latest : w.sys.kernel.latestPid = 1
  active : w.sys.kernel.activeProcessPid = 0
  modules : w.sys.modules = SysModuleHandler.init

/-- The module is free, or another process has it by now. -/
def Claimable (entries : List SysModuleHandler.Entry) (pid : UInt32) (mod : CStr) : Prop :=
  ∀ other, other ≠ pid → (SysModuleHandler.claim other mod entries).1 = 0 ∨
    SysModuleHandler.getowner entries (SysModuleHandler.toSysMId mod) ∉ [0, pid]

/-- The system call is the last that is seen of the process at `i`: the kernel panics over it, or
the process never goes on, and what it has claimed can be claimed. -/
def ExitsForGood (w : World μ δ) (ifrm : SyscallState.SyscInterruptFrame) (i pid : Nat) : Prop :=
  (w.sys.exitInfo i).importance = .REQ ∧
      w.sys.syscallHandler drivers fuel doNothing dirAddr ifrm =
        .error (.panic ("Required process exited: " ++ (w.sys.exitInfo i).pname)) ∨
    ∀ sys ifrm' es w', w.sys.syscallHandler drivers fuel doNothing dirAddr ifrm = .ok (sys, ifrm') →
      Run (Step drivers fuel doNothing dirAddr b) { w with sys } es w' →
        (∀ e ∈ Event.sysc w.sys.kernel.activeProcessPid :: es, e.resumed ≠ some pid) ∧
          ∀ mod, SysModuleHandler.getowner w.sys.modules (SysModuleHandler.toSysMId mod) =
            .ofNat pid → Claimable w'.sys.modules (.ofNat pid) mod

end Steps

variable {μ δ : Type} {drivers : μ → FileSystemDriver δ} {fuel : Nat} {doNothing : UInt32}
  {dirAddr : Dir → UInt32} {b : BootStack} {s s' : SyscallState μ δ}
  {ifrm ifrm' : SyscallState.SyscInterruptFrame}

/-! ### What a system call may change -/

open SyscallState in
/-- **A system call** moves a break, or changes a module, or neither. -/
theorem syscall_cases
    (h : s.syscallHandler drivers fuel doNothing dirAddr ifrm = .ok (s', ifrm')) :
    s'.exitInfo = s.exitInfo ∧
      (s'.kernel = s.kernel ∨ ∃ edi a, s.kernel.mmap edi = .ok (s'.kernel, a)) ∧
      SysModuleHandler.CalledBy doNothing s.activeProcessPid s.modules s'.modules := by
  rw [syscallHandler] at h
  rcases hn : SyscallNumbers.ofEax ifrm.eax with _ | n
  · rw [hn] at h
    cases h
    exact ⟨rfl, .inl rfl, .inl rfl⟩
  rw [hn] at h
  obtain ⟨⟨t, eax⟩, ht, h⟩ := bind_eq_ok.mp h
  cases h
  dsimp only
  cases n with
  | Open =>
      obtain ⟨fp, -, ht⟩ := bind_eq_ok.mp ht
      obtain ⟨q, -, ht⟩ := bind_eq_ok.mp ht
      cases ht
      exact ⟨rfl, .inl rfl, .inl rfl⟩
  | Write =>
      obtain ⟨q, -, ht⟩ := bind_eq_ok.mp ht
      cases ht
      exact ⟨rfl, .inl rfl, .inl rfl⟩
  | Read =>
      obtain ⟨⟨⟨code, bytes⟩, fs⟩, -, ht⟩ := bind_eq_ok.mp ht
      obtain ⟨mem, -, ht⟩ := bind_eq_ok.mp ht
      cases ht
      exact ⟨rfl, .inl rfl, .inl rfl⟩
  | Close =>
      obtain ⟨fs, -, ht⟩ := bind_eq_ok.mp ht
      cases ht
      exact ⟨rfl, .inl rfl, .inl rfl⟩
  | Claim =>
      obtain ⟨mod, -, ht⟩ := bind_eq_ok.mp ht
      cases ht
      exact ⟨rfl, .inl rfl, .inr ⟨_, mod, .inl rfl⟩⟩
  | SetFunc =>
      obtain ⟨mod, -, ht⟩ := bind_eq_ok.mp ht
      cases ht
      exact ⟨rfl, .inl rfl, .inr ⟨_, mod, .inr (.inr ⟨_, _, rfl⟩)⟩⟩
  | Release =>
      obtain ⟨mod, -, ht⟩ := bind_eq_ok.mp ht
      cases ht
      exact ⟨rfl, .inl rfl, .inr ⟨_, mod, .inr (.inl rfl)⟩⟩
  | Mmap =>
      obtain ⟨⟨kernel, a⟩, hmap, ht⟩ := bind_eq_ok.mp ht
      cases ht
      exact ⟨rfl, .inr ⟨_, _, hmap⟩, .inl rfl⟩
  | Munmap =>
      cases ht
      exact ⟨rfl, .inl rfl, .inl rfl⟩
  | Exit =>
      obtain ⟨_, -, ht⟩ := bind_eq_ok.mp ht
      cases ht
      exact ⟨rfl, .inl rfl, .inl rfl⟩
  | Filesize =>
      obtain ⟨size, -, ht⟩ := bind_eq_ok.mp ht
      cases ht
      exact ⟨rfl, .inl rfl, .inl rfl⟩

/-! ### Runs -/

/-- What every run keeps. -/
structure Inv (w : World μ δ) : Prop where
  enrolled : Enrolled w.sys.kernel
  table : SysModuleHandler.Table w.sys.modules

variable {w w' w₀ : World μ δ} {e : Event} {es : List Event} {i pid : Nat} {p : Process}

theorem Start.inv (hs : Start w) : Inv w := by
  refine ⟨⟨⟨settled_booted hs.booted, ?_, ?_, ?_⟩, .inl hs.active⟩, ?_⟩
  · simp [hs.booted.processes]
  · simp [hs.booted.processes, hs.latest]
  · simp [hs.booted.processes]
  · rw [hs.modules]
    exact SysModuleHandler.table_init

/-- A step keeps the invariant, and no process leaves its place. -/
theorem Inv.step (hi : Inv w) (h : Step drivers fuel doNothing dirAddr b w e w') :
    Inv w' ∧ w.sys.kernel.pids <+: w'.sys.kernel.pids := by
  cases h with
  | sysc h =>
      obtain ⟨-, hkernel | ⟨edi, a, hmap⟩, hmodules⟩ := syscall_cases h
      · exact ⟨⟨hkernel ▸ hi.enrolled, hmodules.table hi.table⟩, hkernel ▸ List.prefix_refl _⟩
      · obtain ⟨henrolled, hpids⟩ := hi.enrolled.mmap hmap
        exact ⟨⟨henrolled, hmodules.table hi.table⟩, hpids⟩
  | tick h =>
      obtain ⟨henrolled, hpids⟩ := hi.enrolled.tick h
      exact ⟨⟨henrolled, hi.table⟩, hpids⟩
  | load pname h =>
      obtain ⟨henrolled, hpids⟩ := hi.enrolled.load h
      exact ⟨⟨henrolled, hi.table⟩, hpids⟩
  | run importance hp h =>
      obtain ⟨henrolled, hpids⟩ := hi.enrolled.run h
      exact ⟨⟨henrolled, hi.table⟩, hpids⟩

theorem inv_of_run (hi : Inv w) (r : Run (Step drivers fuel doNothing dirAddr b) w es w') :
    Inv w' ∧ w.sys.kernel.pids <+: w'.sys.kernel.pids := by
  refine r.inv (I := fun u => Inv u ∧ w.sys.kernel.pids <+: u.sys.kernel.pids)
    ⟨hi, List.prefix_refl _⟩ fun hu h => ?_
  obtain ⟨hinv, hpids⟩ := hu.1.step h
  exact ⟨hinv, hu.2.trans hpids⟩

/-! ### `Exit` -/

/-- The loop of the call comes to the process that made it, and to no other. -/
theorem exit_eq (hk : Enrolled s.kernel) (hp : s.kernel.processes[i]? = some p)
    (hpid : p.pid = s.kernel.activeProcessPid)
    (hexit : SyscallNumbers.ofEax ifrm.eax = some .Exit) :
    s.syscallHandler drivers fuel doNothing dirAddr ifrm =
      (s.exit i).map fun _ => ({ s with isInSyscall := false }, ifrm) := by
  obtain ⟨hlt, hget⟩ := List.getElem?_eq_some_iff.mp hp
  have hactive : s.kernel.processes[i]?.map Process.pid = some s.kernel.activeProcessPid := by
    rw [hp, ← hpid]
    rfl
  -- the pids differ
  have hother : ∀ j, j ≠ i →
      s.kernel.processes[j]?.map Process.pid ≠ some s.kernel.activeProcessPid := by
    intro j hne hj
    rw [← hactive, ← List.getElem?_map, ← List.getElem?_map] at hj
    have hlt : i < (s.kernel.processes.map Process.pid).length := by rwa [List.length_map]
    exact hne ((List.getElem?_inj hlt hk.numbered.nodup).mp hj.symm).symm
  have hloop := forM_single (g := fun j =>
      if s.kernel.processes[j]?.map Process.pid = some s.kernel.activeProcessPid then
        SyscallState.exit { s with isInSyscall := true } j else .ok ())
    (List.nodup_range (n := s.kernel.processes.length)) (List.mem_range.mpr hlt)
    fun j _ hne => if_neg (hother j hne)
  rw [if_pos hactive] at hloop
  rw [SyscallState.syscallHandler, hexit]
  simp only [SyscallState.dispatch, hloop]
  rw [show SyscallState.exit { s with isInSyscall := true } i = s.exit i from rfl]
  rcases s.exit i with e | u <;> rfl

theorem exit_required (hk : Enrolled s.kernel) (hp : s.kernel.processes[i]? = some p)
    (hpid : p.pid = s.kernel.activeProcessPid)
    (hexit : SyscallNumbers.ofEax ifrm.eax = some .Exit) (himp : (s.exitInfo i).importance = .REQ) :
    s.syscallHandler drivers fuel doNothing dirAddr ifrm =
      .error (.panic ("Required process exited: " ++ (s.exitInfo i).pname)) := by
  rw [exit_eq hk hp hpid hexit, SyscallState.exit, if_pos himp]
  rfl

/-- Nothing is done, and the handler returns to the process that has exited. -/
theorem exit_optional (hk : Enrolled s.kernel) (hp : s.kernel.processes[i]? = some p)
    (hpid : p.pid = s.kernel.activeProcessPid)
    (hexit : SyscallNumbers.ofEax ifrm.eax = some .Exit)
    (himp : (s.exitInfo i).importance ≠ .REQ) :
    s.syscallHandler drivers fuel doNothing dirAddr ifrm =
      .ok ({ s with isInSyscall := false }, ifrm) := by
  rw [exit_eq hk hp hpid hexit, SyscallState.exit, if_neg himp]
  rfl

/-- **A process exits for good** exactly if it is a required one. -/
theorem exits_for_good_iff (hs : Start w₀) (r : Run (Step drivers fuel doNothing dirAddr b) w₀ es w)
    (hp : w.sys.kernel.processes[i]? = some p) (hpid : p.pid = w.sys.kernel.activeProcessPid)
    (hexit : SyscallNumbers.ofEax ifrm.eax = some .Exit) :
    ExitsForGood drivers fuel doNothing dirAddr b w ifrm i p.pid ↔
      (w.sys.exitInfo i).importance = .REQ := by
  have hk := (inv_of_run hs.inv r).1.enrolled
  constructor
  · rintro (⟨himp, -⟩ | hgood)
    · exact himp
    · by_contra himp
      have hgone := (hgood _ _ [] _ (exit_optional hk hp hpid hexit himp) .nil).1
      exact hgone _ List.mem_cons_self (congrArg some hpid.symm)
  · intro himp
    exact .inl ⟨himp, exit_required hk hp hpid hexit himp⟩

/-! ### Optional processes -/

theorem ofNat_inj {m n : Nat} (hm : m < 2 ^ 32) (hn : n < 2 ^ 32)
    (h : UInt32.ofNat m = UInt32.ofNat n) : m = n := by
  have hnat := congrArg UInt32.toNat h
  rwa [UInt32.toNat_ofNat_of_lt' hm, UInt32.toNat_ofNat_of_lt' hn] at hnat

/-- What a process owns stays its own until it makes a system call. -/
theorem Inv.owner_kept (hi : Inv w) (h : Step drivers fuel doNothing dirAddr b w e w')
    (hpid : 0 < pid ∧ pid < 2 ^ 32) (hno : e ≠ .sysc pid) {id : SysModuleId}
    (hid : SysModuleHandler.getowner w.sys.modules id = .ofNat pid) :
    SysModuleHandler.getowner w'.sys.modules id = .ofNat pid := by
  cases h with
  | sysc h =>
      obtain ⟨-, -, hmodules⟩ := syscall_cases h
      have hne : pid ≠ w.sys.kernel.activeProcessPid := fun he => hno (congrArg Event.sysc he.symm)
      have hlt := hi.enrolled.active_lt
      refine hmodules.owner_kept hi.table hid ?_ ?_
      · exact fun he => Nat.ne_of_gt hpid.1 (ofNat_inj hpid.2 (by decide) he)
      · exact fun he => hne (ofNat_inj hpid.2 hlt he)
  | tick h => exact hid
  | load pname h => exact hid
  | run importance hp h => exact hid

/-- **An optional process goes on** when it has exited: the call returns to it, it is at its place in
the list for good, and no other process can claim its modules as long as it makes no system call. -/
theorem optional_goes_on (hs : Start w₀)
    (r : Run (Step drivers fuel doNothing dirAddr b) w₀ es w)
    (hp : w.sys.kernel.processes[i]? = some p) (hpid : p.pid = w.sys.kernel.activeProcessPid)
    (hexit : SyscallNumbers.ofEax ifrm.eax = some .Exit)
    (himp : (w.sys.exitInfo i).importance ≠ .REQ) :
    ∃ sys, w.sys.syscallHandler drivers fuel doNothing dirAddr ifrm = .ok (sys, ifrm) ∧
      ∀ es' w', Run (Step drivers fuel doNothing dirAddr b) { w with sys } es' w' →
        w'.sys.kernel.pids[i]? = some p.pid ∧
          (Event.sysc p.pid ∉ es' → ∀ mod,
            SysModuleHandler.getowner w.sys.modules (SysModuleHandler.toSysMId mod) = .ofNat p.pid →
              ∀ other, (SysModuleHandler.claim other mod w'.sys.modules).1 = 1) := by
  have hi := (inv_of_run hs.inv r).1
  obtain ⟨hplace, -⟩ := List.getElem?_eq_some_iff.mp hp
  have hmem : p.pid ∈ w.sys.kernel.pids := List.mem_map_of_mem (List.mem_of_getElem? hp)
  have hpos := Nat.pos_of_ne_zero (hi.enrolled.numbered.ne_zero hmem)
  have hlt := hi.enrolled.active_lt
  rw [← hpid] at hlt
  refine ⟨_, exit_optional hi.enrolled hp hpid hexit himp, fun es' w' r' => ?_⟩
  have hi₁ : Inv { w with sys := { w.sys with isInSyscall := false } } := ⟨hi.enrolled, hi.table⟩
  obtain ⟨hi', hpids⟩ := inv_of_run hi₁ r'
  refine ⟨?_, fun hno mod hmod other => ?_⟩
  · obtain ⟨rest, hrest⟩ := hpids
    rw [← hrest, List.getElem?_append_left (List.length_map Process.pid ▸ hplace), Kernel.pids,
      List.getElem?_map, hp]
    rfl
  · have howner := (r'.invHist (I := fun es u => Inv u ∧ (Event.sysc p.pid ∉ es →
        SysModuleHandler.getowner u.sys.modules (SysModuleHandler.toSysMId mod) = .ofNat p.pid))
      ⟨hi₁, fun _ => hmod⟩ fun _ hu h => ⟨(hu.1.step h).1, fun hno => ?_⟩).2 hno
    · refine SysModuleHandler.claim_owned hi'.table (fun hzero => ?_) other
      exact Nat.ne_of_gt hpos (ofNat_inj hlt (by decide) (howner.symm.trans hzero))
    · rw [List.mem_append, List.mem_singleton, not_or] at hno
      exact hu.1.owner_kept h ⟨hpos, hlt⟩ (Ne.symm hno.2) (hu.2 hno.1)

/-! ### Examples -/

section Examples

open RivOS.System (freshKernel bootStack bareFile booted_freshKernel)

/-- `kernelMain` has set up the memory, and there are no files. -/
def fresh : World Unit Unit where
  sys := { SyscallState.oneOpen with kernel := freshKernel 16 64 }
  sched := ⟨0, 0⟩

theorem start_fresh : Start fresh := ⟨booted_freshKernel (by decide), rfl, rfl, rfl⟩

abbrev FreshRun (es : List Event) (w : World Unit Unit) : Prop :=
  Run (Step (fun _ => FileSystem.rootDriver) 1 0 (fun _ => 0) bootStack) fresh es w

/-- A program is loaded and started. -/
theorem exists_started (importance : ProcessImportance) : ∃ es w p, FreshRun es w ∧
    w.sys.kernel.processes[0]? = some p ∧ p.pid = w.sys.kernel.activeProcessPid ∧
      (w.sys.exitInfo 0).importance = importance := by
  have hrun : ((ElfExecutable.load (bareFile[·]?) bootStack .Kernel (freshKernel 16 64)
      fun _ => 0) >>= fun q => q.2.1.run 0).map (fun _ => ()) = .ok () := by
    decide +kernel
  obtain ⟨k, hk, -⟩ := map_eq_ok.mp hrun
  obtain ⟨⟨p, k₁, mem⟩, hload, hrun⟩ := bind_eq_ok.mp hk
  obtain ⟨q, l, hq, -, rfl⟩ := Kernel.run_cases hrun
  refine ⟨_, _, { q with stackPages := l.pages }, ((Run.nil (s := fresh)).snoc
    (.load "shell" hload)).snoc (.run importance hq hrun), ?_, rfl, ?_⟩
  · exact List.getElem?_set_self (List.getElem?_eq_some_iff.mp hq).1
  · dsimp only
    rw [Function.update_self]

/-- A required process exits. -/
theorem exits_for_good_required : ∃ (es : List Event) (w : World Unit Unit) (p : Process),
    FreshRun es w ∧ ExitsForGood (fun _ => FileSystem.rootDriver) 1 0 (fun _ => 0) bootStack w
      (SyscallState.request 9 1) 0 p.pid := by
  obtain ⟨es, w, p, r, hp, hpid, himp⟩ := exists_started .REQ
  have hexit : SyscallNumbers.ofEax (SyscallState.request 9 1).eax = some .Exit := rfl
  exact ⟨es, w, p, r, (exits_for_good_iff start_fresh r hp hpid hexit).mpr himp⟩

/-- An optional process exits with the code 0. -/
theorem not_exits_for_good : ∃ (es : List Event) (w : World Unit Unit) (p : Process),
    FreshRun es w ∧ w.sys.kernel.processes[0]? = some p ∧
      p.pid = w.sys.kernel.activeProcessPid ∧
        ¬ ExitsForGood (fun _ => FileSystem.rootDriver) 1 0 (fun _ => 0) bootStack w
          (SyscallState.request 9 0) 0 p.pid := by
  obtain ⟨es, w, p, r, hp, hpid, himp⟩ := exists_started .OPT
  refine ⟨es, w, p, r, hp, hpid, ?_⟩
  have hexit : SyscallNumbers.ofEax (SyscallState.request 9 0).eax = some .Exit := rfl
  have himp' : (w.sys.exitInfo 0).importance ≠ .REQ := by
    rw [himp]
    decide
  obtain ⟨sys, hsys, -⟩ := optional_goes_on start_fresh r hp hpid hexit himp'
  rintro (⟨hreq, -⟩ | hgood)
  · exact himp' hreq
  · exact (hgood _ _ [] _ hsys .nil).1 _ List.mem_cons_self (congrArg some hpid.symm)

end Examples

end World

end RivOS
