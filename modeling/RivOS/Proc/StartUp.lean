import RivOS.Proc.Mmap
import RivOS.Proc.Switching

/-!
# Proc — The scheduler starts

`_start` (`sbinSrc/sched/sched.c`) from `setFunc` on, which installs the scheduler's `pitHandler`
(`scheduling/pitHandler.c`), with a timer interrupt between any two of its statements.  The handler
goes through `getpid`, `procList` and `procCtxtSwitch`, which `_start` sets one after the other;
`func.rap` has the functions, and `procList` refers to the kernel's own list.

* `Numbered`: the pids are the numbers from 1 on, in every run of kernel calls.
* `Phase`: which of the globals are set, by the statements still to come.
* `Harmless`: what a tick may do.
* `tick_harmless_iff`: in every run, a tick is harmless exactly if it does not arrive when
  `procList = getProcessList()` is the next statement.
-/

namespace RivOS

open Kernel (Call)

variable {b : BootStack} {k k' : Kernel} {s t : System} {p p' : Process} {i n pid : Nat}
  {state : RegisterStatePIT} {sched : Sched} {procs : List Process} {next : Option Process}

/-! ### Pids -/

/-- Every process has been given the next pid, and there are no more of them than directories. -/
structure Numbered (k : Kernel) : Prop where
  settled : Settled k
  pids : k.processes.map Process.pid = List.range' 1 k.processes.length
  latest : k.latestPid = k.processes.length + 1
  few : k.processes.length ≤ 16

theorem Numbered.nodup (hk : Numbered k) : (k.processes.map Process.pid).Nodup :=
  hk.pids ▸ List.nodup_range'

theorem Numbered.ne_zero (hk : Numbered k) (h : pid ∈ k.processes.map Process.pid) : pid ≠ 0 := by
  rw [hk.pids, List.mem_range'_1] at h
  omega

theorem Numbered.of_pids (hk : Numbered k) (hs : Settled k')
    (hpids : k'.processes.map Process.pid = k.processes.map Process.pid)
    (hlatest : k'.latestPid = k.latestPid) : Numbered k' := by
  have hlength : k'.processes.length = k.processes.length := by
    simpa using congrArg List.length hpids
  refine ⟨hs, ?_, ?_, hlength ▸ hk.few⟩
  · rw [hpids, hlength, hk.pids]
  · rw [hlatest, hlength, hk.latest]

theorem map_pid_set (hp : procs[i]? = some p) (h : p'.pid = p.pid) :
    (procs.set i p').map Process.pid = procs.map Process.pid := by
  obtain ⟨hi, rfl⟩ := List.getElem?_eq_some_iff.mp hp
  have hi' : i < (procs.map Process.pid).length := by rwa [List.length_map]
  rw [List.map_set, h, ← List.getElem_map Process.pid (h := hi'), List.set_getElem_self]

theorem Numbered.load {file : PMem} {priveledge : ProcessPriveledgeLevel} {mem mem' : Mem}
    (hk : Numbered k) (h : ElfExecutable.load file b priveledge k mem = .ok (p, k', mem')) :
    Numbered k' := by
  have hs := hk.settled.load h
  obtain ⟨mmu, hdr, l, hcreate, -, -, -, -, -, hprocs, hpid, hlatest, -⟩ :=
    ElfExecutable.load_cases h
  -- a directory was left, so the next pid is a small number
  have hlt : k.processes.length < 16 := hk.settled.length ▸ Mmu.createAddressSpace_lt hcreate
  refine ⟨hs, ?_, ?_, ?_⟩
  · simp [hprocs, hpid, hk.pids, hk.latest, List.range'_concat, Nat.add_comm]
  · rw [hlatest, hprocs, List.length_append, List.length_singleton, hk.latest]
    omega
  · rw [hprocs, List.length_append]
    exact hlt

/-- `Mmap` moves a break. -/
theorem pids_mmap {edi eax : Word} (h : k.mmap edi = .ok (k', eax)) :
    k'.processes.map Process.pid = k.processes.map Process.pid ∧ k'.latestPid = k.latestPid ∧
      k'.activeProcessPid = k.activeProcessPid := by
  obtain ⟨-, rfl, -⟩ | ⟨i, p, all, mmu, frames, -, hp, -, hret⟩ := Kernel.mmap_cases h
  · exact ⟨rfl, rfl, rfl⟩
  · obtain ⟨-, -, rfl⟩ | ⟨-, -, rfl⟩ := hret
    · exact ⟨map_pid_set hp rfl, rfl, rfl⟩
    · exact ⟨rfl, rfl, rfl⟩

theorem Numbered.step {c : Call} (hk : Numbered s.kernel) (h : System.Step b s c t) :
    Numbered t.kernel := by
  have hs := hk.settled.step h
  obtain ⟨_, _, _, _, _, _, rfl, hload, rfl⟩ | ⟨_, _, rfl, hrun, rfl⟩ |
    ⟨_, _, _, rfl, -, hswitch, rfl⟩ | ⟨_, _, _, rfl, hmap, rfl⟩ := System.step_cases h
  · exact hk.load hload
  · obtain ⟨p, l, hp, -, rfl⟩ := Kernel.run_cases hrun
    exact hk.of_pids hs (map_pid_set hp rfl) rfl
  · obtain rfl := Kernel.ctxtSwitch_eq_ok hswitch
    exact hk.of_pids hs rfl rfl
  · exact hk.of_pids hs (pids_mmap hmap).1 (pids_mmap hmap).2.1

theorem numbered_of_run {cs : List Call} (hb : k.Booted) (hpid : k.latestPid = 1)
    (r : Run (System.Step b) ⟨k, []⟩ cs s) : Numbered s.kernel := by
  refine r.inv (I := fun s => Numbered s.kernel) ⟨settled_booted hb, ?_, ?_, ?_⟩ Numbered.step
  all_goals simp [hb.processes, hpid]

/-! ### `_start` and the handler -/

/-- The pointers that the handler goes through, as far as they are set. -/
structure Globals where
  procCtxtSwitch : Bool := false
  getpid : Bool := false
  procList : Bool := false

/-- The statements that set one, and all the others. -/
inductive Stmt where
  | procCtxtSwitch
  | getpid
  | procList
  | other
deriving DecidableEq

def Globals.run (g : Globals) : Stmt → Globals
  | .procCtxtSwitch => { g with procCtxtSwitch := true }
  | .getpid => { g with getpid := true }
  | .procList => { g with procList := true }
  | .other => g

structure StartUp where
  kernel : Kernel
  sched : Sched
  globals : Globals
  /-- The statements of `_start` still to come. -/
  rest : List Stmt

namespace StartUp

/-- The statements after `setFunc`: `rap` and `conts`, the call of `write`, three locals, the three
globals, and as many as it takes to go through `init.lst`. -/
def start (n : Nat) : List Stmt :=
  List.replicate 6 .other ++ [.procCtxtSwitch, .getpid, .procList] ++ List.replicate n .other

/-- The first half of the scheduler's `pitHandler`: without `getpid` there is no `procPid`. -/
def saveInterrupted (s : StartUp) (state : RegisterStatePIT) : Except Halt (List Process) :=
  let procPid := if s.globals.getpid then s.kernel.activeProcessPid else 0
  if procPid ≠ 0 then
    if s.globals.procList then Sched.saveState procPid state s.kernel.processes
    else .error .undefined
  else .ok s.kernel.processes

/-- The second half. -/
def nextProcess (s : StartUp) (sched : Sched) (procList : List Process) :
    Except Halt (Sched × Option Process) :=
  if s.globals.procList ∧ procList.length > 1 ∧
      sched.ticks % Sched.processCtxtSwitchInterval = 0 then
    let sched := { sched with currentProcess := sched.currentProcess ^^^ 1 }
    if s.globals.procCtxtSwitch then
      (orHalt .undefined procList[sched.currentProcess]?).map fun proc => (sched, some proc)
    else .error .undefined
  else .ok (sched, none)

def pitHandler (s : StartUp) (state : RegisterStatePIT) :
    Except Halt (Sched × List Process × Option Process) := do
  let sched := { s.sched with ticks := (s.sched.ticks + 1) % 2 ^ 64 }
  let procList ← s.saveInterrupted state
  let (sched, next) ← s.nextProcess sched procList
  return (sched, procList, next)

/-- A statement makes no call that changes the kernel's bookkeeping, or one that returns. -/
def Called (b : BootStack) (k k' : Kernel) : Prop :=
  k' = k ∨ ∃ c t, (∀ i, c ≠ .run i ∧ c ≠ .ctxtSwitch i) ∧ System.Step b ⟨k, []⟩ c t ∧ k' = t.kernel

inductive Event where
  /-- The next statement of `_start`. -/
  | stmt
  /-- Another process executes. -/
  | exec
  | tick (state : RegisterStatePIT)

/-- `pid` is the scheduler's; `_start` goes on while it is the active process. -/
inductive Step (b : BootStack) (pid : Nat) : StartUp → Event → StartUp → Prop where
  | stmt {s : StartUp} {st : Stmt} {rest : List Stmt} {k' : Kernel}
      (hactive : s.kernel.activeProcessPid = pid) (hrest : s.rest = st :: rest)
      (hk : Called b s.kernel k') :
      Step b pid s .stmt { s with kernel := k', globals := s.globals.run st, rest }
  | exec {s : StartUp} {k' : Kernel} (hactive : s.kernel.activeProcessPid ≠ pid)
      (hk : Called b s.kernel k') : Step b pid s .exec { s with kernel := k' }
  | tick {s : StartUp} {state : RegisterStatePIT} {sched : Sched} {processes : List Process}
      (h : s.pitHandler state = .ok (sched, processes, none)) :
      Step b pid s (.tick state) { s with sched, kernel := { s.kernel with processes } }
  | switch {s : StartUp} {state : RegisterStatePIT} {sched : Sched} {processes : List Process}
      {p : Process} {k' : Kernel} (h : s.pitHandler state = .ok (sched, processes, some p))
      (hk : Kernel.ctxtSwitch { s.kernel with processes } p = .ok k') :
      Step b pid s (.tick state) { s with sched, kernel := k' }

/-- What a tick may do: it goes through no pointer that is not set, and stores nothing or, once
`procList` is set, the registers of the active process in its state. -/
structure Harmless (s : StartUp) (state : RegisterStatePIT) : Prop where
  defined : s.pitHandler state ≠ .error .undefined
  stores : ∀ {sched procs next}, s.pitHandler state = .ok (sched, procs, next) →
    procs = s.kernel.processes ∨ s.globals.procList = true ∧
      s.kernel.activeProcessPid ∈ s.kernel.processes.map Process.pid ∧
        procs = s.kernel.processes.map (Process.saved s.kernel.activeProcessPid state)

variable {s s' s₀ : StartUp} {g : Globals} {st : Stmt} {rest : List Stmt} {e : Event}
  {es : List Event}

/-! ### What is set when -/

/-- The globals, with the statements still to come. -/
inductive Phase (n : Nat) : Globals → List Stmt → Prop where
  | before (i : Nat) : Phase n {}
      (List.replicate i .other ++ [.procCtxtSwitch, .getpid, .procList] ++ List.replicate n .other)
  | ctxtSwitch : Phase n { procCtxtSwitch := true }
      ([.getpid, .procList] ++ List.replicate n .other)
  | window : Phase n { procCtxtSwitch := true, getpid := true }
      (.procList :: List.replicate n .other)
  | after (i : Nat) : Phase n { procCtxtSwitch := true, getpid := true, procList := true }
      (List.replicate i .other)

theorem Phase.run (h : Phase n g (st :: rest)) : Phase n (g.run st) rest := by
  generalize hr : st :: rest = sts at h
  cases h with
  | before i =>
      cases i with
      | zero =>
          cases hr
          exact .ctxtSwitch
      | succ i =>
          cases hr
          exact .before i
  | ctxtSwitch =>
      cases hr
      exact .window
  | window =>
      cases hr
      exact .after n
  | after i =>
      cases i with
      | zero => cases hr
      | succ i =>
          cases hr
          exact .after i

/-- Only right before `procList` is set, `getpid` is set and it is not. -/
theorem Phase.head_cases (h : Phase n g rest) :
    (rest.head? = some .procList ∧ g.getpid = true ∧ g.procList = false) ∨
      rest.head? ≠ some .procList ∧ (g.getpid = false ∧ g.procList = false ∨
        g.procCtxtSwitch = true ∧ g.getpid = true ∧ g.procList = true) := by
  cases h with
  | before i =>
      refine .inr ⟨?_, .inl ⟨rfl, rfl⟩⟩
      cases i <;> simp [List.replicate_succ]
  | ctxtSwitch => exact .inr ⟨by simp, .inl ⟨rfl, rfl⟩⟩
  | window => exact .inl ⟨rfl, rfl, rfl⟩
  | after i =>
      refine .inr ⟨?_, .inr ⟨rfl, rfl, rfl⟩⟩
      cases i <;> simp [List.replicate_succ]

/-! ### One tick -/

/-- Before `getpid` is set nothing is looked at. -/
theorem pitHandler_before (hg : s.globals.getpid = false) (hp : s.globals.procList = false) :
    s.pitHandler state =
      .ok ({ s.sched with ticks := (s.sched.ticks + 1) % 2 ^ 64 }, s.kernel.processes, none) := by
  have hsave : s.saveInterrupted state = .ok s.kernel.processes := by simp [saveInterrupted, hg]
  have hnext : ∀ sched procList, s.nextProcess sched procList = .ok (sched, none) := by
    simp [nextProcess, hp]
  rw [pitHandler, hsave, ok_bind, hnext]
  rfl

/-- With `getpid` alone the handler reads through a null pointer. -/
theorem pitHandler_window (hg : s.globals.getpid = true) (hp : s.globals.procList = false)
    (hactive : s.kernel.activeProcessPid ≠ 0) : s.pitHandler state = .error .undefined := by
  have hsave : s.saveInterrupted state = .error .undefined := by
    simp [saveInterrupted, hg, hp, hactive]
  rw [pitHandler, hsave]
  rfl

/-- With all of them set this is the handler of a running scheduler. -/
theorem pitHandler_after (hs : s.globals.procCtxtSwitch = true) (hg : s.globals.getpid = true)
    (hp : s.globals.procList = true) : s.pitHandler state =
      s.sched.pitHandler s.kernel.activeProcessPid s.kernel.processes state := by
  have hsave : s.saveInterrupted state =
      Sched.saveInterrupted s.kernel.activeProcessPid state s.kernel.processes := by
    simp only [saveInterrupted, hg, hp, if_true, Sched.saveInterrupted]
  have hnext : s.nextProcess = Sched.nextProcess := by
    funext sched procList
    simp only [nextProcess, hs, hp, if_true, true_and, Sched.nextProcess]
  rw [pitHandler, hsave, hnext, Sched.pitHandler]

/-! ### Runs -/

/-- What every run keeps. -/
structure Inv (n : Nat) (s : StartUp) : Prop where
  numbered : Numbered s.kernel
  active : s.kernel.activeProcessPid ∈ s.kernel.processes.map Process.pid
  current : s.sched.currentProcess < 2
  phase : Phase n s.globals s.rest

/-- What the handler does where it comes to its end. -/
theorem Inv.pitHandler_cases (hi : Inv n s)
    (hok : s.pitHandler state = .ok (sched, procs, next)) :
    (procs = s.kernel.processes ∨ s.globals.procList = true ∧
        procs = s.kernel.processes.map (Process.saved s.kernel.activeProcessPid state)) ∧
      (∀ p ∈ next, p ∈ procs) ∧ sched.currentProcess < 2 := by
  have hpid := hi.numbered.ne_zero hi.active
  rcases hi.phase.head_cases with ⟨-, hg, hp⟩ | ⟨-, ⟨hg, hp⟩ | ⟨hs, hg, hp⟩⟩
  · rw [pitHandler_window hg hp hpid] at hok
    cases hok
  · rw [pitHandler_before hg hp] at hok
    cases hok
    exact ⟨.inl rfl, nofun, hi.current⟩
  · rw [pitHandler_after hs hg hp] at hok
    obtain ⟨rfl, hnext, hcurrent⟩ :=
      Sched.pitHandler_cases hpid hi.numbered.nodup hi.active hok
    exact ⟨.inr ⟨hp, rfl⟩, hnext, hcurrent hi.current⟩

/-- A tick is harmless exactly if it does not arrive right before `procList` is set. -/
theorem Inv.harmless_iff (hi : Inv n s) (state : RegisterStatePIT) :
    Harmless s state ↔ s.rest.head? ≠ some .procList := by
  have hpid := hi.numbered.ne_zero hi.active
  constructor
  · intro h hhead
    rcases hi.phase.head_cases with ⟨-, hg, hp⟩ | ⟨hne, -⟩
    · exact h.defined (pitHandler_window hg hp hpid)
    · exact hne hhead
  · intro hhead
    refine ⟨?_, fun hok => ?_⟩
    · rcases hi.phase.head_cases with ⟨hh, -⟩ | ⟨-, ⟨hg, hp⟩ | ⟨hs, hg, hp⟩⟩
      · exact absurd hh hhead
      · rw [pitHandler_before hg hp]
        nofun
      · rw [pitHandler_after hs hg hp]
        exact Sched.pitHandler_defined hpid hi.numbered.nodup hi.active hi.current
    · rcases (hi.pitHandler_cases hok).1 with hsame | ⟨hp, hsaved⟩
      · exact .inl hsame
      · exact .inr ⟨hp, hi.active, hsaved⟩

/-- Processes are added, and the active one stays so. -/
theorem Called.cases (hc : Called b k k') (hk : Numbered k) :
    Numbered k' ∧ k'.activeProcessPid = k.activeProcessPid ∧
      ∀ pid ∈ k.processes.map Process.pid, pid ∈ k'.processes.map Process.pid := by
  rcases hc with rfl | ⟨c, t, hreturns, h, rfl⟩
  · exact ⟨hk, rfl, fun _ => id⟩
  · refine ⟨hk.step h, ?_⟩
    obtain ⟨_, _, _, _, _, _, rfl, hload, rfl⟩ | ⟨i, _, rfl, -⟩ | ⟨i, _, _, rfl, -⟩ |
      ⟨_, _, _, rfl, hmap, rfl⟩ := System.step_cases h
    · obtain ⟨_, _, _, -, -, -, -, -, -, hprocs, -, -, hactive⟩ := ElfExecutable.load_cases hload
      refine ⟨hactive, fun pid hpid => ?_⟩
      rw [hprocs, List.map_append]
      exact List.mem_append_left _ hpid
    · exact absurd rfl (hreturns i).1
    · exact absurd rfl (hreturns i).2
    · obtain ⟨hpids, -, hactive⟩ := pids_mmap hmap
      exact ⟨hactive, fun pid hpid => hpids ▸ hpid⟩

/-- With the registers of one process saved, the pids are the same. -/
theorem numbered_saved (hk : Numbered k) (pid : Nat) (state : RegisterStatePIT) :
    Numbered { k with processes := k.processes.map (Process.saved pid state) } := by
  refine hk.of_pids ⟨hk.settled.shaped, hk.settled.null, ?_, fun i q hq => ?_⟩ map_pid_saved rfl
  · rw [List.length_map]
    exact hk.settled.length
  · rw [List.getElem?_map] at hq
    obtain ⟨p, hp, rfl⟩ := Option.map_eq_some_iff.mp hq
    rw [← hk.settled.directory i p hp, Process.saved]
    split <;> rfl

/-- A tick that comes to its end leaves the pids as they are. -/
theorem Inv.tick (hi : Inv n s) (h : s.pitHandler state = .ok (sched, procs, next)) :
    Inv n { s with sched, kernel := { s.kernel with processes := procs } } := by
  obtain ⟨hprocs, -, hcurrent⟩ := hi.pitHandler_cases h
  rcases hprocs with rfl | ⟨-, rfl⟩
  · exact ⟨hi.numbered, hi.active, hcurrent, hi.phase⟩
  · refine ⟨numbered_saved hi.numbered _ state, ?_, hcurrent, hi.phase⟩
    rw [map_pid_saved]
    exact hi.active

theorem Inv.step (hi : Inv n s) (h : Step b pid s e s') : Inv n s' := by
  cases h with
  | stmt hactive hrest hk =>
      obtain ⟨hnumbered, hpid, hmem⟩ := hk.cases hi.numbered
      refine ⟨hnumbered, hpid ▸ hmem _ hi.active, hi.current, Phase.run ?_⟩
      rw [← hrest]
      exact hi.phase
  | exec hactive hk =>
      obtain ⟨hnumbered, hpid, hmem⟩ := hk.cases hi.numbered
      exact ⟨hnumbered, hpid ▸ hmem _ hi.active, hi.current, hi.phase⟩
  | tick h => exact hi.tick h
  | switch h hk =>
      have hi' := hi.tick h
      have hp := (hi.pitHandler_cases h).2.1 _ rfl
      obtain ⟨i, hp'⟩ := List.mem_iff_getElem?.mp hp
      have hsettled := hi'.numbered.settled.ctxtSwitch hp' hk
      obtain rfl := Kernel.ctxtSwitch_eq_ok hk
      exact ⟨hi'.numbered.of_pids hsettled rfl rfl, List.mem_map_of_mem hp, hi'.current, hi.phase⟩

/-- `setFunc` has just returned: nothing is set, and the scheduler is active and in the list. -/
structure Start (n pid : Nat) (s : StartUp) : Prop where
  globals : s.globals = {}
  rest : s.rest = start n
  active : s.kernel.activeProcessPid = pid
  listed : pid ∈ s.kernel.processes.map Process.pid
  current : s.sched.currentProcess = 0

/-- **Ticks during start-up**: in every run, a tick is harmless exactly if it does not arrive when
`procList = getProcessList()` is the next statement. -/
theorem tick_harmless_iff {cs : List Call} (hb : k.Booted) (hlatest : k.latestPid = 1)
    (r₀ : Run (System.Step b) ⟨k, []⟩ cs t) (hs : Start n pid s₀) (hkernel : s₀.kernel = t.kernel)
    (r : Run (Step b pid) s₀ es s) (state : RegisterStatePIT) :
    Harmless s state ↔ s.rest.head? ≠ some .procList := by
  have hi₀ : Inv n s₀ := by
    refine ⟨hkernel ▸ numbered_of_run hb hlatest r₀, hs.active ▸ hs.listed, ?_, ?_⟩
    · rw [hs.current]
      decide
    · rw [hs.globals, hs.rest]
      exact .before 6
  exact (r.inv hi₀ Inv.step).harmless_iff state

/-! ### A tick at the wrong time -/

/-- Statements without a tick in between. -/
theorem run_stmts (b : BootStack) (sts rest : List Stmt) (hactive : s.kernel.activeProcessPid = pid)
    (hrest : s.rest = sts ++ rest) : Run (Step b pid) s (List.replicate sts.length .stmt)
      { s with globals := sts.foldl Globals.run s.globals, rest } := by
  induction sts using List.reverseRecOn generalizing rest with
  | nil =>
      rw [List.nil_append] at hrest
      subst hrest
      exact .nil
  | append_singleton sts st ih =>
      rw [List.length_append, List.length_singleton, List.replicate_succ', List.foldl_concat]
      have r := ih (st :: rest) (by rw [hrest, List.append_assoc]; rfl)
      exact r.snoc (.stmt hactive rfl (.inl rfl))

open RivOS.System (freshKernel bootStack oneRuns booted_freshKernel)

/-- The kernel has loaded the scheduler and run it. -/
theorem exists_start (n : Nat) : ∃ t, Run (System.Step bootStack) ⟨freshKernel 16 64, []⟩ oneRuns t ∧
    Start n 1 ⟨t.kernel, ⟨0, 0⟩, {}, start n⟩ := by
  have hrun : (oneRuns.foldlM (System.checked bootStack fun _ _ => true)
      ⟨freshKernel 16 64, []⟩).map (fun t =>
        (t.kernel.activeProcessPid, t.kernel.processes.map Process.pid)) = .ok (1, [1]) := by
    decide +kernel
  obtain ⟨t, ht, hobs⟩ := map_eq_ok.mp hrun
  obtain ⟨hactive, hpids⟩ : t.kernel.activeProcessPid = 1 ∧
      t.kernel.processes.map Process.pid = [1] := by simpa only [Prod.mk.injEq] using hobs
  exact ⟨t, (System.run_of_foldlM ht).mono fun h => h.2, rfl, rfl, hactive, by simp [hpids], rfl⟩

theorem tick_harmless_set : ∃ t s, Run (System.Step bootStack) ⟨freshKernel 16 64, []⟩ oneRuns t ∧
    Run (Step bootStack 1) ⟨t.kernel, ⟨0, 0⟩, {}, start 1⟩ (List.replicate 9 .stmt) s ∧
      ∀ state, Harmless s state := by
  obtain ⟨t, r₀, hs⟩ := exists_start 1
  have r := run_stmts bootStack ((start 1).take 9) [.other] hs.active rfl
  exact ⟨t, _, r₀, r, fun state =>
    (tick_harmless_iff (booted_freshKernel (by decide)) rfl r₀ hs rfl r state).mpr (by simp)⟩

/-- A tick between `getpid` and `procList` reads through a null pointer. -/
theorem tick_harms : ∃ t s, Run (System.Step bootStack) ⟨freshKernel 16 64, []⟩ oneRuns t ∧
    Start 1 1 ⟨t.kernel, ⟨0, 0⟩, {}, start 1⟩ ∧
      Run (Step bootStack 1) ⟨t.kernel, ⟨0, 0⟩, {}, start 1⟩ (List.replicate 8 .stmt) s ∧
        ∀ state, s.pitHandler state = .error .undefined ∧ ¬ Harmless s state := by
  obtain ⟨t, r₀, hs⟩ := exists_start 1
  have r := run_stmts bootStack ((start 1).take 8) [.procList, .other] hs.active rfl
  have hpid : t.kernel.activeProcessPid ≠ 0 := by rw [hs.active]; decide
  refine ⟨t, _, r₀, hs, r, fun state => ?_⟩
  have hwindow : pitHandler ⟨t.kernel, ⟨0, 0⟩, ⟨true, true, false⟩, [.procList, .other]⟩ state =
      .error .undefined := pitHandler_window rfl rfl hpid
  exact ⟨hwindow, fun h => h.defined hwindow⟩

end StartUp

end RivOS
