import Mathlib.Data.List.Forall2
import RivOS.Proc.Switching

/-!
# Proc — Whom the timer switches to

The choice of the scheduler's `pitHandler`, over runs of timer interrupts: which process goes to
`procCtxtSwitch`, and what the kernel says to it.  Stacks and registers are those of
`Proc.Switching`; here a tick brings any frame at all.

* `tick_of_timer`: a timer interrupt of the whole machine is a tick.
* `inv_of_run`: `currentProcess ^= 1` makes the switches go to the processes 1, 0, 1, 0, … of the
  list, whatever its length.
* `driver_not_switched_to`: no run switches to a `Driver` where neither of the first two processes
  is one, and otherwise some run does.
* `covers_every_process`: every run dispatches all processes in turn where there are two, and
  otherwise some run does not.
-/

namespace RivOS

variable {pid n N : Nat} {fr : RegisterStatePIT} {procs procs' : List Process} {p q : Process}
  {sched sched' : Sched} {next : Option Process}

/-! ### Lists of processes -/

/-- `q` is `p`, whose state may have been saved. -/
def Process.Resumes (fr : RegisterStatePIT) (p q : Process) : Prop :=
  q = p ∨ q = { p with state := p.state.save fr }

theorem Process.Resumes.pid_eq (h : p.Resumes fr q) : q.pid = p.pid := by
  rcases h with rfl | rfl <;> rfl

theorem Process.Resumes.priveledge_eq (h : p.Resumes fr q) : q.priveledge = p.priveledge := by
  rcases h with rfl | rfl <;> rfl

theorem Process.resumes_refl (fr : RegisterStatePIT) (procs : List Process) :
    List.Forall₂ (Process.Resumes fr) procs procs := by
  induction procs with
  | nil => exact .nil
  | cons p procs ih => exact .cons (.inl rfl) ih

theorem map_eq_of_resumes {α : Type} {f : Process → α}
    (hf : ∀ {p q : Process}, p.Resumes fr q → f q = f p)
    (h : List.Forall₂ (Process.Resumes fr) procs procs') : procs'.map f = procs.map f := by
  induction h with
  | nil => rfl
  | cons h _ ih => rw [List.map_cons, List.map_cons, hf h, ih]

namespace Sched

theorem saveState_resumes (h : saveState pid fr procs = .ok procs') :
    List.Forall₂ (Process.Resumes fr) procs procs' := by
  induction procs generalizing procs' with
  | nil => cases h
  | cons proc rest ih =>
      rw [saveState] at h
      split at h
      · cases h
        exact .cons (.inr rfl) (Process.resumes_refl fr rest)
      · obtain ⟨rest', hrest, rfl⟩ := map_eq_ok.mp h
        exact .cons (.inl rfl) (ih hrest)

theorem saveInterrupted_resumes (h : saveInterrupted pid fr procs = .ok procs') :
    List.Forall₂ (Process.Resumes fr) procs procs' := by
  rw [saveInterrupted] at h
  split at h
  · exact saveState_resumes h
  · cases h
    exact Process.resumes_refl fr procs

/-- A running process is in the list. -/
theorem saveState_ok (hmem : pid ∈ procs.map Process.pid) :
    ∃ procs', saveState pid fr procs = .ok procs' := by
  induction procs with
  | nil => cases hmem
  | cons proc rest ih =>
      rw [saveState]
      split
      · exact ⟨_, rfl⟩
      · rename_i hne
        obtain ⟨rest', hrest⟩ := ih ((List.mem_cons.mp hmem).resolve_left (Ne.symm hne))
        exact ⟨proc :: rest', by rw [hrest]; rfl⟩

theorem saveInterrupted_ok (fr : RegisterStatePIT) (h : pid = 0 ∨ pid ∈ procs.map Process.pid) :
    ∃ procs', saveInterrupted pid fr procs = .ok procs' := by
  rw [saveInterrupted]
  split
  · rename_i hpid
    exact saveState_ok (h.resolve_left hpid)
  · exact ⟨procs, rfl⟩

theorem saveState_ne_panic {msg : String} : saveState pid fr procs ≠ .error (.panic msg) := by
  induction procs with
  | nil => rintro ⟨⟩
  | cons proc rest ih =>
      rw [saveState]
      split
      · rintro ⟨⟩
      · cases hrest : saveState pid fr rest with
        | ok r => rintro ⟨⟩
        | error e =>
            rintro ⟨⟩
            exact ih hrest

theorem saveInterrupted_ne_panic {msg : String} :
    saveInterrupted pid fr procs ≠ .error (.panic msg) := by
  rw [saveInterrupted]
  split
  · exact saveState_ne_panic
  · rintro ⟨⟩

theorem nextProcess_ne_panic {msg : String} : sched.nextProcess procs ≠ .error (.panic msg) := by
  rw [nextProcess]
  split
  · show Except.map _ (orHalt .undefined procs[sched.currentProcess ^^^ 1]?) ≠ _
    cases procs[sched.currentProcess ^^^ 1]? <;> rintro ⟨⟩
  · rintro ⟨⟩

/-- The process that is due, with the index it is looked up at. -/
theorem nextProcess_cases (h : sched.nextProcess procs = .ok (sched', next)) :
    sched'.ticks = sched.ticks ∧
      ((next = none ∧ sched'.currentProcess = sched.currentProcess ∧
          ¬ (procs.length > 1 ∧ sched.ticks % processCtxtSwitchInterval = 0)) ∨
        (procs.length > 1 ∧ sched'.currentProcess = sched.currentProcess ^^^ 1 ∧
          ∃ p, procs[sched'.currentProcess]? = some p ∧ next = some p)) := by
  rw [nextProcess] at h
  split at h
  · rename_i hdue
    obtain ⟨proc, hproc, heq⟩ := map_eq_ok.mp h
    cases heq
    exact ⟨rfl, .inr ⟨hdue.1, rfl, proc, orHalt_eq_ok.mp hproc, rfl⟩⟩
  · rename_i hdue
    cases h
    exact ⟨rfl, .inl ⟨rfl, rfl, hdue⟩⟩

end Sched

/-! ### Ticks -/

/-- The scheduler and the kernel that calls it. -/
structure Dispatcher where
  sched : Sched
  kernel : Kernel

namespace Dispatcher

/-- `pitHandler` passes `p` to `procCtxtSwitch`. -/
def Passes (d : Dispatcher) (fr : RegisterStatePIT) (p : Process) : Prop :=
  ∃ sched procs, d.sched.pitHandler d.kernel.activeProcessPid d.kernel.processes fr =
    .ok (sched, procs, some p)

/-- A timer interrupt, as far as it decides who goes on, and the index of the process switched to. -/
def tick (d : Dispatcher) (fr : RegisterStatePIT) : Except Halt (Option Nat × Dispatcher) := do
  let (sched, processes, next) ←
    d.sched.pitHandler d.kernel.activeProcessPid d.kernel.processes fr
  let kernel := { d.kernel with processes }
  match next with
  | some proc => return (some sched.currentProcess, ⟨sched, ← kernel.ctxtSwitch proc⟩)
  | none => return (none, ⟨sched, kernel⟩)

/-- A tick that comes to its end. -/
def Step (d : Dispatcher) (e : Option Nat) (d' : Dispatcher) : Prop :=
  ∃ fr, d.tick fr = .ok (e, d')

/-- The indices switched to, in order. -/
def switches (es : List (Option Nat)) : List Nat := es.filterMap id

/-- The scheduler before its first tick. -/
def start (k : Kernel) : Dispatcher := ⟨⟨0, 0⟩, k⟩

variable {d d' : Dispatcher} {e : Option Nat} {es : List (Option Nat)} {k : Kernel}

theorem pitHandler_eq_ok : d.sched.pitHandler pid procs fr = .ok (sched, procs', next) ↔
    Sched.saveInterrupted pid fr procs = .ok procs' ∧
      Sched.nextProcess { d.sched with ticks := (d.sched.ticks + 1) % 2 ^ 64 } procs' =
        .ok (sched, next) := by
  rw [Sched.pitHandler]
  constructor
  · intro h
    obtain ⟨procs₁, hsave, h⟩ := bind_eq_ok.mp h
    obtain ⟨⟨sched₁, next₁⟩, hnext, h⟩ := bind_eq_ok.mp h
    cases h
    exact ⟨hsave, hnext⟩
  · rintro ⟨hsave, hnext⟩
    exact bind_eq_ok.mpr ⟨procs', hsave, bind_eq_ok.mpr ⟨(sched, next), hnext, rfl⟩⟩

theorem pitHandler_ne_panic (msg : String) :
    d.sched.pitHandler pid procs fr ≠ .error (.panic msg) :=
  bind_ne_error Sched.saveInterrupted_ne_panic fun _ _ =>
    bind_ne_error Sched.nextProcess_ne_panic (by rintro _ _ ⟨⟩)

/-- The list keeps its processes, and what is switched to is at the index of the event. -/
theorem tick_cases (h : d.tick fr = .ok (e, d')) :
    List.Forall₂ (Process.Resumes fr) d.kernel.processes d'.kernel.processes ∧
      ((e = none ∧ d'.sched.currentProcess = d.sched.currentProcess) ∨
        (e = some (d.sched.currentProcess ^^^ 1) ∧
          d'.sched.currentProcess = d.sched.currentProcess ^^^ 1)) := by
  obtain ⟨⟨sched, procs, next⟩, hpit, h⟩ := bind_eq_ok.mp h
  obtain ⟨hsave, hnext⟩ := pitHandler_eq_ok.mp hpit
  obtain ⟨-, ⟨rfl, hcur, -⟩ | ⟨-, hcur, p, -, rfl⟩⟩ := Sched.nextProcess_cases hnext
  · cases h
    exact ⟨Sched.saveInterrupted_resumes hsave, .inl ⟨rfl, hcur⟩⟩
  · obtain ⟨kernel, hk, h⟩ := bind_eq_ok.mp h
    obtain rfl := Kernel.ctxtSwitch_eq_ok hk
    cases h
    exact ⟨Sched.saveInterrupted_resumes hsave, .inr ⟨by rw [hcur], hcur⟩⟩

/-- What goes to `procCtxtSwitch` is the process at the index toggled. -/
theorem Passes.cases (h : d.Passes fr p) :
    ∃ q, d.kernel.processes[d.sched.currentProcess ^^^ 1]? = some q ∧ q.Resumes fr p := by
  obtain ⟨sched, procs, hpit⟩ := h
  obtain ⟨hsave, hnext⟩ := pitHandler_eq_ok.mp hpit
  obtain ⟨-, ⟨hnone, -⟩ | ⟨-, hcur, q, hq, hp⟩⟩ := Sched.nextProcess_cases hnext
  · cases hnone
  · cases hp
    rw [hcur] at hq
    have hall := Sched.saveInterrupted_resumes hsave
    obtain ⟨hlt, rfl⟩ := List.getElem?_eq_some_iff.mp hq
    have hlt' : d.sched.currentProcess ^^^ 1 < d.kernel.processes.length := hall.length_eq ▸ hlt
    exact ⟨_, List.getElem?_eq_getElem hlt', hall.get hlt' hlt⟩

/-- The panic of `ctxtSwitch` on a `Driver`. -/
def forbidden : Halt := .panic "Context switching to a process marked 'Driver' is forbidden."

/-- A tick ends in this panic exactly where a `Driver` is passed on. -/
theorem tick_forbidden_iff :
    d.tick fr = .error forbidden ↔ ∃ p, d.Passes fr p ∧ p.priveledge = .Driver := by
  rw [tick]
  constructor
  · intro h
    by_contra hno
    refine bind_ne_error (pitHandler_ne_panic _) (fun r hpit => ?_) h
    obtain ⟨sched, procs, next⟩ := r
    cases next with
    | none => rintro ⟨⟩
    | some p =>
        have hne : p.priveledge ≠ .Driver := fun hp => hno ⟨p, ⟨sched, procs, hpit⟩, hp⟩
        refine bind_ne_error ?_ (by rintro _ _ ⟨⟩)
        rw [Kernel.ctxtSwitch, if_neg hne]
        split <;> simp [kpanic]
  · rintro ⟨p, ⟨sched, procs, hpit⟩, hp⟩
    rw [hpit]
    simp only [ok_bind, Kernel.ctxtSwitch, hp, if_true]
    rfl

/-! ### Runs -/

/-- What every run keeps: the switches go to 1, 0, 1, 0, … -/
structure Inv (k : Kernel) (es : List (Option Nat)) (d : Dispatcher) : Prop where
  levels : d.kernel.processes.map Process.priveledge = k.processes.map Process.priveledge
  current : d.sched.currentProcess = (switches es).length % 2
  order : switches es = (List.range (switches es).length).map fun j => (j + 1) % 2

theorem mod_two_xor_one (n : Nat) : n % 2 ^^^ 1 = (n + 1) % 2 := by
  rcases Nat.mod_two_eq_zero_or_one n with h | h
  · have hsucc : (n + 1) % 2 = 1 := by omega
    rw [h, hsucc]
    rfl
  · have hsucc : (n + 1) % 2 = 0 := by omega
    rw [h, hsucc]
    rfl

theorem switches_concat : switches (es ++ [e]) = switches es ++ e.toList := by
  cases e <;> simp [switches]

theorem Inv.step (hi : Inv k es d) (h : d.Step e d') : Inv k (es ++ [e]) d' := by
  obtain ⟨fr, h⟩ := h
  obtain ⟨hall, hcases⟩ := tick_cases h
  have hlevels := (map_eq_of_resumes Process.Resumes.priveledge_eq hall).trans hi.levels
  rw [hi.current, mod_two_xor_one] at hcases
  rcases hcases with ⟨rfl, hcur⟩ | ⟨rfl, hcur⟩
  · refine ⟨hlevels, ?_, ?_⟩
    · rw [hcur, switches_concat, Option.toList_none, List.append_nil]
    · rw [switches_concat, Option.toList_none, List.append_nil]
      exact hi.order
  · refine ⟨hlevels, ?_, ?_⟩
    · rw [hcur, switches_concat, Option.toList_some, List.length_append, List.length_singleton]
    · rw [switches_concat, Option.toList_some, List.length_append, List.length_singleton,
        List.range_succ, List.map_append, ← hi.order]
      rfl

theorem inv_of_run (r : Run Step (start k) es d) : Inv k es d :=
  r.invHist ⟨rfl, rfl, rfl⟩ fun _ hi h => hi.step h

/-! ### Runs that go on -/

/-- The active process, if there is one, is in the list, and every saved state can be resumed. -/
structure Ready (k : Kernel) : Prop where
  active : k.activeProcessPid = 0 ∨ k.activeProcessPid ∈ k.processes.map Process.pid
  states : ∀ p ∈ k.processes, p.state.eip ≠ 0 ∧ p.state.esp ≠ 0

/-- A frame that can be resumed. -/
def someFrame : RegisterStatePIT := ⟨0, 0, 0, 0, 0, 0, 0, 0, 1, 8, 0x202⟩

/-- The next tick is one of those that switch. -/
def Due (d : Dispatcher) : Prop :=
  (d.sched.ticks + 1) % 2 ^ 64 % Sched.processCtxtSwitchInterval = 0

theorem states_of_resumes (hall : List.Forall₂ (Process.Resumes someFrame) procs procs')
    (h : ∀ p ∈ procs, p.state.eip ≠ 0 ∧ p.state.esp ≠ 0) :
    ∀ p ∈ procs', p.state.eip ≠ 0 ∧ p.state.esp ≠ 0 := by
  induction hall with
  | nil => exact nofun
  | cons hp _ ih =>
      have hhead := h _ List.mem_cons_self
      refine List.forall_mem_cons.mpr ⟨?_, ih fun p hp => h p (List.mem_cons_of_mem _ hp)⟩
      rcases hp with rfl | rfl
      · exact hhead
      · show (1 : Word) ≠ 0 ∧ (0 + 12 : Word) ≠ 0
        decide

/-- What a tick needs to come to its end, and what then is there for the next. -/
structure Goes (d d' : Dispatcher) : Prop where
  ready : Ready d'.kernel
  levels : d'.kernel.processes.map Process.priveledge = d.kernel.processes.map Process.priveledge
  ticks : d'.sched.ticks = (d.sched.ticks + 1) % 2 ^ 64

theorem exists_save (hr : Ready d.kernel) : ∃ procs,
    Sched.saveInterrupted d.kernel.activeProcessPid someFrame d.kernel.processes = .ok procs ∧
      List.Forall₂ (Process.Resumes someFrame) d.kernel.processes procs ∧
      (∀ p ∈ procs, p.state.eip ≠ 0 ∧ p.state.esp ≠ 0) := by
  obtain ⟨procs, hsave⟩ := Sched.saveInterrupted_ok someFrame hr.active
  have hall := Sched.saveInterrupted_resumes hsave
  exact ⟨procs, hsave, hall, states_of_resumes hall hr.states⟩

/-- Between the switches a tick changes nothing but the saved states. -/
theorem step_quiet (hr : Ready d.kernel) (hdue : ¬ d.Due) :
    ∃ d', d.Step none d' ∧ d.Goes d' ∧ d'.sched.currentProcess = d.sched.currentProcess := by
  obtain ⟨procs, hsave, hall, hstates⟩ := exists_save hr
  have hpids := map_eq_of_resumes Process.Resumes.pid_eq hall
  refine ⟨⟨⟨(d.sched.ticks + 1) % 2 ^ 64, d.sched.currentProcess⟩,
    { d.kernel with processes := procs }⟩, ⟨someFrame, ?_⟩, ⟨⟨?_, hstates⟩,
      map_eq_of_resumes Process.Resumes.priveledge_eq hall, rfl⟩, rfl⟩
  · have hnext : Sched.nextProcess { d.sched with ticks := (d.sched.ticks + 1) % 2 ^ 64 } procs =
        .ok ({ d.sched with ticks := (d.sched.ticks + 1) % 2 ^ 64 }, none) :=
      if_neg fun h => hdue h.2
    rw [tick, pitHandler_eq_ok.mpr ⟨hsave, hnext⟩]
    rfl
  · rw [hpids]
    exact hr.active

/-- The process at the index toggled is passed on when its time has come. -/
theorem exists_passes (hr : Ready d.kernel) (hdue : d.Due) (hlen : 1 < d.kernel.processes.length)
    (hp : d.kernel.processes[d.sched.currentProcess ^^^ 1]? = some p) :
    ∃ procs q, d.sched.pitHandler d.kernel.activeProcessPid d.kernel.processes someFrame =
        .ok (⟨(d.sched.ticks + 1) % 2 ^ 64, d.sched.currentProcess ^^^ 1⟩, procs, some q) ∧
      p.Resumes someFrame q ∧ q ∈ procs ∧
      List.Forall₂ (Process.Resumes someFrame) d.kernel.processes procs ∧
      (∀ p ∈ procs, p.state.eip ≠ 0 ∧ p.state.esp ≠ 0) := by
  obtain ⟨procs, hsave, hall, hstates⟩ := exists_save hr
  obtain ⟨hlt, rfl⟩ := List.getElem?_eq_some_iff.mp hp
  have hlt' : d.sched.currentProcess ^^^ 1 < procs.length := hall.length_eq ▸ hlt
  refine ⟨procs, procs[d.sched.currentProcess ^^^ 1], pitHandler_eq_ok.mpr ⟨hsave, ?_⟩,
    hall.get hlt hlt', List.getElem_mem hlt', hall, hstates⟩
  rw [Sched.nextProcess, if_pos ⟨hall.length_eq ▸ hlen, hdue⟩]
  show Except.map _ (orHalt .undefined procs[d.sched.currentProcess ^^^ 1]?) = _
  rw [List.getElem?_eq_getElem hlt']
  rfl

/-- A switch to a process that is no `Driver`. -/
theorem step_switch (hr : Ready d.kernel) (hdue : d.Due) (hlen : 1 < d.kernel.processes.length)
    (hp : d.kernel.processes[d.sched.currentProcess ^^^ 1]? = some p)
    (hlevel : p.priveledge ≠ .Driver) :
    ∃ d', d.Step (some (d.sched.currentProcess ^^^ 1)) d' ∧ d.Goes d' ∧
      d'.sched.currentProcess = d.sched.currentProcess ^^^ 1 := by
  obtain ⟨procs, q, hpit, hq, hmem, hall, hstates⟩ := exists_passes hr hdue hlen hp
  have hqlevel : q.priveledge ≠ .Driver := hq.priveledge_eq ▸ hlevel
  obtain ⟨heip, hesp⟩ := hstates q hmem
  refine ⟨⟨⟨(d.sched.ticks + 1) % 2 ^ 64, d.sched.currentProcess ^^^ 1⟩,
    { d.kernel with
      processes := procs
      activeProcessPid := q.pid
      mmu := { d.kernel.mmu with activeDirectory := q.pageDirectory } }⟩, ⟨someFrame, ?_⟩,
    ⟨⟨.inr (List.mem_map_of_mem hmem), hstates⟩,
      map_eq_of_resumes Process.Resumes.priveledge_eq hall, rfl⟩, rfl⟩
  rw [tick, hpit]
  simp only [ok_bind, Kernel.ctxtSwitch, if_neg hqlevel, heip, hesp, or_self, if_false]
  rfl

/-- Ticks can be had until the next one is to switch. -/
theorem exists_due {s : Dispatcher} (r : Run Step s es d) (hr : Ready d.kernel) :
    ∃ es' d', Run Step s es' d' ∧ switches es' = switches es ∧ Ready d'.kernel ∧ d'.Due ∧
      d'.kernel.processes.map Process.priveledge = d.kernel.processes.map Process.priveledge ∧
      d'.sched.currentProcess = d.sched.currentProcess := by
  -- the counter comes to a multiple of the interval within it, by wrapping around if need be
  obtain ⟨j, hj⟩ : ∃ j, (d.sched.ticks + 1 + j) % 2 ^ 64 % Sched.processCtxtSwitchInterval = 0 := by
    refine ⟨2 ^ 64 * (d.sched.ticks + 1) - (d.sched.ticks + 1), ?_⟩
    have hle : d.sched.ticks + 1 ≤ 2 ^ 64 * (d.sched.ticks + 1) := by omega
    rw [Nat.add_sub_cancel' hle, Nat.mul_mod_right, Nat.zero_mod]
  induction j generalizing es d with
  | zero => exact ⟨es, d, r, rfl, hr, hj, rfl, rfl⟩
  | succ j ih =>
      by_cases hdue : d.Due
      · exact ⟨es, d, r, rfl, hr, hdue, rfl, rfl⟩
      · obtain ⟨d₁, hstep, hgoes, hcur⟩ := step_quiet hr hdue
        have hj₁ : (d₁.sched.ticks + 1 + j) % 2 ^ 64 % Sched.processCtxtSwitchInterval = 0 := by
          rw [hgoes.ticks, Nat.add_assoc, Nat.mod_add_mod, Nat.add_comm 1 j]
          exact hj
        obtain ⟨es', d', r', hes, hr', hdue', hlevels, hcur'⟩ := ih (r.snoc hstep) hgoes.ready hj₁
        refine ⟨es', d', r', ?_, hr', hdue', hlevels.trans hgoes.levels, hcur'.trans hcur⟩
        rw [hes, switches_concat, Option.toList_none, List.append_nil]

/-- `Driver` is none of the levels of the first two processes. -/
def FirstTwo (k : Kernel) : Prop := ∀ p ∈ k.processes.take 2, p.priveledge ≠ .Driver

theorem length_of_levels (h : procs'.map Process.priveledge = procs.map Process.priveledge) :
    procs'.length = procs.length := by
  simpa using congrArg List.length h

theorem level_of_levels (h : procs'.map Process.priveledge = procs.map Process.priveledge)
    (hp : procs'[n]? = some p) : ∃ q, procs[n]? = some q ∧ q.priveledge = p.priveledge := by
  have hget := congrArg (·[n]?) h
  simp only [List.getElem?_map, hp, Option.map_some] at hget
  obtain ⟨q, hq, hlevel⟩ := Option.map_eq_some_iff.mp hget.symm
  exact ⟨q, hq, hlevel⟩

/-- With no `Driver` in the first two places a run may have any number of switches. -/
theorem exists_switches (hr : Ready k) (hlen : 1 < k.processes.length) (htwo : FirstTwo k)
    (m : Nat) : ∃ es d, Run Step (start k) es d ∧ (switches es).length = m ∧ Ready d.kernel := by
  induction m with
  | zero => exact ⟨[], start k, .nil, rfl, hr⟩
  | succ m ih =>
      obtain ⟨es, d, r, hm, hrd⟩ := ih
      obtain ⟨es', d', r', hes, hr', hdue, -, -⟩ := exists_due r hrd
      have hi := inv_of_run r'
      have hlen' := length_of_levels hi.levels
      have hlt : d'.sched.currentProcess ^^^ 1 < 2 := by
        rw [hi.current, mod_two_xor_one]
        exact Nat.mod_lt _ (by decide)
      have hget : d'.kernel.processes[d'.sched.currentProcess ^^^ 1]? = some _ :=
        List.getElem?_eq_getElem (by omega)
      obtain ⟨q, hq, hlevel⟩ := level_of_levels hi.levels hget
      have hqtake : q ∈ k.processes.take 2 :=
        List.mem_of_getElem? ((List.getElem?_take_of_lt hlt).trans hq)
      obtain ⟨d'', hstep, hgoes, -⟩ := step_switch hr' hdue (by omega) hget
        (hlevel ▸ htwo q hqtake)
      refine ⟨_, d'', r'.snoc hstep, ?_, hgoes.ready⟩
      rw [switches_concat, hes, Option.toList_some, List.length_append, hm]
      rfl

/-! ### Drivers -/

/-- No tick passes a `Driver` to `procCtxtSwitch`, or comes to its panic. -/
def Safe (d : Dispatcher) : Prop :=
  ∀ fr, (∀ p, d.Passes fr p → p.priveledge ≠ .Driver) ∧ d.tick fr ≠ .error forbidden

theorem not_safe_of_due (hr : Ready d.kernel) (hdue : d.Due) (hlen : 1 < d.kernel.processes.length)
    (hp : d.kernel.processes[d.sched.currentProcess ^^^ 1]? = some p)
    (hlevel : p.priveledge = .Driver) : ¬ d.Safe := by
  intro hsafe
  obtain ⟨procs, q, hpit, hq, -⟩ := exists_passes hr hdue hlen hp
  exact (hsafe someFrame).1 q ⟨_, procs, hpit⟩ (hq.priveledge_eq.trans hlevel)

theorem safe_of_run (htwo : FirstTwo k) (r : Run Step (start k) es d) : d.Safe := by
  have hpass : ∀ fr p, d.Passes fr p → p.priveledge ≠ .Driver := by
    intro fr p h
    obtain ⟨q, hq, hres⟩ := h.cases
    have hi := inv_of_run r
    rw [hi.current, mod_two_xor_one] at hq
    obtain ⟨q', hq', hlevel⟩ := level_of_levels hi.levels hq
    rw [hres.priveledge_eq, ← hlevel]
    exact htwo q' (List.mem_of_getElem?
      ((List.getElem?_take_of_lt (Nat.mod_lt _ (by decide))).trans hq'))
  exact fun fr => ⟨hpass fr, fun h => by
    obtain ⟨p, hp, hlevel⟩ := tick_forbidden_iff.mp h
    exact hpass fr p hp hlevel⟩

/-- A `Driver` in the second place is due first, and one in the first place next. -/
theorem exists_not_safe (hr : Ready k) (hlen : 1 < k.processes.length) (htwo : ¬ FirstTwo k) :
    ∃ es d, Run Step (start k) es d ∧ ¬ d.Safe := by
  obtain ⟨es, d, r, -, hrd, hdue, hlevels, hcur⟩ := exists_due (s := start k) .nil hr
  have hcur : d.sched.currentProcess = 0 := hcur
  have hlen' : 1 < d.kernel.processes.length := (length_of_levels hlevels).symm ▸ hlen
  obtain ⟨p, hp⟩ : ∃ p, d.kernel.processes[1]? = some p := ⟨_, List.getElem?_eq_getElem hlen'⟩
  have hget : d.kernel.processes[d.sched.currentProcess ^^^ 1]? = some p := by
    rw [hcur]
    exact hp
  by_cases hsecond : p.priveledge = .Driver
  · exact ⟨es, d, r, not_safe_of_due hrd hdue hlen' hget hsecond⟩
  · obtain ⟨d₁, hstep, hgoes, hcur₁⟩ := step_switch hrd hdue hlen' hget hsecond
    obtain ⟨es₂, d₂, r₂, -, hr₂, hdue₂, hlevels₂, hcur₂⟩ := exists_due (r.snoc hstep) hgoes.ready
    have hall : d₂.kernel.processes.map Process.priveledge = k.processes.map Process.priveledge :=
      hlevels₂.trans (hgoes.levels.trans hlevels)
    have hlen₂ : 1 < d₂.kernel.processes.length := (length_of_levels hall).symm ▸ hlen
    have hcur₂ : d₂.sched.currentProcess ^^^ 1 = 0 := by
      rw [hcur₂, hcur₁, hcur]
      rfl
    obtain ⟨p₂, hp₂⟩ : ∃ p, d₂.kernel.processes[0]? = some p :=
      ⟨_, List.getElem?_eq_getElem (Nat.lt_of_succ_lt hlen₂)⟩
    refine ⟨es₂, d₂, r₂, not_safe_of_due hr₂ hdue₂ hlen₂ (by rw [hcur₂]; exact hp₂) ?_⟩
    -- the second process being none, the first is the `Driver`
    by_contra hfirst
    refine htwo fun q hq => ?_
    obtain ⟨i, hi, hqi⟩ := List.mem_take_iff_getElem.mp hq
    have hqi := List.getElem?_eq_some_iff.mpr ⟨_, hqi⟩
    obtain rfl | rfl : i = 0 ∨ i = 1 := by omega
    · obtain ⟨q', hq', hlevel⟩ := level_of_levels hall.symm hqi
      cases hq'.symm.trans hp₂
      exact hlevel ▸ hfirst
    · obtain ⟨q', hq', hlevel⟩ := level_of_levels hlevels.symm hqi
      cases hq'.symm.trans hp
      exact hlevel ▸ hsecond

/-- A kernel that has loaded processes of these levels, the first of which is running. -/
def loadedKernel (levels : List ProcessPriveledgeLevel) : Kernel where
  mmu := ⟨fun _ _ => none, fun _ _ => none, 0, levels.length, .process 0⟩
  frames := ⟨fun _ => true, 0⟩
  processes := levels.mapIdx fun i level => ⟨i + 1, level, [], [], .loaded 0x08048000, 0x08048000,
    .process i, 0x50000000⟩
  latestPid := levels.length + 1
  activeProcessPid := 1

/-- Drivers are kept from the processor exactly where none is in the first two places. -/
theorem driver_not_switched_to (k : Kernel)
    (hpick : 2 ≤ k.processes.countP fun p => decide (p.priveledge ≠ .Driver)) :
    (FirstTwo k → ∀ es d, Run Step (start k) es d → d.Safe) ∧
      (Ready k → ¬ FirstTwo k → ∃ es d, Run Step (start k) es d ∧ ¬ d.Safe) :=
  ⟨fun htwo _ _ r => safe_of_run htwo r, fun hr htwo =>
    exists_not_safe hr (Nat.le_trans hpick List.countP_le_length) htwo⟩

theorem driver_not_switched_to_third :
    2 ≤ (loadedKernel [.Kernel, .User, .Driver]).processes.countP
        (fun p => decide (p.priveledge ≠ .Driver)) ∧
      (FirstTwo (loadedKernel [.Kernel, .User, .Driver]) → ∀ es d,
        Run Step (start (loadedKernel [.Kernel, .User, .Driver])) es d → d.Safe) :=
  ⟨by decide, (driver_not_switched_to _ (by decide)).1⟩

theorem ready_loadedKernel (levels : List ProcessPriveledgeLevel) (hne : levels ≠ []) :
    Ready (loadedKernel levels) where
  active := by
    obtain ⟨level, levels, rfl⟩ := List.exists_cons_of_ne_nil hne
    exact .inr (by simp [loadedKernel])
  states p hp := by
    obtain ⟨i, hi, rfl⟩ := List.mem_mapIdx.mp hp
    show (0x08048000 : Word) ≠ 0 ∧ stackBegin ≠ 0
    decide

/-- With the scheduler first and a driver next, the first switch is to the driver. -/
theorem driver_switched_to :
    2 ≤ (loadedKernel [.Kernel, .Driver, .User]).processes.countP
        (fun p => decide (p.priveledge ≠ .Driver)) ∧
      ∃ es d, Run Step (start (loadedKernel [.Kernel, .Driver, .User])) es d ∧ ¬ d.Safe := by
  refine ⟨by decide, exists_not_safe (ready_loadedKernel _ (by decide)) (by decide) fun htwo => ?_⟩
  exact htwo ⟨2, .Driver, [], [], .loaded 0x08048000, 0x08048000, .process 1, 0x50000000⟩
    (.tail _ List.mem_cons_self) rfl

/-! ### Every process in turn -/

/-- Among any `n` switches in a row each of the first `n` indices is met once. -/
def Covers (n : Nat) (is : List Nat) : Prop :=
  ∀ pre window post, is = pre ++ window ++ post → window.length = n → ∀ i < n, window.count i = 1

theorem covers_two (r : Run Step (start k) es d) : Covers 2 (switches es) := by
  rintro pre window post hsplit hlen i hi
  obtain ⟨a, b, rfl⟩ := List.length_eq_two.mp hlen
  have hget : ∀ j x, (switches es)[j]? = some x → x = (j + 1) % 2 := by
    intro j x hx
    rw [(inv_of_run r).order, List.getElem?_map] at hx
    obtain ⟨y, hy, rfl⟩ := Option.map_eq_some_iff.mp hx
    obtain ⟨-, rfl⟩ := List.getElem?_eq_some_iff.mp hy
    rw [List.getElem_range]
  have ha := hget pre.length a (by simp [hsplit])
  have hb := hget (pre.length + 1) b (by simp [hsplit])
  -- two switches in a row are to the two indices, in one order or the other
  rcases Nat.mod_two_eq_zero_or_one pre.length with h | h
  · obtain rfl : a = 1 := by omega
    obtain rfl : b = 0 := by omega
    obtain rfl | rfl : i = 0 ∨ i = 1 := by omega
    all_goals rfl
  · obtain rfl : a = 0 := by omega
    obtain rfl : b = 1 := by omega
    obtain rfl | rfl : i = 0 ∨ i = 1 := by omega
    all_goals rfl

/-- The third of the processes is never met. -/
theorem exists_not_covers (hr : Ready k) (htwo : FirstTwo k) (hlen : 2 < k.processes.length) :
    ∃ es d, Run Step (start k) es d ∧ ¬ Covers k.processes.length (switches es) := by
  obtain ⟨es, d, r, hm, -⟩ := exists_switches hr (by omega) htwo k.processes.length
  refine ⟨es, d, r, fun hc => ?_⟩
  have hcount := hc [] (switches es) [] (by simp) hm 2 hlen
  have hmem : 2 ∈ switches es := List.count_pos_iff.mp (by omega)
  rw [(inv_of_run r).order] at hmem
  obtain ⟨j, -, hj⟩ := List.mem_map.mp hmem
  omega

/-- Every process has its turn exactly where there are two. -/
theorem covers_every_process (k : Kernel) (hlen : 2 ≤ k.processes.length)
    (hlevels : ∀ p ∈ k.processes, p.priveledge ≠ .Driver) :
    (k.processes.length = 2 →
      ∀ es d, Run Step (start k) es d → Covers k.processes.length (switches es)) ∧
      (Ready k → k.processes.length ≠ 2 →
        ∃ es d, Run Step (start k) es d ∧ ¬ Covers k.processes.length (switches es)) := by
  constructor
  · intro htwo es d r
    rw [htwo]
    exact covers_two r
  · intro hr hne
    exact exists_not_covers hr (fun p hp => hlevels p (List.mem_of_mem_take hp)) (by omega)

theorem not_driver_of_levels {levels : List ProcessPriveledgeLevel} (h : .Driver ∉ levels) :
    ∀ p ∈ (loadedKernel levels).processes, p.priveledge ≠ .Driver := by
  intro p hp hdriver
  obtain ⟨i, hi, rfl⟩ := List.mem_mapIdx.mp hp
  exact h (hdriver ▸ List.getElem_mem hi)

theorem covers_every_process_two :
    (loadedKernel [.Kernel, .User]).processes.length = 2 ∧
      ((loadedKernel [.Kernel, .User]).processes.length = 2 → ∀ es d,
        Run Step (start (loadedKernel [.Kernel, .User])) es d →
          Covers (loadedKernel [.Kernel, .User]).processes.length (switches es)) :=
  ⟨rfl, (covers_every_process _ (by decide) (not_driver_of_levels (by decide))).1⟩

/-- Of three processes the last has no turn. -/
theorem three_not_covered :
    2 ≤ (loadedKernel [.Kernel, .User, .User]).processes.length ∧
      .Driver ∉ (loadedKernel [.Kernel, .User, .User]).processes.map Process.priveledge ∧
      ∃ es d, Run Step (start (loadedKernel [.Kernel, .User, .User])) es d ∧
        ¬ Covers 3 (switches es) := by
  refine ⟨by decide, by decide, exists_not_covers (ready_loadedKernel _ (by decide))
    (fun p hp => ?_) (by decide)⟩
  exact not_driver_of_levels (by decide) p (List.mem_of_mem_take hp)

/-! ### The whole machine -/

/-- What of the machine decides who goes on. -/
structure Sees (d : Dispatcher) (m : Machine) : Prop where
  sched : d.sched = m.sched
  processes : d.kernel.processes = m.kernel.processes
  active : d.kernel.activeProcessPid = m.kernel.activeProcessPid

/-- A timer interrupt of the machine is a tick, and the tick passes on whom the machine resumes. -/
theorem tick_of_timer {m m' : Machine} {junk : Regs} (hs : d.Sees m)
    (hactive : m.kernel.mmu.activeDirectory = m.cr3) (h : m.timer junk = .ok m') :
    ∃ e d', d.Step e d' ∧ d'.Sees m' := by
  obtain ⟨c₁, hc₁, h⟩ := bind_eq_ok.mp h
  obtain ⟨c₂, hc₂, h⟩ := bind_eq_ok.mp h
  obtain ⟨hd, hhd, h⟩ := bind_eq_ok.mp h
  obtain ⟨fr, hread⟩ : ∃ fr, (loadWords m.space c₂.mem c₂.regs.esp 11).bind
      RegisterStatePIT.ofDwords = some fr :=
    ⟨_, (Machine.read_frame (orHalt_eq_ok.mp hc₁) (orHalt_eq_ok.mp hc₂)).2.1⟩
  obtain ⟨sched, procs, next, hsched, hcases⟩ := Machine.pitHandler_cases
    (m := { m with core := c₂ }) hactive hread hhd
  have hsched : d.sched.pitHandler d.kernel.activeProcessPid d.kernel.processes fr =
      .ok (sched, procs, next) := by
    rw [hs.sched, hs.processes, hs.active]
    exact hsched
  rcases hcases with
    ⟨rfl, ticks, rfl⟩ | ⟨p, m₁, rfl, rfl, hready, -, hpid, hprocs, -, hsched₁⟩
  · obtain ⟨c₄, -, h⟩ := bind_eq_ok.mp h
    obtain ⟨c₅, -, h⟩ := bind_eq_ok.mp h
    cases h
    refine ⟨none, ⟨sched, { d.kernel with processes := procs }⟩, ⟨fr, ?_⟩, ⟨rfl, rfl, hs.active⟩⟩
    rw [tick, hsched]
    rfl
  · cases h
    have htick : d.tick fr = .ok (some sched.currentProcess, ⟨sched, { d.kernel with
        processes := procs
        activeProcessPid := p.pid
        mmu := { d.kernel.mmu with activeDirectory := p.pageDirectory } }⟩) := by
      rw [tick, hsched, ok_bind]
      exact bind_eq_ok.mpr ⟨_, Kernel.ctxtSwitch_eq_ok_iff.mpr ⟨hready, rfl⟩, rfl⟩
    exact ⟨_, _, ⟨fr, htick⟩, hsched₁.symm, hprocs.symm, hpid.symm⟩

/-- What is shown of runs of ticks so holds of the machine, whatever the processes do in between. -/
theorem run_of_machine {m₀ m : Machine} {es : List Machine.Event} (hs : m₀.Start)
    (r : Run Machine.Step m₀ es m) :
    ∃ es' d, Run Step ⟨m₀.sched, m₀.kernel⟩ es' d ∧ d.Sees m := by
  induction r with
  | nil => exact ⟨[], _, .nil, rfl, rfl, rfl⟩
  | snoc r h ih =>
      obtain ⟨es', d, r', hsees⟩ := ih
      cases h with
      | exec core mmu frames h => exact ⟨es', d, r', hsees.sched, hsees.processes, hsees.active⟩
      | tick junk h =>
          obtain ⟨e, d', hstep, hsees'⟩ := tick_of_timer hsees (Machine.Run.inv hs r).directory h
          exact ⟨_, d', r'.snoc hstep, hsees'⟩

end Dispatcher

end RivOS
