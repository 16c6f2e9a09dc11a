import RivOS.Proc.Switching
import RivOS.Sys.SysMod

/-!
# Proc — The kernel's clock

`ticks`, which `PIT::sleepMs` waits on, is counted up by the kernel's `pitHandler`
(`drivers/interrupts/pit/handler.cpp`) after it has called the owner of the module `PIT`, if there
is one.  The owner's function may call `Process::ctxtSwitch`, which does not come back.

* `pitHandler_sched`: with the scheduler's function this is `Machine.pitHandler`.
* `ticks_timer`: one interrupt.
* `ticks_counted_iff`: in a run, `ticks` has advanced by the number of interrupts in every state
  exactly if no owner has switched.
-/

namespace RivOS

open Machine (Handled)

/-! ### The interrupt -/

/-- What is at an address that a module's `func` may have.  It returns, or calls `ctxtSwitch` on a
process; it does not write the kernel's `ticks`. -/
structure ModuleFunc where
  call : Machine → RegisterStatePIT → Except Halt (Machine × Option Process)
  ticks_eq : ∀ {m fr m' next}, call m fr = .ok (m', next) → m'.ticks = m.ticks

/-- The scheduler's `pitHandler`. -/
def ModuleFunc.sched : ModuleFunc where
  call m fr := do
    let (sched, processes, next) ←
      m.sched.pitHandler m.kernel.activeProcessPid m.kernel.processes fr
    return ({ m with sched, kernel := { m.kernel with processes } }, next)
  ticks_eq h := by
    obtain ⟨⟨sched, processes, next⟩, -, h⟩ := bind_eq_ok.mp h
    cases h
    rfl

namespace Clock

section Handler

variable (code : UInt32 → ModuleFunc) (dirAt : UInt32 → Dir)
  (entries : List SysModuleHandler.Entry)

/-- The last two statements of the handler. -/
def countTick (m : Machine) : Machine := { m with ticks := (m.ticks + 1) % 2 ^ 64 }

/-- The kernel's `pitHandler`.  `code` and `dirAt` are what the pointers of an entry refer to. -/
def pitHandler (m : Machine) (junk : Regs) (state : Word) : Except Halt Handled :=
  match SysModuleHandler.getFuncEntry entries .PIT with
  | none => return .returned (countTick m)
  | some pitEntry => do
      let ownerVisibleState ←
        orHalt .fault ((loadWords m.space m.core.mem state 11).bind RegisterStatePIT.ofDwords)
      let interrupted := m.kernel.mmu.activeDirectory
      let m := m.switchAddressSpace (dirAt pitEntry.ownerDir)
      let (m, next) ← (code pitEntry.func).call m ownerVisibleState
      match next with
      | some proc =>
          let kernel ← m.kernel.ctxtSwitch proc
          return .resumed (← Machine.resumeProcess { m with kernel } junk proc.state
            proc.pageDirectory)
      | none => return .returned (countTick (m.switchAddressSpace interrupted))

end Handler

/-- The way of an interrupt around a handler, and whether it was left for a process on the way. -/
def timer (handler : Machine → Regs → Word → Except Halt Handled) (m : Machine) (junk : Regs) :
    Except Halt (Bool × Machine) := do
  let core ← orHalt .fault (m.core.enter m.space 0x08 m.gate)
  let core ← orHalt .fault (core.pusha m.space)
  let eax := core.regs.esp
  match ← handler { m with core } junk eax with
  | .resumed m => return (true, m)
  | .returned m =>
      let core := { m.core with regs := { junk with esp := eax } }
      let core ← orHalt .fault (core.popa m.space)
      let core ← orHalt .fault (core.iretd m.space)
      return (false, { m with core })

inductive Event where
  /-- Whoever runs executes. -/
  | exec
  /-- A timer interrupt, and whether the owner has switched to a process. -/
  | tick (switched : Bool)
deriving DecidableEq

/-- Between two interrupts anything may happen but to `ticks`; the module may be claimed, released
and given another function, so that each interrupt comes with entries of its own. -/
inductive Step (code : UInt32 → ModuleFunc) (dirAt : UInt32 → Dir) :
    Machine → Event → Machine → Prop where
  | exec {m m' : Machine} (h : m'.ticks = m.ticks) : Step code dirAt m .exec m'
  | tick {m m' : Machine} {switched : Bool} (entries : List SysModuleHandler.Entry) (junk : Regs)
      (h : timer (pitHandler code dirAt entries) m junk = .ok (switched, m')) :
      Step code dirAt m (.tick switched) m'

/-- The number of timer interrupts. -/
def interrupts (es : List Event) : Nat := es.countP (· ≠ .exec)

/-- `ticks`, 64 bits wide, has advanced by the number of the interrupts. -/
def Counted (m₀ : Machine) (es : List Event) (m : Machine) : Prop :=
  m.ticks % 2 ^ 64 = (m₀.ticks + interrupts es) % 2 ^ 64

variable {code : UInt32 → ModuleFunc} {dirAt : UInt32 → Dir}
  {entries : List SysModuleHandler.Entry} {m m' m₀ : Machine} {junk : Regs} {state : Word}
  {es : List Event} {handled : Handled} {switched : Bool}

/-! ### The scheduler as the owner -/

theorem pitHandler_sched {e : SysModuleHandler.Entry}
    (he : SysModuleHandler.getFuncEntry entries .PIT = some e) (hcode : code e.func = .sched)
    (hdir : dirAt e.ownerDir = m.ownerDir) :
    pitHandler code dirAt entries m junk state = m.pitHandler junk state := by
  rw [pitHandler, he]
  simp only [hcode, hdir, ModuleFunc.sched, Machine.pitHandler, bind_assoc, pure_bind]
  rfl

theorem timer_pitHandler : Prod.snd <$> timer Machine.pitHandler m junk = m.timer junk := by
  rw [timer, Machine.timer, map_bind]
  refine bind_congr fun core => ?_
  rw [Machine.pitStub, map_bind]
  refine bind_congr fun core => ?_
  rw [map_bind]
  refine bind_congr fun handled => ?_
  cases handled with
  | resumed m => rfl
  | returned m => simp only [map_bind, map_pure]

/-! ### One interrupt -/

/-- Resuming a process does not count. -/
theorem ticks_resumeProcess {st : RegisterState} {dir : Dir}
    (h : m.resumeProcess junk st dir = .ok m') : m'.ticks = m.ticks := by
  obtain ⟨c, -, h⟩ := bind_eq_ok.mp h
  obtain ⟨c', -, h⟩ := bind_eq_ok.mp h
  cases h
  rfl

/-- A handler that is left on the way has not counted. -/
theorem ticks_pitHandler (h : pitHandler code dirAt entries m junk state = .ok handled) :
    (∃ m', handled = .resumed m' ∧ m'.ticks = m.ticks) ∨
      ∃ m', handled = .returned m' ∧ m'.ticks = (m.ticks + 1) % 2 ^ 64 := by
  rw [pitHandler] at h
  split at h
  · cases h
    exact .inr ⟨_, rfl, rfl⟩
  · obtain ⟨fr, -, h⟩ := bind_eq_ok.mp h
    obtain ⟨⟨m₁, next⟩, hcall, h⟩ := bind_eq_ok.mp h
    have hticks : m₁.ticks = m.ticks := (ModuleFunc.ticks_eq _ hcall).trans rfl
    cases next with
    | none =>
        cases h
        refine .inr ⟨_, rfl, ?_⟩
        rw [← hticks]
        rfl
    | some proc =>
        obtain ⟨kernel, -, h⟩ := bind_eq_ok.mp h
        obtain ⟨m₂, hresume, h⟩ := bind_eq_ok.mp h
        cases h
        exact .inl ⟨m₂, rfl, (ticks_resumeProcess hresume).trans hticks⟩

theorem ticks_timer
    (h : timer (pitHandler code dirAt entries) m junk = .ok (switched, m')) :
    m'.ticks = if switched then m.ticks else (m.ticks + 1) % 2 ^ 64 := by
  obtain ⟨c₁, -, h⟩ := bind_eq_ok.mp h
  obtain ⟨c₂, -, h⟩ := bind_eq_ok.mp h
  obtain ⟨handled, hhandled, h⟩ := bind_eq_ok.mp h
  rcases ticks_pitHandler hhandled with ⟨m₁, rfl, hticks⟩ | ⟨m₁, rfl, hticks⟩
  · cases h
    rw [if_pos rfl, hticks]
  · obtain ⟨c₃, -, h⟩ := bind_eq_ok.mp h
    obtain ⟨c₄, -, h⟩ := bind_eq_ok.mp h
    cases h
    rw [if_neg Bool.false_ne_true]
    exact hticks

/-! ### Runs -/

/-- The interrupts of a run that `ticks` has counted. -/
theorem ticks_of_run (r : Run (Step code dirAt) m₀ es m) :
    m.ticks % 2 ^ 64 = (m₀.ticks + es.count (.tick false)) % 2 ^ 64 := by
  refine r.invHist (I := fun es m =>
    m.ticks % 2 ^ 64 = (m₀.ticks + es.count (.tick false)) % 2 ^ 64) rfl ?_
  rintro es t e u - hi h
  rw [List.count_append]
  cases h with
  | exec h => simpa [h] using hi
  | tick entries junk h =>
      rw [ticks_timer h]
      rename_i switched
      cases switched with
      | false => simp; omega
      | true => simpa using hi

theorem interrupts_concat (es : List Event) (switched : Bool) :
    interrupts (es ++ [.tick switched]) = interrupts es + 1 := by
  simp [interrupts]

theorem interrupts_eq_count (h : .tick true ∉ es) : interrupts es = es.count (.tick false) := by
  refine List.countP_congr fun e he => ?_
  rcases e with - | (- | -)
  · simp
  · simp
  · exact absurd he h

/-- `ticks` counts every interrupt, so that it is right in every state that a run comes through,
exactly if in none of them the owner has switched to a process. -/
theorem ticks_counted_iff (r : Run (Step code dirAt) m₀ es m) :
    (∀ pre post m₁, es = pre ++ post → Run (Step code dirAt) m₀ pre m₁ →
      Run (Step code dirAt) m₁ post m → Counted m₀ pre m₁) ↔ .tick true ∉ es := by
  constructor
  · intro h hmem
    obtain ⟨pre, post, rfl⟩ := List.mem_iff_append.mp hmem
    -- right before the interrupt, and right after it
    obtain ⟨m₁, r₁, r'⟩ := r.split
    rw [← List.singleton_append] at r'
    obtain ⟨m₂, r₂, r₃⟩ := r'.split
    have hbefore := h pre _ m₁ rfl r₁ r'
    have hafter := h (pre ++ [.tick true]) post m₂ (by simp) (r₁.append r₂) r₃
    have hsame := ticks_of_run (r₁.append r₂)
    rw [List.count_append, List.count_singleton, if_neg (by decide), Nat.add_zero,
      ← ticks_of_run r₁] at hsame
    rw [Counted] at hbefore hafter
    rw [interrupts_concat] at hafter
    omega
  · rintro hnot pre post m₁ rfl r₁ -
    rw [Counted, ticks_of_run r₁,
      interrupts_eq_count fun hmem => hnot (List.mem_append_left _ hmem)]

open Machine (twoProcesses)

/-- One interrupt before anybody has claimed the module. -/
theorem ticks_counted_unclaimed : ∃ m,
    Run (Step (fun _ => .sched) fun _ => .kernel) twoProcesses [.tick false] m ∧
      Counted twoProcesses [.tick false] m := by
  have hrun : (timer (pitHandler (fun _ => .sched) (fun _ => .kernel) SysModuleHandler.init)
      twoProcesses twoProcesses.core.regs).map Prod.fst = .ok false := by decide +kernel
  obtain ⟨⟨switched, m⟩, h, rfl⟩ := map_eq_ok.mp hrun
  have r := Run.single (Step.tick SysModuleHandler.init twoProcesses.core.regs h)
  exact ⟨m, r, (ticks_counted_iff r).mpr (by decide) _ [] m rfl r .nil⟩

/-- The scheduler, with pid 1, has the module. -/
def schedEntries : List SysModuleHandler.Entry := [⟨.ofId .PIT, 1, 1, 1⟩, .new .Framebuffer]

/-- On its 50th interrupt the scheduler switches, and the kernel does not count it. -/
theorem tick_not_counted : ∃ m,
    Run (Step (fun _ => .sched) fun _ => .process 0) twoProcesses [.tick true] m ∧
      m.ticks = 0 ∧ ¬ Counted twoProcesses [.tick true] m := by
  have hrun : (timer (pitHandler (fun _ => .sched) (fun _ => .process 0) schedEntries)
      twoProcesses twoProcesses.core.regs).map (fun r => (r.1, r.2.ticks)) = .ok (true, 0) := by
    decide +kernel
  obtain ⟨⟨switched, m⟩, h, hobs⟩ := map_eq_ok.mp hrun
  obtain ⟨rfl, hticks⟩ : switched = true ∧ m.ticks = 0 := by simpa using hobs
  refine ⟨m, Run.single (.tick schedEntries twoProcesses.core.regs h), hticks, ?_⟩
  rw [Counted, hticks]
  decide

end Clock

end RivOS
