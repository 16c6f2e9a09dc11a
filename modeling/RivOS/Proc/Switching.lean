import RivOS.Proc.Scheduler

/-!
# Proc — Context switches keep the registers

* `timer_cases`: what a timer interrupt does.  The interrupted registers are saved as the state of
  the active process and of no other; then either the same process goes on with them, or a process
  of the list goes on with its saved ones.
* `Start`, `Inv`: the machine once the scheduler has set itself up, and what every run keeps.
* `resumed_as_interrupted`: in every run, whoever a timer interrupt resumes has the registers of its
  own latest interruption, or those `load` stored if there was none; and the interrupt leaves every
  saved state alone but that of the process it interrupted.
* `timer_defined`: no run comes to an undefined read.
-/

namespace RivOS

open RivOS.Core (OnStack)

variable {m m' m₀ : Machine} {junk r : Regs} {es : List Machine.Event} {i q : Nat × Regs}
  {procs procs' : List Process} {p : Process} {pid k : Nat} {fr : RegisterStatePIT}
  {sched sched' : Sched} {next : Option Process} {dir : Dir} {st : RegisterState}

/-! ### Frames and saved states -/

/-- The frame of a program with the registers `r`: its stack pointer is three dwords lower. -/
def frameOf (r : Regs) (cs : Word) : RegisterStatePIT where
  edi := r.edi
  esi := r.esi
  ebp := r.ebp
  esp := r.esp - 12
  ebx := r.ebx
  edx := r.edx
  ecx := r.ecx
  eax := r.eax
  eip := r.eip
  cs := cs
  eflags := r.eflags

/-- The correction by 12 undoes what the processor pushed. -/
theorem RegisterState.regs_save_frameOf (s : RegisterState) (r : Regs) (cs : Word) :
    (s.save (frameOf r cs)).regs = r := by
  simp only [RegisterState.save, RegisterState.regs, frameOf, BitVec.sub_add_cancel]

/-- `p` after an interrupt of the process with the pid. -/
def Process.saved (pid : Nat) (fr : RegisterStatePIT) (p : Process) : Process :=
  if p.pid = pid then { p with state := p.state.save fr } else p

@[simp] theorem Process.pid_saved : (p.saved pid fr).pid = p.pid := by
  rw [Process.saved]
  split <;> rfl

theorem Process.saved_of_ne (h : p.pid ≠ pid) : p.saved pid fr = p := if_neg h

theorem Process.regs_saved (cs : Word) :
    (p.saved p.pid (frameOf r cs)).state.regs = r := by
  rw [Process.saved, if_pos rfl]
  exact RegisterState.regs_save_frameOf ..

theorem map_pid_saved :
    (procs.map (Process.saved pid fr)).map Process.pid = procs.map Process.pid := by
  simp

namespace Sched

/-- The first process of the pid is the only one. -/
theorem saveState_of_mem (hnd : (procs.map Process.pid).Nodup)
    (hmem : pid ∈ procs.map Process.pid) :
    saveState pid fr procs = .ok (procs.map (Process.saved pid fr)) := by
  induction procs with
  | nil => cases hmem
  | cons proc rest ih =>
      obtain ⟨hnot, hnd⟩ := List.nodup_cons.mp hnd
      rw [saveState]
      split
      · rename_i hpid
        have hrest : rest.map (Process.saved pid fr) = rest := by
          refine (List.map_congr_left fun p hp => ?_).trans (List.map_id rest)
          exact Process.saved_of_ne fun heq => hnot (hpid ▸ heq ▸ List.mem_map_of_mem hp)
        rw [List.map_cons, hrest, Process.saved, if_pos hpid]
      · rename_i hpid
        have hmem : pid ∈ rest.map Process.pid :=
          (List.mem_cons.mp hmem).resolve_left (Ne.symm hpid)
        rw [ih hnd hmem, List.map_cons, Process.saved_of_ne hpid]
        rfl

theorem saveInterrupted_of_mem (hpid : pid ≠ 0) (hnd : (procs.map Process.pid).Nodup)
    (hmem : pid ∈ procs.map Process.pid) :
    saveInterrupted pid fr procs = .ok (procs.map (Process.saved pid fr)) := by
  rw [saveInterrupted, if_pos hpid, saveState_of_mem hnd hmem]

theorem nextProcess_mem (h : sched.nextProcess procs = .ok (sched', next)) :
    ∀ p ∈ next, p ∈ procs := by
  rw [nextProcess] at h
  split at h
  · obtain ⟨proc, hproc, heq⟩ := map_eq_ok.mp h
    cases heq
    rintro p ⟨⟩
    exact List.mem_of_getElem? (orHalt_eq_ok.mp hproc)
  · cases h
    exact fun p hp => by cases hp

/-- `currentProcess` is the first or the second process. -/
theorem currentProcess_lt (h : sched.nextProcess procs = .ok (sched', next))
    (hlt : sched.currentProcess < 2) : sched'.currentProcess < 2 := by
  rw [nextProcess] at h
  split at h
  · obtain ⟨proc, -, heq⟩ := map_eq_ok.mp h
    cases heq
    exact Nat.xor_lt_two_pow (n := 1) hlt (by decide)
  · cases h
    exact hlt

theorem nextProcess_defined (hlt : sched.currentProcess < 2) :
    sched.nextProcess procs ≠ .error .undefined := by
  rw [nextProcess]
  split
  · rename_i hlen
    have hxor : sched.currentProcess ^^^ 1 < 2 := Nat.xor_lt_two_pow (n := 1) hlt (by decide)
    show Except.map _ (orHalt .undefined procs[sched.currentProcess ^^^ 1]?) ≠ _
    rw [List.getElem?_eq_getElem (Nat.lt_of_lt_of_le hxor hlen.1)]
    rintro ⟨⟩
  · rintro ⟨⟩

theorem pitHandler_cases (hpid : pid ≠ 0) (hnd : (procs.map Process.pid).Nodup)
    (hmem : pid ∈ procs.map Process.pid)
    (h : sched.pitHandler pid procs fr = .ok (sched', procs', next)) :
    procs' = procs.map (Process.saved pid fr) ∧ (∀ p ∈ next, p ∈ procs') ∧
      (sched.currentProcess < 2 → sched'.currentProcess < 2) := by
  obtain ⟨procs₁, hsave, h⟩ := bind_eq_ok.mp h
  obtain ⟨⟨sched₁, next₁⟩, hnext, h⟩ := bind_eq_ok.mp h
  cases hsave.symm.trans (saveInterrupted_of_mem hpid hnd hmem)
  cases h
  exact ⟨rfl, nextProcess_mem hnext, fun hlt => currentProcess_lt hnext hlt⟩

theorem pitHandler_defined (hpid : pid ≠ 0) (hnd : (procs.map Process.pid).Nodup)
    (hmem : pid ∈ procs.map Process.pid) (hlt : sched.currentProcess < 2) :
    sched.pitHandler pid procs fr ≠ .error .undefined := by
  refine bind_ne_error ?_ fun procs' _ => bind_ne_error (nextProcess_defined hlt) ?_
  · rw [saveInterrupted_of_mem hpid hnd hmem]
    rintro ⟨⟩
  · rintro _ _ ⟨⟩

end Sched

namespace Machine

/-! ### One timer interrupt -/

/-- What is resumed has the registers of the saved state. -/
theorem resumeProcess_cases (h : m.resumeProcess junk st dir = .ok m') :
    m'.core.regs = st.regs ∧ m'.cr3 = dir ∧ m'.kernel = m.kernel ∧ m'.sched = m.sched := by
  obtain ⟨c, hc, h⟩ := bind_eq_ok.mp h
  obtain ⟨c', hc', h⟩ := bind_eq_ok.mp h
  cases h
  have hpush := orHalt_eq_ok.mp hc
  have hstack := Core.pushAll_onStack hpush Core.onStack_nil (by simp)
  -- the loads in between touch neither the stack nor its pointer
  obtain ⟨c₃, hiret, -, hregs⟩ := Core.iretd_onStack
    (hstack.congr (loadSaved st c) rfl rfl)
  cases hiret.symm.trans (orHalt_eq_ok.mp hc')
  refine ⟨?_, rfl, rfl, rfl⟩
  have hesp : st.dword 28 - 12 + 12 = st.esp := BitVec.sub_add_cancel ..
  rw [hregs, loadSaved, (Core.pushAll_eq_some hpush).2]
  simp only [List.length_cons, List.length_nil]
  rw [RegisterState.regs, ← hesp]
  rfl

/-- Into the owner's address space and back again. -/
theorem switchAddressSpace_back (hactive : m.kernel.mmu.activeDirectory = m.cr3) :
    let m₁ := m.switchAddressSpace dir
    ({ m₁ with sched, kernel := { m₁.kernel with processes := procs } } : Machine).switchAddressSpace
      m.kernel.mmu.activeDirectory =
        { m with sched, kernel := { m.kernel with processes := procs } } := by
  intro m₁
  obtain ⟨core, cr3, ⟨⟨dirs, tables, np, nd, active⟩, frames, ps, lp, ap⟩, ticks, sc, od, g⟩ := m
  obtain rfl : active = cr3 := hactive
  by_cases hd : dir = active
  · simp [m₁, switchAddressSpace, Mmu.switchAddressSpace, hd]
  · simp [m₁, switchAddressSpace, Mmu.switchAddressSpace, hd, Ne.symm hd]

/-- The ways `pitHandler` ends, once the frame at `a` is read as `fr`: with nothing changed but what
the scheduler keeps, or in the process the scheduler chose, with its saved registers. -/
theorem pitHandler_cases {a : Word} {hd : Handled}
    (hactive : m.kernel.mmu.activeDirectory = m.cr3)
    (hread : (loadWords m.space m.core.mem a 11).bind RegisterStatePIT.ofDwords = some fr)
    (h : m.pitHandler junk a = .ok hd) :
    ∃ sched procs next, m.sched.pitHandler m.kernel.activeProcessPid m.kernel.processes fr =
      .ok (sched, procs, next) ∧
      ((next = none ∧ ∃ ticks, hd = .returned { m with
          ticks, sched, kernel := { m.kernel with processes := procs } }) ∨
        ∃ p m', next = some p ∧ hd = .resumed m' ∧
          (p.priveledge ≠ .Driver ∧ p.state.eip ≠ 0 ∧ p.state.esp ≠ 0) ∧
          m'.core.regs = p.state.regs ∧ m'.kernel.activeProcessPid = p.pid ∧
          m'.kernel.processes = procs ∧ m'.kernel.mmu.activeDirectory = m'.cr3 ∧ m'.sched = sched) := by
  obtain ⟨fr', hfr, h⟩ := bind_eq_ok.mp h
  cases (orHalt_eq_ok.mp hfr).symm.trans hread
  obtain ⟨⟨sched, procs, next⟩, hsched, h⟩ := bind_eq_ok.mp h
  refine ⟨sched, procs, next, hsched, ?_⟩
  cases next with
  | none =>
      cases h
      refine .inl ⟨rfl, (m.ticks + 1) % 2 ^ 64, ?_⟩
      rw [switchAddressSpace_back hactive]
  | some p =>
      obtain ⟨kernel, hkernel, h⟩ := bind_eq_ok.mp h
      obtain ⟨m', hm', h⟩ := bind_eq_ok.mp h
      cases h
      obtain ⟨hready, rfl⟩ := Kernel.ctxtSwitch_eq_ok_iff.mp hkernel
      obtain ⟨hregs, hcr3, hk, hs⟩ := resumeProcess_cases hm'
      exact .inr ⟨p, m', rfl, rfl, hready, hregs, by rw [hk], by rw [hk], by rw [hk, hcr3], hs⟩

/-- The frame of the interrupted program, as the handler reads it. -/
theorem read_frame {c c₁ c₂ : Core} {pm : PageMap} {cs : BitVec 16} {handler : Word}
    (h₁ : c.enter pm cs handler = some c₁) (h₂ : c₁.pusha pm = some c₂) :
    c₂.OnStack pm ((Core.pushaOrder c₁.regs).reverse ++ c.frame) ∧
      (loadWords pm c₂.mem c₂.regs.esp 11).bind RegisterStatePIT.ofDwords =
        some (frameOf c.regs (c.segs.cs.setWidth 32)) ∧
      c₂.regs.esp = c.regs.esp - 12 - 32 := by
  obtain ⟨hstack, eip, eflags, hregs₁⟩ := Core.enter_onStack h₁
  obtain ⟨hstack, -, hregs₂⟩ := Core.pusha_onStack h₂ hstack (by simp [Core.frame])
  refine ⟨hstack, ?_, by rw [hregs₂, hregs₁]⟩
  rw [hregs₁] at hstack
  have hwords : loadWords pm c₂.mem c₂.regs.esp 11 = some _ := hstack.loadWords
  rw [hwords]
  rfl

/-- What a timer interrupt does. -/
theorem timer_cases (hactive : m.kernel.mmu.activeDirectory = m.cr3)
    (hpid : m.kernel.activeProcessPid ≠ 0) (hnd : (m.kernel.processes.map Process.pid).Nodup)
    (hmem : m.kernel.activeProcessPid ∈ m.kernel.processes.map Process.pid)
    (h : m.timer junk = .ok m') :
    m'.kernel.mmu.activeDirectory = m'.cr3 ∧
      m'.kernel.processes = m.kernel.processes.map (Process.saved m.kernel.activeProcessPid
        (frameOf m.core.regs (m.core.segs.cs.setWidth 32))) ∧
      ((m'.kernel.activeProcessPid = m.kernel.activeProcessPid ∧ m'.core.regs = m.core.regs) ∨
        ∃ p ∈ m'.kernel.processes, m'.kernel.activeProcessPid = p.pid ∧
          m'.core.regs = p.state.regs) ∧
      (m.sched.currentProcess < 2 → m'.sched.currentProcess < 2) := by
  obtain ⟨c₁, hc₁, h⟩ := bind_eq_ok.mp h
  obtain ⟨c₂, hc₂, h⟩ := bind_eq_ok.mp h
  obtain ⟨hd, hhd, h⟩ := bind_eq_ok.mp h
  have henter := orHalt_eq_ok.mp hc₁
  obtain ⟨hstack, hread, hesp⟩ := read_frame henter (orHalt_eq_ok.mp hc₂)
  obtain ⟨sched, procs, next, hsched, hcases⟩ := pitHandler_cases
    (m := { m with core := c₂ }) hactive hread hhd
  obtain ⟨rfl, hnext, hlt⟩ := Sched.pitHandler_cases hpid hnd hmem hsched
  rcases hcases with
    ⟨rfl, ticks, rfl⟩ | ⟨p, m₁, rfl, rfl, -, hregs, hp, hprocs, hdir, hsched'⟩
  · -- the handler has returned: POPA and IRETD take off what was pushed
    obtain ⟨c₄, hc₄, h⟩ := bind_eq_ok.mp h
    obtain ⟨c₅, hc₅, h⟩ := bind_eq_ok.mp h
    cases h
    obtain ⟨c₄', hpopa, hstack₄, -, -, hregs₄⟩ := Core.popa_onStack
      (hstack.congr { c₂ with regs := { junk with esp := c₂.regs.esp } } rfl rfl)
    cases hpopa.symm.trans (orHalt_eq_ok.mp hc₄)
    obtain ⟨c₅', hiret, -, hregs₅⟩ := Core.iretd_onStack hstack₄
    cases hiret.symm.trans (orHalt_eq_ok.mp hc₅)
    obtain ⟨-, eip, eflags, hregs₁⟩ := Core.enter_onStack henter
    have hsp : c₂.regs.esp + 32 + 12 = m.core.regs.esp := by
      rw [hesp, BitVec.sub_add_cancel, BitVec.sub_add_cancel]
    refine ⟨hactive, rfl, .inl ⟨rfl, ?_⟩, hlt⟩
    rw [hregs₅, hregs₄, hregs₁, hsp]
  · cases h
    exact ⟨hdir, hprocs, .inr ⟨p, hprocs ▸ hnext p rfl, hp, hregs⟩, hsched' ▸ hlt⟩

/-! ### Runs -/

/-- The registers of a process at its latest interruption, if it was interrupted. -/
def lastInterruption (es : List Event) (pid : Nat) : Option Regs :=
  es.reverse.findSome? fun
    | .tick interrupted _ => if interrupted.1 = pid then some interrupted.2 else none
    | .exec => none

@[simp] theorem lastInterruption_exec :
    lastInterruption (es ++ [.exec]) pid = lastInterruption es pid := by
  simp [lastInterruption]

@[simp] theorem lastInterruption_tick : lastInterruption (es ++ [.tick i q]) pid =
    if i.1 = pid then some i.2 else lastInterruption es pid := by
  by_cases h : i.1 = pid <;> simp [lastInterruption, h]

/-- The registers a process is to have when it goes on after `es`: those of its latest
interruption, or those `load` stored. -/
def Due (m₀ : Machine) (es : List Event) (pid : Nat) (r : Regs) : Prop :=
  lastInterruption es pid = some r ∨ lastInterruption es pid = none ∧
    ∃ p ∈ m₀.kernel.processes, p.pid = pid ∧ r = (RegisterState.loaded p.entryPoint).regs

/-- The machine once the scheduler has set `getpid`, `procCtxtSwitch` and `procList`: the processes
have distinct pids, one of them is active, and the others are as `load` left them. -/
structure Start (m : Machine) : Prop where
  nodup : (m.kernel.processes.map Process.pid).Nodup
  active : m.kernel.activeProcessPid ∈ m.kernel.processes.map Process.pid
  pid_ne_zero : ∀ p ∈ m.kernel.processes, p.pid ≠ 0
  directory : m.kernel.mmu.activeDirectory = m.cr3
  current : m.sched.currentProcess < 2
  loaded : ∀ p ∈ m.kernel.processes, p.pid ≠ m.kernel.activeProcessPid →
    p.state = RegisterState.loaded p.entryPoint

/-- What every run from `m₀` keeps: a process that is not running has the registers due in its
saved state. -/
structure Inv (m₀ : Machine) (es : List Event) (m : Machine) : Prop where
  pids : m.kernel.processes.map Process.pid = m₀.kernel.processes.map Process.pid
  active : m.kernel.activeProcessPid ∈ m₀.kernel.processes.map Process.pid
  directory : m.kernel.mmu.activeDirectory = m.cr3
  current : m.sched.currentProcess < 2
  saved : ∀ p ∈ m.kernel.processes, p.pid ≠ m.kernel.activeProcessPid →
    Due m₀ es p.pid p.state.regs

theorem Start.inv (hs : Start m₀) : Inv m₀ [] m₀ where
  pids := rfl
  active := hs.active
  directory := hs.directory
  current := hs.current
  saved p hp hne := .inr ⟨rfl, p, hp, rfl, by rw [hs.loaded p hp hne]⟩

theorem Inv.timer_cases (hs : Start m₀) (hi : Inv m₀ es m) (h : m.timer junk = .ok m') :
    m'.kernel.mmu.activeDirectory = m'.cr3 ∧
      m'.kernel.processes = m.kernel.processes.map (Process.saved m.kernel.activeProcessPid
        (frameOf m.core.regs (m.core.segs.cs.setWidth 32))) ∧
      ((m'.kernel.activeProcessPid = m.kernel.activeProcessPid ∧ m'.core.regs = m.core.regs) ∨
        ∃ p ∈ m'.kernel.processes, m'.kernel.activeProcessPid = p.pid ∧
          m'.core.regs = p.state.regs) ∧
      (m.sched.currentProcess < 2 → m'.sched.currentProcess < 2) := by
  obtain ⟨p, hp, hpid⟩ := List.mem_map.mp hi.active
  exact Machine.timer_cases hi.directory (hpid ▸ hs.pid_ne_zero p hp) (hi.pids ▸ hs.nodup)
    (hi.pids ▸ hi.active) h

/-- After an interrupt every saved state has the registers due: the one just saved those of this
interruption, every other one those it had. -/
theorem Inv.saved_tick (hi : Inv m₀ es m) (cs : Word) (q : Nat × Regs) :
    ∀ p ∈ m.kernel.processes.map
      (Process.saved m.kernel.activeProcessPid (frameOf m.core.regs cs)),
      Due m₀ (es ++ [.tick (m.kernel.activeProcessPid, m.core.regs) q]) p.pid p.state.regs := by
  intro p hp
  obtain ⟨p₀, hp₀, rfl⟩ := List.mem_map.mp hp
  rw [Process.pid_saved, Due, lastInterruption_tick]
  by_cases hpid : m.kernel.activeProcessPid = p₀.pid
  · rw [if_pos hpid, hpid, Process.regs_saved]
    exact .inl rfl
  · rw [if_neg hpid, Process.saved_of_ne (Ne.symm hpid)]
    exact hi.saved p₀ hp₀ (Ne.symm hpid)

theorem Inv.step {e : Event} (hs : Start m₀) (hi : Inv m₀ es m) (h : Step m e m') :
    Inv m₀ (es ++ [e]) m' := by
  cases h with
  | exec core mmu frames hmmu =>
      refine ⟨hi.pids, hi.active, hmmu.trans hi.directory, hi.current, fun p hp hne => ?_⟩
      rw [Due, lastInterruption_exec]
      exact hi.saved p hp hne
  | tick junk h =>
      obtain ⟨hdir, hprocs, hnext, hlt⟩ := hi.timer_cases hs h
      have hpids : m'.kernel.processes.map Process.pid = m₀.kernel.processes.map Process.pid := by
        rw [hprocs, map_pid_saved, hi.pids]
      refine ⟨hpids, ?_, hdir, hlt hi.current, fun p hp _ => ?_⟩
      · rcases hnext with ⟨hpid, -⟩ | ⟨p, hp, hpid, -⟩
        · exact hpid ▸ hi.active
        · rw [hpid, ← hpids]
          exact List.mem_map_of_mem hp
      · rw [hprocs] at hp
        exact hi.saved_tick _ _ p hp

theorem Run.inv (hs : Start m₀) (r : Run Step m₀ es m) : Inv m₀ es m :=
  r.invHist hs.inv fun _ hi h => hi.step hs h

theorem orHalt_fault_ne {α : Type} (x : Option α) : orHalt .fault x ≠ .error .undefined := by
  cases x <;> rintro ⟨⟩

/-- No timer interrupt of a run reads what is not there. -/
theorem timer_defined (hs : Start m₀) (r : Run Step m₀ es m) :
    m.timer junk ≠ .error .undefined := by
  have hi := Run.inv hs r
  obtain ⟨p, hp, hpid⟩ := List.mem_map.mp hi.active
  have hsched : ∀ fr, m.sched.pitHandler m.kernel.activeProcessPid m.kernel.processes fr ≠
      .error .undefined := fun fr =>
    Sched.pitHandler_defined (hpid ▸ hs.pid_ne_zero p hp) (hi.pids ▸ hs.nodup)
      (hi.pids ▸ hi.active) hi.current
  have hresume : ∀ (m : Machine) st dir, m.resumeProcess junk st dir ≠ .error .undefined :=
    fun m st dir => bind_ne_error (orHalt_fault_ne _) fun _ _ =>
      bind_ne_error (orHalt_fault_ne _) (by rintro _ _ ⟨⟩)
  refine bind_ne_error (orHalt_fault_ne _) fun c₁ _ => bind_ne_error (orHalt_fault_ne _) fun c₂ _ =>
    bind_ne_error (bind_ne_error (orHalt_fault_ne _) fun fr _ =>
      bind_ne_error (hsched fr) ?_) ?_
  · rintro ⟨sched, procs, next⟩ -
    cases next with
    | none => rintro ⟨⟩
    | some p =>
        refine bind_ne_error ?_ fun k _ => bind_ne_error (hresume _ _ _) (by rintro _ _ ⟨⟩)
        rw [Kernel.ctxtSwitch]
        split
        · rintro ⟨⟩
        · split <;> rintro ⟨⟩
  · rintro (m₁ | m₁) -
    · exact bind_ne_error (orHalt_fault_ne _) fun _ _ =>
        bind_ne_error (orHalt_fault_ne _) (by rintro _ _ ⟨⟩)
    · rintro ⟨⟩

/-- Context switching loses no register. -/
theorem resumed_as_interrupted (hs : Start m₀) (r : Run Step m₀ es m)
    (h : Step m (.tick i q) m') :
    Due m₀ (es ++ [.tick i q]) q.1 q.2 ∧
      ∀ (k : Nat) (p : Process), m.kernel.processes[k]? = some p → p.pid ≠ i.1 →
        m'.kernel.processes[k]? = some p := by
  have hi := Run.inv hs r
  cases h with
  | tick junk h =>
      obtain ⟨-, hprocs, hnext, -⟩ := hi.timer_cases hs h
      constructor
      · rcases hnext with ⟨hpid, hregs⟩ | ⟨p, hp, hpid, hregs⟩
        · rw [Due, lastInterruption_tick, if_pos hpid.symm]
          exact .inl (congrArg some hregs.symm)
        · rw [hprocs] at hp
          have hdue := hi.saved_tick (m.core.segs.cs.setWidth 32)
            (m'.kernel.activeProcessPid, m'.core.regs) p hp
          rwa [← hpid, ← hregs] at hdue
      · intro k p hk hne
        rw [hprocs, List.getElem?_map, hk, Option.map_some, Process.saved_of_ne hne]

/-- Two processes with a stack page each, the first one running, one tick before a switch. -/
def twoProcesses : Machine where
  core :=
    { regs := ⟨1, 2, 3, 4, 5, 6, 7, 0xBFFEFF00, 0x08049000, 0x246⟩
      segs := ⟨0x08, 0x10, 0x10, 0x10, 0x10⟩
      mem := fun _ => 0 }
  cr3 := .process 0
  kernel :=
    { mmu :=
        { dirs := fun d s => match d, s with
            | .process 0, 767 => some (.pool 0)
            | .process 1, 767 => some (.pool 1)
            | _, _ => none
          tables := fun t k => match t, k with
            | .pool 0, 1007 => some ⟨100, 3⟩
            | .pool 1, 1007 => some ⟨101, 3⟩
            | _, _ => none
          nextPageTable := 2
          nextDirectory := 2
          activeDirectory := .process 0 }
      frames := ⟨fun _ => true, 32768⟩
      processes := [⟨1, .Kernel, [], [], .loaded 0x08048000, 0x08048000, .process 0, 0x50000000⟩,
        ⟨2, .User, [], [], .loaded 0x0804A000, 0x0804A000, .process 1, 0x50000000⟩]
      latestPid := 3
      activeProcessPid := 1 }
  ticks := 0
  sched := ⟨49, 0⟩
  ownerDir := .process 0
  gate := 0x00101000

theorem resumed_as_interrupted_second : ∃ m',
    Step twoProcesses (.tick (1, twoProcesses.core.regs) (2, (RegisterState.loaded 0x0804A000).regs))
      m' ∧
    Due twoProcesses ([] ++ [.tick (1, twoProcesses.core.regs)
      (2, (RegisterState.loaded 0x0804A000).regs)]) 2 (RegisterState.loaded 0x0804A000).regs ∧
    ∀ (k : Nat) (p : Process), twoProcesses.kernel.processes[k]? = some p → p.pid ≠ 1 →
      m'.kernel.processes[k]? = some p := by
  have hrun : (twoProcesses.timer twoProcesses.core.regs).map
      (fun m => (m.kernel.activeProcessPid, m.core.regs)) =
        .ok (2, (RegisterState.loaded 0x0804A000).regs) := by decide +kernel
  obtain ⟨m', h, hq⟩ := map_eq_ok.mp hrun
  have hstep := hq ▸ Step.tick twoProcesses.core.regs h
  have hstart : Start twoProcesses := by
    refine ⟨by decide, by decide, by simp [twoProcesses], rfl, by decide, ?_⟩
    simp [twoProcesses]
  exact ⟨m', hstep, resumed_as_interrupted hstart .nil hstep⟩

end Machine

end RivOS
