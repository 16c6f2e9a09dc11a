import RivOS.Proc.Mmap

/-!
# Proc — The stack of a process

`Process::run` up to the jump to the entry point.  The stack is declared to go from `STACK_END` to
below `STACK_BEGIN`; the loop counts down from the page at `STACK_BEGIN` itself.

* `mapStack_ok`: with frames and a table the loop comes to its end, and has mapped what it went over.
* `run_stack`: it ends a page short of `STACK_END`, so that after every run of calls a process starts
  without the lowest page of its stack.
-/

namespace RivOS

open Kernel (Call stackAddrs mapStackPage)
open Mmu (stackPde)

variable {i pg : Nat} {l l' : Mapping} {virt : Word} {vs : List Word} {b : BootStack}
  {k k' : Kernel} {s : System} {p : Process} {dir : Dir} {pages : Nat → Prop}

/-! ### The loop -/

/-- The page of `STACK_END`. -/
def stackEndPage : Nat := (stackBegin.toNat - stackSize) / 4096

theorem pages_stackAddrs :
    stackAddrs.map (fun v => v.toNat / 4096) = (List.range' (stackEndPage + 1) 16).reverse := by
  decide

/-- The pages that the loop goes over. -/
theorem mem_stackAddrs_iff : (∃ v ∈ stackAddrs, v.toNat / 4096 = pg) ↔
    stackEndPage < pg ∧ pg ≤ stackBegin.toNat / 4096 := by
  have hbegin : stackBegin.toNat / 4096 = stackEndPage + 16 := by decide
  rw [← List.mem_map (f := fun v : Word => v.toNat / 4096), pages_stackAddrs, List.mem_reverse,
    List.mem_range'_1, hbegin]
  omega

theorem directoryIndex_of_mem (h : virt ∈ stackAddrs) : Mmu.directoryIndex virt = stackPde := by
  have hpages := mem_stackAddrs_iff.mp ⟨virt, h, rfl⟩
  have hend : stackEndPage = 0xBFFE0 := by decide
  have hbegin : stackBegin.toNat / 4096 = 0xBFFF0 := by decide
  have hpde : stackPde = 767 := by decide
  rw [Mmu.directoryIndex_eq]
  omega

/-- One page more. -/
theorem mapStackPage_ok {l₀ : Mapping} {need : Nat} (hr : Ready i [stackPde] (need + 1) l)
    (hv : Served i l₀ vs l) (hvirt : virt ∈ stackAddrs) :
    ∃ l', mapStackPage (.process i) l virt = .ok l' ∧ Ready i [stackPde] need l' ∧
      Served i l₀ (vs ++ [virt]) l' := by
  have hslot : Mmu.directoryIndex virt ∈ [stackPde] :=
    List.mem_singleton.mpr (directoryIndex_of_mem hvirt)
  obtain ⟨hne, mmu, hmap, hready⟩ :=
    hr.mapPageIn hslot (l.pages ++ [⟨l.frames.allocFrame.1, virt⟩])
  have henter : mapStackPage (.process i) l virt = .ok _ := bind_eq_ok.mpr ⟨mmu, hmap, rfl⟩
  exact ⟨_, henter, hready, hv.concat hr.shaped hne henter⟩

theorem mapStack_ok (hr : Ready i [stackPde] stackAddrs.length l) :
    ∃ l', stackAddrs.foldlM (mapStackPage (.process i)) l = .ok l' ∧ Served i l stackAddrs l' := by
  obtain ⟨l', hloop, -, vs, hvs, hserved⟩ := foldlM_ok
    (f := mapStackPage (.process i))
    (P := fun rest l' => Ready i [stackPde] rest.length l' ∧
      ∃ vs, vs ++ rest = stackAddrs ∧ Served i l vs l')
    (l := stackAddrs) (s := l)
    (by
      rintro virt rest l₁ ⟨hready, vs, hvs, hserved⟩
      have hvirt : virt ∈ stackAddrs := by
        rw [← hvs]
        simp
      obtain ⟨l₂, hstep, hready, hserved⟩ := mapStackPage_ok hready hserved hvirt
      exact ⟨l₂, hstep, hready, vs ++ [virt], by rw [← hvs]; simp, hserved⟩)
    ⟨hr, [], rfl, .nil i l⟩
  rw [List.append_nil] at hvs
  exact ⟨l', hloop, hvs ▸ hserved⟩

/-! ### `Process::run` -/

/-- From `k` to `k'` these pages of the directory have become present and writable, on frames that
were free, each its own. -/
structure Kernel.Owned (k k' : Kernel) (dir : Dir) (pages : Nat → Prop) : Prop where
  backed : ∀ pg, pages pg → ∃ e, k'.mmu.pte dir pg = some e ∧
    e.flags &&& 3 = Mmu.flagsPresent ||| Mmu.flagsWritable ∧ k.frames.isUsed e.frame = false
  distinct : ∀ pg pg' e e', pages pg → pages pg' → k'.mmu.pte dir pg = some e →
    k'.mmu.pte dir pg' = some e' → e.frame = e'.frame → pg = pg'

/-- What a loop has mapped. -/
theorem Served.owned (hv : Served i l vs l') (hk : k.frames = l.frames)
    (hk' : k'.mmu.pte = l'.mmu.pte) :
    k.Owned k' (.process i) fun pg => ∃ v ∈ vs, v.toNat / 4096 = pg := by
  constructor
  · rintro _ ⟨v, hmem, rfl⟩
    obtain ⟨f, hf, hfree⟩ := hv.backed hmem
    have hflags : 3 &&& 3 = Mmu.flagsPresent ||| Mmu.flagsWritable := by decide
    exact ⟨_, hk' ▸ hf, hflags, hk ▸ hfree⟩
  · rintro _ _ e e' ⟨v, hmem, rfl⟩ ⟨w, hmem', rfl⟩ he he' heq
    rw [hk'] at he he'
    exact hv.distinct hmem hmem' he he' heq

/-- A process that is run has the pages that the loop went over, and no other in the stack's slot. -/
theorem Settled.run_ok (hk : Settled k) (hp : k.processes[i]? = some p)
    (hframes : stackAddrs.length ≤ k.frames.freeFrames) (htables : k.mmu.nextPageTable < 16) :
    ∃ k', k.run i = .ok k' ∧
      k.Owned k' p.pageDirectory (fun pg => stackEndPage < pg ∧ pg ≤ stackBegin.toNat / 4096) ∧
      k'.mmu.pte p.pageDirectory stackEndPage = none := by
  have hlt := hk.lt hp
  rw [hk.directory i p hp]
  -- the slot lacks its table, and one is left
  have hmissing : (k.mmu.setDir (.process i) stackPde none).missing (.process i) [stackPde] ≤ 1 :=
    List.countP_le_length
  have hready : Ready i [stackPde] stackAddrs.length
      ⟨k.mmu.setDir (.process i) stackPde none, k.frames, p.stackPages⟩ :=
    ⟨hk.shaped.clearStack hlt, hlt, hk.null, hframes,
      Nat.le_trans (Nat.add_le_add_left hmissing _) htables⟩
  obtain ⟨l, hloop, hserved⟩ := mapStack_ok hready
  refine ⟨_, bind_eq_ok.mpr ⟨p, ?_, bind_eq_ok.mpr ⟨l, ?_, rfl⟩⟩, ?_, ?_⟩
  · rw [hp]
    rfl
  · rw [hk.directory i p hp]
    exact hloop
  · simp only [← mem_stackAddrs_iff]
    exact hserved.owned rfl rfl
  · -- the loop has not gone over it, and the slot was emptied before
    have hslot : stackEndPage / 1024 = stackPde := by decide
    have hnot : ∀ v ∈ stackAddrs, v.toNat / 4096 ≠ stackEndPage :=
      fun v hv heq => Nat.lt_irrefl _ (mem_stackAddrs_iff.mp ⟨v, hv, heq⟩).1
    refine (hserved.others stackEndPage hnot).trans ?_
    rw [Mmu.pte, Mmu.dirs_setDir, if_pos ⟨rfl, hslot⟩]
    rfl

theorem not_owned_of_lowest (hlowest : k'.mmu.pte dir stackEndPage = none) :
    ¬ k.Owned k' dir stackPage := by
  intro howned
  obtain ⟨e, he, -⟩ := howned.backed stackEndPage ⟨Nat.le_refl _, by decide⟩
  cases hlowest.symm.trans he

namespace System

/-- After every run of calls, with frames and a table enough, `Process::run` leaves the lowest page
of the stack out: it has mapped the others, and the page at `STACK_BEGIN`. -/
theorem run_stack {cs : List Call} (hb : k.Booted) (r : Run (Step b) ⟨k, []⟩ cs s)
    (hp : s.kernel.processes[i]? = some p)
    (hframes : stackAddrs.length ≤ s.kernel.frames.freeFrames)
    (htables : s.kernel.mmu.nextPageTable < 16) :
    ∃ k', s.kernel.run i = .ok k' ∧ ¬ s.kernel.Owned k' p.pageDirectory stackPage ∧
      s.kernel.Owned k' p.pageDirectory
        (fun pg => stackEndPage < pg ∧ pg ≤ stackBegin.toNat / 4096) ∧
      k'.mmu.pte p.pageDirectory stackEndPage = none := by
  obtain ⟨k', hrun, howned, hlowest⟩ := (settled hb r).run_ok hp hframes htables
  exact ⟨k', hrun, not_owned_of_lowest hlowest, howned, hlowest⟩

/-- A process, loaded and not yet run. -/
def oneLoaded : List Call := [.load (bareFile[·]?) .Kernel fun _ => 0]

theorem exists_oneLoaded : ∃ s, ∃ p : Process,
    Run (Step bootStack) ⟨freshKernel 16 64, []⟩ oneLoaded s ∧
      s.kernel.processes[0]? = some p ∧ stackAddrs.length ≤ s.kernel.frames.freeFrames ∧
        s.kernel.mmu.nextPageTable < 16 := by
  have hrun : (oneLoaded.foldlM (checked bootStack fun _ _ => true) ⟨freshKernel 16 64, []⟩).map
      (fun s => decide (s.kernel.processes.length = 1 ∧
        stackAddrs.length ≤ s.kernel.frames.freeFrames ∧ s.kernel.mmu.nextPageTable < 16)) =
      .ok true := by decide +kernel
  obtain ⟨s, hs, hobs⟩ := map_eq_ok.mp hrun
  obtain ⟨hlength, hframes, htables⟩ := of_decide_eq_true hobs
  have hlt : 0 < s.kernel.processes.length := by rw [hlength]; decide
  exact ⟨s, _, (run_of_foldlM hs).mono fun h => h.2, List.getElem?_eq_getElem hlt, hframes, htables⟩

theorem run_stack_loaded : ∃ s k', ∃ p : Process,
    Run (Step bootStack) ⟨freshKernel 16 64, []⟩ oneLoaded s ∧
      s.kernel.processes[0]? = some p ∧ s.kernel.run 0 = .ok k' ∧
        k'.mmu.pte p.pageDirectory stackEndPage = none := by
  obtain ⟨s, p, r, hp, hframes, htables⟩ := exists_oneLoaded
  obtain ⟨k', hrun, -, -, hlowest⟩ :=
    run_stack (booted_freshKernel (by decide)) r hp hframes htables
  exact ⟨s, k', p, r, hp, hrun, hlowest⟩

/-- The first process that the kernel loads and runs does not own its stack. -/
theorem run_leaves_lowest : ∃ s, ∃ p : Process,
    Run (Step bootStack) ⟨freshKernel 16 64, []⟩ oneLoaded s ∧
      s.kernel.processes[0]? = some p ∧ stackAddrs.length ≤ s.kernel.frames.freeFrames ∧
        s.kernel.mmu.nextPageTable < 16 ∧
          ¬ ∃ k', s.kernel.run 0 = .ok k' ∧ s.kernel.Owned k' p.pageDirectory stackPage := by
  obtain ⟨s, p, r, hp, hframes, htables⟩ := exists_oneLoaded
  refine ⟨s, p, r, hp, hframes, htables, ?_⟩
  rintro ⟨k', hrun, howned⟩
  obtain ⟨k'', hrun', -, hlowest⟩ :=
    (settled (booted_freshKernel (by decide)) r).run_ok hp hframes htables
  cases hrun.symm.trans hrun'
  exact not_owned_of_lowest hlowest howned

end System

end RivOS
