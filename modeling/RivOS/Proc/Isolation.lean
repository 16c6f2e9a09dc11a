import RivOS.Proc.System

/-!
# Proc — What processes share

* `Grows`: what mapping pages for one process does to the directories of all of them.
* `Inv`: what every run of calls keeps that starts no process on a stack table in use and leaves no
  stack without frames (`Allowed`); one lemma for each call.
* `isolated`: in every such run, started processes share no frame of their segments, heaps and
  stacks.
* `isolated_fails`: a process that is loaded by a running one and then switched to runs on the
  stack of its loader.
-/

namespace RivOS

open Kernel (Call)
open Mmu (stackPde)

variable {mm mm' mm₁ mm₂ : Mmu} {pfa pfa' : PhysicalFrameAllocator} {i j n : Nat} {dir d : Dir}
  {virt : Word} {virts : List Word} {l l' l₀ : Mapping} {b : BootStack} {file : PMem}
  {k k' : Kernel} {s s' : System} {p q : Process} {mem mem' : Mem}

/-! ### Mapping pages for one process -/

/-- From `mm` to `mm'` only the `i`-th directory has got new tables, and no other directory has
them. -/
structure Grows (i : Nat) (mm mm' : Mmu) : Prop where
  others : ∀ d, d ≠ .process i → mm'.dirs d = mm.dirs d
  own : ∀ s t, mm'.dirs (.process i) s = some t → mm.dirs (.process i) s = some t ∨
    ∀ d s', d ≠ .process i → mm'.dirs d s' ≠ some t
  nextDirectory : mm'.nextDirectory = mm.nextDirectory

theorem Grows.refl (i : Nat) (mm : Mmu) : Grows i mm mm :=
  ⟨fun _ _ => rfl, fun _ _ h => .inl h, rfl⟩

theorem Grows.trans (h₁ : Grows i mm mm₁) (h₂ : Grows i mm₁ mm₂) : Grows i mm mm₂ where
  others d hd := (h₂.others d hd).trans (h₁.others d hd)
  own s t ht := by
    rcases h₂.own s t ht with ht₁ | hnew
    · rcases h₁.own s t ht₁ with ht₀ | hnew
      · exact .inl ht₀
      · refine .inr fun d s' hd => ?_
        rw [h₂.others d hd]
        exact hnew d s' hd
    · exact .inr hnew
  nextDirectory := h₂.nextDirectory.trans h₁.nextDirectory

/-- `mapPageIn` puts at most one new table into its directory, from the pool. -/
theorem grows_mapPageIn {phys flgs : Nat} (h : mm.Shaped)
    (hm : mm.mapPageIn (.process i) phys virt flgs = .ok mm') : Grows i mm mm' := by
  obtain ⟨t, mm₁, hp, rfl⟩ := Mmu.mapPageIn_eq_ok.mp hm
  rcases Mmu.pageTable_cases hp with ⟨-, rfl⟩ | ⟨-, hn⟩
  · exact ⟨fun _ _ => rfl, fun _ _ h => .inl h, rfl⟩
  · obtain ⟨-, rfl, rfl⟩ := Mmu.newPageTable_eq_ok.mp hn
    have hdirs : ∀ d s, d ≠ .process i → (Mmu.setDir { mm with
        nextPageTable := mm.nextPageTable + 1
        tables := Function.update mm.tables (.pool mm.nextPageTable) fun _ => none }
          (.process i) (Mmu.directoryIndex virt) (some (.pool mm.nextPageTable))).dirs d s =
        mm.dirs d s := by
      intro d s hd
      rw [Mmu.dirs_setDir, if_neg fun hc => hd hc.1]
    refine ⟨fun d hd => funext fun s => hdirs d s hd, fun s t ht => ?_, rfl⟩
    rw [Mmu.dirs_setPte, Mmu.dirs_setDir] at ht
    split at ht
    · cases ht
      refine .inr fun d s' hd hs' => ?_
      rw [Mmu.dirs_setPte, hdirs d s' hd] at hs'
      exact absurd (h.pool hs') (Nat.lt_irrefl _)
    · exact .inl ht

/-- Page tables and frames are in order. -/
def InOrder (mm : Mmu) (pfa : PhysicalFrameAllocator) : Prop :=
  mm.Sound pfa ∧ pfa.isUsed 0 = true

/-- One page on a fresh frame. -/
theorem InOrder.mapFresh {flgs : Nat} (h : InOrder mm pfa) (hi : i < mm.nextDirectory)
    (hne : pfa.allocFrame.1 ≠ 0)
    (hm : mm.mapPageIn (.process i) pfa.allocFrame.1 virt flgs = .ok mm') :
    InOrder mm' pfa.allocFrame.2 ∧ Grows i mm mm' :=
  ⟨⟨h.1.mapFresh hi hne hm, PhysicalFrameAllocator.isUsed_allocFrame h.2⟩,
    grows_mapPageIn h.1.toShaped hm⟩

/-- What a loop that maps pages for the `i`-th process keeps. -/
def Keeps (i : Nat) (mm : Mmu) (l : Mapping) : Prop :=
  InOrder l.mmu l.frames ∧ Grows i mm l.mmu

theorem Keeps.enter (h : Keeps i mm l) (hi : i < mm.nextDirectory)
    (hne : l.frames.allocFrame.1 ≠ 0)
    (he : l.enter (.process i) virt l.frames.allocFrame = .ok l') : Keeps i mm l' := by
  obtain ⟨mmu, hm, hl⟩ := bind_eq_ok.mp he
  cases hl
  have hi' : i < l.mmu.nextDirectory := h.2.nextDirectory ▸ hi
  obtain ⟨horder, hgrows⟩ := h.1.mapFresh hi' hne hm
  exact ⟨horder, h.2.trans hgrows⟩

theorem Keeps.mapSegment {ph : ProgramHeader} (h : Keeps i mm l) (hi : i < mm.nextDirectory)
    (hm : ElfExecutable.mapSegment (.process i) ph l = .ok l') : Keeps i mm l' := by
  refine foldlM_inv (P := fun _ l => Keeps i mm l) (fun {virt _ l l'} hl hstep => ?_) h hm
  rw [ElfExecutable.mapPage] at hstep
  split at hstep
  · cases hstep
  · rename_i hne
    exact hl.enter hi hne hstep

theorem Keeps.loadHeaders {hdr : ElfHeader32} {is : List Nat} (h : Keeps i mm l)
    (hi : i < mm.nextDirectory)
    (hm : is.foldlM (ElfExecutable.loadHeader file (.process i) hdr) (l, mem) = .ok (l', mem')) :
    Keeps i mm l' := by
  refine foldlM_inv (P := fun _ (s : Mapping × Mem) => Keeps i mm s.1)
    (fun {_ _ s s'} hs hstep => ?_) h hm
  rcases ElfExecutable.loadHeader_cases hstep with rfl | ⟨ph, -, hload⟩
  · exact hs
  · exact hs.mapSegment hi (ElfExecutable.loadSegment_cases hload).1

theorem Keeps.mapHeap {r : Bool × Mmu × PhysicalFrameAllocator}
    (h : InOrder mm₁ pfa ∧ Grows i mm mm₁) (hi : i < mm.nextDirectory)
    (hm : Kernel.mapHeap (.process i) mm₁ pfa virts = .ok r) :
    InOrder r.2.1 r.2.2 ∧ Grows i mm r.2.1 := by
  induction virts generalizing mm₁ pfa with
  | nil =>
      cases hm
      exact h
  | cons virt rest ih =>
      rw [Kernel.mapHeap] at hm
      split at hm
      · rename_i hnull
        cases hm
        rw [(PhysicalFrameAllocator.allocFrame_null h.1.2 hnull).1]
        exact h
      · rename_i hne
        obtain ⟨mm₂, hmap, hm⟩ := bind_eq_ok.mp hm
        obtain ⟨horder, hgrows⟩ := h.1.mapFresh (h.2.nextDirectory ▸ hi) hne hmap
        exact ih ⟨horder, h.2.trans hgrows⟩ hm

/-! ### Runs -/

/-- Segments, heap and stack of a process, page by page. -/
def Process.OwnsElf (p : Process) (pg : Nat) : Prop := ∃ a ∈ p.pages, a.virt.toNat / 4096 = pg

def Process.OwnsHeap (p : Process) (pg : Nat) : Prop :=
  0x50000000 / 4096 ≤ pg ∧ pg < p.heapBrk.toNat / 4096

def stackPage (pg : Nat) : Prop :=
  (stackBegin.toNat - stackSize) / 4096 ≤ pg ∧ pg < stackBegin.toNat / 4096

def Process.Owns (p : Process) (pg : Nat) : Prop := p.OwnsElf pg ∨ p.OwnsHeap pg ∨ stackPage pg

/-- Segments and heap are in slots that the kernel's directory does not have. -/
def Process.Placed (p : Process) (mm : Mmu) : Prop :=
  ∀ pg, p.OwnsElf pg ∨ p.OwnsHeap pg → mm.dirs .kernel (pg / 1024) = none

namespace System

/-- No frame of a started process is another's. -/
def Isolated (s : System) : Prop :=
  ∀ i ∈ s.started, ∀ j ∈ s.started, i ≠ j → ∀ p q, s.kernel.processes[i]? = some p →
    s.kernel.processes[j]? = some q → p.Placed s.kernel.mmu → q.Placed s.kernel.mmu →
    ∀ pg pg' f, p.Owns pg → q.Owns pg' → s.kernel.mmu.pageMap p.pageDirectory pg = some f →
      s.kernel.mmu.pageMap q.pageDirectory pg' ≠ some f

/-- The stack table of the `i`-th process is neither the kernel's nor another started process's. -/
def OwnStack (s : System) (i : Nat) : Prop :=
  ∀ p t, s.kernel.processes[i]? = some p → s.kernel.mmu.dirs p.pageDirectory stackPde = some t →
    s.kernel.mmu.Users t ∧ ∀ j ∈ s.started, j ≠ i → ∀ q, s.kernel.processes[j]? = some q →
      s.kernel.mmu.dirs q.pageDirectory stackPde ≠ some t

/-- A process is switched to only on a stack table of its own, and run only while there are frames
for its stack. -/
def Allowed (s : System) : Call → Prop
  | .run _ => Kernel.stackAddrs.length ≤ s.kernel.frames.freeFrames
  | .ctxtSwitch i => s.OwnStack i
  | _ => True

structure Inv (s : System) : Prop where
  order : InOrder s.kernel.mmu s.kernel.frames
  length : s.kernel.processes.length = s.kernel.mmu.nextDirectory
  directory : ∀ (i : Nat) (p : Process), s.kernel.processes[i]? = some p → p.pageDirectory = .process i
  started : ∀ i ∈ s.started, i < s.kernel.processes.length
  stack : ∀ i ∈ s.started, s.OwnStack i

/-- No two processes of an ordered kernel have a frame in common, the tables of the stack slot
apart. -/
theorem Inv.apart (hi : Inv s) : s.Isolated := by
  intro i his j hjs hij p q hp hq hpl hql pg pg' f hpg hpg' hpf hqf
  obtain ⟨t, ht, hte⟩ := Option.bind_eq_some_iff.mp hpf
  obtain ⟨e, he, rfl⟩ := Option.map_eq_some_iff.mp hte
  obtain ⟨t', ht', hte'⟩ := Option.bind_eq_some_iff.mp hqf
  obtain ⟨e', he', hee⟩ := Option.map_eq_some_iff.mp hte'
  have hstackSlot : ∀ {pg}, stackPage pg → pg / 1024 = stackPde := by
    rintro pg ⟨h₁, h₂⟩
    have hpde : stackPde = 767 := by decide
    have hbegin : stackBegin.toNat = 0xBFFF0000 := by decide
    rw [hbegin] at h₁ h₂
    rw [stackSize] at h₁
    omega
  -- the table of a page that a process owns is not the kernel's
  have husers : ∀ {i p pg t}, i ∈ s.started → s.kernel.processes[i]? = some p →
      p.Placed s.kernel.mmu → p.Owns pg → s.kernel.mmu.dirs p.pageDirectory (pg / 1024) = some t →
      s.kernel.mmu.Users t := by
    rintro i p pg t his hp hpl (helf | hheap | hstack) ht
    · exact hi.order.1.users (hpl pg (.inl helf)) ht
    · exact hi.order.1.users (hpl pg (.inr hheap)) ht
    · rw [hstackSlot hstack] at ht
      exact (hi.stack i his p t hp ht).1
  obtain ⟨rfl, hk⟩ := hi.order.1.frames (husers his hp hpl hpg ht) (husers hjs hq hql hpg' ht')
    he he' hee.symm
  have hslot := hi.order.1.slot ht ht'
  by_cases hstack : pg / 1024 = stackPde
  · rw [← hslot, hstack] at ht'
    rw [hstack] at ht
    exact (hi.stack i his p t hp ht).2 j hjs hij.symm q hq ht'
  · -- outside the stack slot a table is in one directory
    have hkernel : s.kernel.mmu.dirs .kernel (pg / 1024) = none := by
      rcases hpg with helf | hheap | hst
      · exact hpl pg (.inl helf)
      · exact hpl pg (.inr hheap)
      · exact absurd (hstackSlot hst) hstack
    rw [← hslot] at ht'
    have hdir := hi.order.1.owner hkernel hstack ht ht'
    rw [hi.directory i p hp, hi.directory j q hq] at hdir
    cases hdir
    exact hij rfl

/-! ### One call -/

/-- The invariant passes over what `Grows` allows, if the processes keep their directories. -/
theorem Inv.grows (hi : Inv s) (hk : InOrder k'.mmu k'.frames)
    (hg : Grows n s.kernel.mmu k'.mmu)
    (hlen : k'.processes.length = s.kernel.processes.length)
    (hprocs : ∀ (j : Nat) (q : Process), k'.processes[j]? = some q →
      ∃ q₀, s.kernel.processes[j]? = some q₀ ∧ q.pageDirectory = q₀.pageDirectory) :
    Inv { s with kernel := k' } := by
  have hdir : ∀ (j : Nat) (q : Process), k'.processes[j]? = some q →
      q.pageDirectory = .process j := by
    intro j q hq
    obtain ⟨q₀, hq₀, hdir⟩ := hprocs j q hq
    exact hdir.trans (hi.directory j q₀ hq₀)
  have hne : ∀ {j j' : Nat}, j ≠ j' → Dir.process j ≠ .process j' :=
    fun h heq => h (by cases heq; rfl)
  have hkernel : k'.mmu.dirs .kernel = s.kernel.mmu.dirs .kernel := hg.others _ (by rintro ⟨⟩)
  have husers : ∀ {t}, s.kernel.mmu.Users t → k'.mmu.Users t := by
    intro t hu
    rwa [Mmu.Users, hkernel]
  refine ⟨hk, hlen.trans (hi.length.trans hg.nextDirectory.symm), hdir,
    fun i his => hlen ▸ hi.started i his, fun i his p t hp ht => ?_⟩
  obtain ⟨p₀, hp₀, -⟩ := hprocs i p hp
  have hold : s.kernel.mmu.dirs (.process i) stackPde = some t → s.kernel.mmu.Users t ∧
      ∀ j ∈ s.started, j ≠ i → ∀ q, s.kernel.processes[j]? = some q →
        s.kernel.mmu.dirs (.process j) stackPde ≠ some t := by
    intro ht
    rw [← hi.directory i p₀ hp₀] at ht
    obtain ⟨hu, hothers⟩ := hi.stack i his p₀ t hp₀ ht
    exact ⟨hu, fun j hj hji q hq => hi.directory j q hq ▸ hothers j hj hji q hq⟩
  rw [hdir i p hp] at ht
  by_cases hn : i = n
  · subst hn
    rcases hg.own _ _ ht with ht₀ | hnew
    · -- an old table of the directory that grows
      obtain ⟨hu, hothers⟩ := hold ht₀
      refine ⟨husers hu, fun j hj hji q hq => ?_⟩
      obtain ⟨q₀, hq₀, -⟩ := hprocs j q hq
      rw [hdir j q hq, hg.others _ (hne hji)]
      exact hothers j hj hji q₀ hq₀
    · -- a new one
      refine ⟨fun s'' => hnew _ _ (by rintro ⟨⟩), fun j hj hji q hq => ?_⟩
      rw [hdir j q hq]
      exact hnew _ _ (hne hji)
  · rw [hg.others _ (hne hn)] at ht
    obtain ⟨hu, hothers⟩ := hold ht
    refine ⟨husers hu, fun j hj hji q hq hqt => ?_⟩
    obtain ⟨q₀, hq₀, -⟩ := hprocs j q hq
    rw [hdir j q hq] at hqt
    by_cases hjn : j = n
    · subst hjn
      rcases hg.own _ _ hqt with hqt₀ | hnew
      · exact hothers j hj hji q₀ hq₀ hqt₀
      · refine hnew _ stackPde (hne (Ne.symm hji)) ?_
        rw [hg.others _ (hne (Ne.symm hji)), ht]
    · rw [hg.others _ (hne hjn)] at hqt
      exact hothers j hj hji q₀ hq₀ hqt

/-- A new process, whatever its stack slot has, is not yet started. -/
theorem Inv.create (hi : Inv s) (hc : Mmu.Created s.kernel.mmu mm')
    (hp : p.pageDirectory = .process s.kernel.mmu.nextDirectory) :
    Inv { s with kernel := { s.kernel with
      mmu := mm', processes := s.kernel.processes ++ [p] } } := by
  have hget : ∀ {j : Nat} {q : Process}, (s.kernel.processes ++ [p])[j]? = some q →
      s.kernel.processes[j]? = some q ∨ j = s.kernel.processes.length ∧ q = p := by
    intro j q hq
    rcases Nat.lt_or_ge j s.kernel.processes.length with hlt | hge
    · rw [List.getElem?_append_left hlt] at hq
      exact .inl hq
    · rw [List.getElem?_append_right hge] at hq
      obtain ⟨hj, rfl⟩ := List.getElem?_eq_some_iff.mp hq
      rw [List.length_singleton] at hj
      exact .inr ⟨by omega, by simp⟩
  -- the new directory belongs to no process yet, so the others' tables are where they were
  have hdirs : ∀ {j : Nat} {q : Process}, s.kernel.processes[j]? = some q →
      mm'.dirs q.pageDirectory = s.kernel.mmu.dirs q.pageDirectory := by
    intro j q hq
    have hne : q.pageDirectory ≠ .process s.kernel.mmu.nextDirectory := by
      rw [hi.directory j q hq]
      rintro ⟨⟩
      exact absurd (List.getElem?_eq_some_iff.mp hq).1 (hi.length ▸ Nat.lt_irrefl _)
    funext s'
    rw [hc.dirs, if_neg hne]
  have hkernel : mm'.dirs .kernel = s.kernel.mmu.dirs .kernel := by
    funext s'
    rw [hc.dirs, if_neg (by rintro ⟨⟩)]
  have hold : ∀ {j : Nat} {q : Process}, j ∈ s.started →
      (s.kernel.processes ++ [p])[j]? = some q → s.kernel.processes[j]? = some q := by
    intro j q hj hq
    rcases hget hq with hq | ⟨rfl, -⟩
    · exact hq
    · exact absurd (hi.started _ hj) (Nat.lt_irrefl _)
  refine ⟨⟨hc.sound hi.order.1, hi.order.2⟩, ?_, ?_, ?_, ?_⟩
  · rw [List.length_append, List.length_singleton, hi.length, hc.nextDirectory]
  · intro j q hq
    rcases hget hq with hq | ⟨rfl, rfl⟩
    · exact hi.directory j q hq
    · rw [hp, hi.length]
  · intro j hj
    rw [List.length_append]
    exact Nat.lt_add_right _ (hi.started j hj)
  · intro i his p' t hp' ht
    have hp₀ := hold his hp'
    rw [hdirs hp₀] at ht
    obtain ⟨hu, hothers⟩ := hi.stack i his p' t hp₀ ht
    refine ⟨fun s' => by rw [hkernel]; exact hu s', fun j hj hji q hq => ?_⟩
    have hq₀ := hold hj hq
    rw [hdirs hq₀]
    exact hothers j hj hji q hq₀

theorem Inv.load {priveledge : ProcessPriveledgeLevel} (hi : Inv s)
    (h : ElfExecutable.load file b priveledge s.kernel mem = .ok (p, k', mem')) :
    Inv { s with kernel := k' } := by
  obtain ⟨mmu, hdr, l, hcreate, -, hloop, -, hmmu, hframes, hprocs, -⟩ :=
    ElfExecutable.load_cases h
  obtain ⟨mmu', hcreate', hcreated⟩ := hi.order.1.createAddressSpace b
    (Mmu.createAddressSpace_lt hcreate)
  obtain ⟨hdir, rfl⟩ : Dir.process s.kernel.mmu.nextDirectory = p.pageDirectory ∧ mmu' = mmu := by
    simpa using hcreate'.symm.trans hcreate
  rw [← hdir] at hloop
  have hkeeps : Keeps s.kernel.mmu.nextDirectory mmu' l := Keeps.loadHeaders
    ⟨⟨hcreated.sound hi.order.1, hi.order.2⟩, .refl _ _⟩
    (hcreated.nextDirectory ▸ Nat.lt_succ_self _) hloop
  refine (hi.create hcreated hdir.symm).grows (by rw [hmmu, hframes]; exact hkeeps.1)
    (by rw [hmmu]; exact hkeeps.2) (by rw [hprocs]) fun j q hq => ⟨q, ?_, rfl⟩
  rwa [hprocs] at hq

/-- A process that is about to be run has no stack. -/
theorem Inv.clear (hi : Inv s) (hp : s.kernel.processes[i]? = some p) :
    Inv { kernel := { s.kernel with mmu := s.kernel.mmu.setDir (.process i) stackPde none }
          started := i :: s.started } := by
  have hlt : i < s.kernel.processes.length := (List.getElem?_eq_some_iff.mp hp).1
  have hshaped := hi.order.1.toShaped.clearStack (hi.length ▸ hlt)
  refine ⟨⟨hi.order.1.of_tables hshaped Mmu.dirs_setDir_kernel id, hi.order.2⟩, hi.length,
    hi.directory, ?_, ?_⟩
  · intro j hj
    rcases List.mem_cons.mp hj with rfl | hj
    · exact hlt
    · exact hi.started j hj
  -- the `i`-th directory has no stack table any more, and the others have theirs
  · intro j hj q t hq ht
    rw [hi.directory j q hq, Mmu.dirs_setDir] at ht
    split at ht
    · cases ht
    · rename_i hji
      have hjs : j ∈ s.started := by
        refine (List.mem_cons.mp hj).resolve_left ?_
        rintro rfl
        exact hji ⟨rfl, rfl⟩
      rw [← hi.directory j q hq] at ht
      obtain ⟨hu, hothers⟩ := hi.stack j hjs q t hq ht
      refine ⟨fun s' => ?_, fun j' hj' hne q' hq' hqt => ?_⟩
      · rw [Mmu.dirs_setDir_kernel]
        exact hu s'
      · rw [hi.directory j' q' hq', Mmu.dirs_setDir] at hqt
        split at hqt
        · cases hqt
        · rename_i hji'
          have hjs' : j' ∈ s.started := by
            refine (List.mem_cons.mp hj').resolve_left ?_
            rintro rfl
            exact hji' ⟨rfl, rfl⟩
          refine hothers j' hjs' hne q' hq' ?_
          rw [hi.directory j' q' hq', hqt]

theorem getElem?_set_directory {procs : List Process} {p' : Process} (hp : procs[i]? = some p)
    (hdir : p'.pageDirectory = p.pageDirectory) (j : Nat) (q : Process)
    (hq : (procs.set i p')[j]? = some q) :
    ∃ q₀, procs[j]? = some q₀ ∧ q.pageDirectory = q₀.pageDirectory := by
  rw [List.getElem?_set] at hq
  split at hq
  · rename_i hij
    subst hij
    split at hq
    · cases hq
      exact ⟨p, hp, hdir⟩
    · cases hq
  · exact ⟨q, hq, rfl⟩

theorem Inv.run (hi : Inv s) (hfree : Kernel.stackAddrs.length ≤ s.kernel.frames.freeFrames)
    (h : s.kernel.run i = .ok k') : Inv { kernel := k', started := i :: s.started } := by
  obtain ⟨p, l, hp, hloop, rfl⟩ := Kernel.run_cases h
  have hclear := hi.clear hp
  have hlt : i < s.kernel.mmu.nextDirectory := by
    rw [← hi.length]
    exact (List.getElem?_eq_some_iff.mp hp).1
  rw [hi.directory i p hp] at hloop
  -- as long as there are frames, every page of the stack gets one
  obtain ⟨-, hkeeps⟩ := foldlM_inv
    (P := fun rest (l : Mapping) => rest.length ≤ l.frames.freeFrames ∧
      Keeps i (s.kernel.mmu.setDir (.process i) stackPde none) l)
    (fun {virt rest l l'} hl hstep => by
      rw [List.length_cons] at hl
      have hne := PhysicalFrameAllocator.allocFrame_of_free hl.2.1.2
        (Nat.lt_of_lt_of_le (Nat.succ_pos _) hl.1)
      have hcount := PhysicalFrameAllocator.freeFrames_allocFrame hne
      have hframes : l'.frames = l.frames.allocFrame.2 := by
        obtain ⟨mmu, -, hl'⟩ := bind_eq_ok.mp hstep
        cases hl'
        rfl
      exact ⟨by rw [hframes]; omega, hl.2.enter hlt hne hstep⟩)
    ⟨hfree, hclear.order, .refl _ _⟩ hloop
  have hlt' : i < l.mmu.nextDirectory := hkeeps.2.nextDirectory ▸ hlt
  have hactive := hkeeps.1.1.toShaped.setActive hlt'
  rw [← hi.directory i p hp] at hactive
  exact hclear.grows ⟨hkeeps.1.1.of_tables hactive rfl id, hkeeps.1.2⟩
    ⟨hkeeps.2.others, hkeeps.2.own, hkeeps.2.nextDirectory⟩ List.length_set
    (getElem?_set_directory hp rfl)

theorem Inv.ctxtSwitch (hi : Inv s) (hp : s.kernel.processes[i]? = some p) (hown : s.OwnStack i)
    (h : s.kernel.ctxtSwitch p = .ok k') : Inv { kernel := k', started := i :: s.started } := by
  obtain rfl := Kernel.ctxtSwitch_eq_ok h
  have hlt : i < s.kernel.processes.length := (List.getElem?_eq_some_iff.mp hp).1
  rw [hi.directory i p hp]
  refine ⟨⟨hi.order.1.of_tables (hi.order.1.toShaped.setActive (hi.length ▸ hlt)) rfl id,
    hi.order.2⟩, hi.length, hi.directory, ?_, ?_⟩
  · intro j hj
    rcases List.mem_cons.mp hj with rfl | hj
    · exact hlt
    · exact hi.started j hj
  · intro j hj q t hq ht
    rcases List.mem_cons.mp hj with rfl | hjs
    · obtain ⟨hu, hothers⟩ := hown q t hq ht
      exact ⟨hu, fun j' hj' hne => hothers j' ((List.mem_cons.mp hj').resolve_left hne) hne⟩
    · obtain ⟨hu, hothers⟩ := hi.stack j hjs q t hq ht
      refine ⟨hu, fun j' hj' hne q' hq' hqt => ?_⟩
      rcases List.mem_cons.mp hj' with rfl | hjs'
      · -- the process switched to has a table of its own
        exact (hown q' t hq' hqt).2 j hjs (Ne.symm hne) q hq ht
      · exact hothers j' hjs' hne q' hq' hqt

theorem Inv.mmap {edi eax : Word} (hi : Inv s) (h : s.kernel.mmap edi = .ok (k', eax)) :
    Inv { s with kernel := k' } := by
  obtain ⟨-, rfl, -⟩ | ⟨i, p, all, mmu, frames, -, hp, hmap, hret⟩ := Kernel.mmap_cases h
  · exact hi
  · have hlt : i < s.kernel.mmu.nextDirectory := by
      rw [← hi.length]
      exact (List.getElem?_eq_some_iff.mp hp).1
    rw [hi.directory i p hp] at hmap
    obtain ⟨horder, hgrows⟩ := Keeps.mapHeap ⟨hi.order, .refl _ _⟩ hlt hmap
    obtain ⟨-, -, rfl⟩ | ⟨-, -, rfl⟩ := hret
    · exact hi.grows horder hgrows List.length_set (getElem?_set_directory hp rfl)
    · exact hi.grows horder hgrows rfl fun j q hq => ⟨q, hq, rfl⟩

theorem Inv.step {c : Call} (hi : Inv s) (hc : s.Allowed c) (h : s.Step b c s') : Inv s' := by
  obtain ⟨_, _, _, _, _, _, rfl, hload, rfl⟩ | ⟨_, _, rfl, hrun, rfl⟩ |
    ⟨_, _, _, rfl, hp, hswitch, rfl⟩ | ⟨_, _, _, rfl, hmap, rfl⟩ := step_cases h
  · exact hi.load hload
  · exact hi.run hc hrun
  · exact hi.ctxtSwitch hp hc hswitch
  · exact hi.mmap hmap

/-! ### Every run -/

theorem inv_booted (hb : k.Booted) : Inv ⟨k, []⟩ where
  order := by
    obtain ⟨hnext, hnone⟩ := hb.noDirectory
    -- only the kernel's directory has anything, and all the tables in use are its own
    have hkernel : ∀ {d s t}, k.mmu.dirs d s = some t → d = .kernel := by
      intro d s t hd
      cases d with
      | kernel => rfl
      | process i =>
          rw [hnone] at hd
          cases hd
    have htables : ∀ {t j e}, k.mmu.Users t → k.mmu.tables t j ≠ some e := by
      intro t j e hu he
      obtain ⟨s, hs⟩ := hb.tables he
      exact hu s hs
    refine ⟨⟨⟨?_, ?_, ?_, ?_, by rw [hb.first]; rfl, ?_⟩, ?_, ?_⟩, hb.null⟩
    · intro d d' s s' t h₁ h₂
      obtain rfl := hkernel h₁
      obtain rfl := hkernel h₂
      exact hb.slot h₁ h₂
    · intro d d' s t _ _ h₁ h₂
      rw [hkernel h₁, hkernel h₂]
    · intro d s i hd
      obtain rfl := hkernel hd
      exact hb.pool hd
    · exact fun _ s => hnone _ s
    · intro i ha
      rw [hb.active] at ha
      cases ha
    · exact fun hu he => absurd he (htables hu)
    · exact fun hu _ he => absurd he (htables hu)
  length := by rw [hb.processes, hb.noDirectory.1]; rfl
  directory i p hp := by
    rw [hb.processes] at hp
    cases hp
  started i hi := by cases hi
  stack i hi := by cases hi

/-- Started processes share no frame, in every run that starts none on a stack table in use and
none without frames for its stack. -/
theorem isolated {cs : List Call} (hb : k.Booted)
    (r : Run (Guarded Allowed (Step b)) ⟨k, []⟩ cs s) : s.Isolated :=
  (r.inv (inv_booted hb) fun hi h => hi.step h.1 h.2).apart

/-! ### A run that shares -/

/-- The kernel with its heap mapped, and no framebuffer; frames below `used` are in use. -/
def freshKernel (used totalFrames : Nat) : Kernel where
  mmu :=
    { dirs := fun d s => match d with
        | .kernel => if s = 0 then some .first else if s ≤ 8 then some (.pool (s - 1)) else none
        | .process _ => none
      tables := fun t j => match t with
        | .first => if j < 1024 then some ⟨j, 3⟩ else none
        | .pool i => if i < 8 ∧ j < 1024 then some ⟨(i + 1) * 1024 + j, 3⟩ else none
      nextPageTable := 8
      nextDirectory := 0
      activeDirectory := .kernel }
  frames := ⟨fun i => decide (i < used), totalFrames⟩
  processes := []
  latestPid := 1
  activeProcessPid := 0

theorem booted_freshKernel {used totalFrames : Nat} (h : 0 < used) :
    (freshKernel used totalFrames).Booted where
  first := rfl
  slot {s s' t} h h' := by
    simp only [freshKernel] at h h'
    split at h <;> split at h'
    · omega
    · split at h' <;> cases h <;> cases h'
    · split at h <;> cases h' <;> cases h
    · split at h <;> split at h' <;> cases h <;> simp at h'
      omega
  pool {s i} h := by
    simp only [freshKernel] at h ⊢
    split at h
    · cases h
    · split at h <;> cases h
      omega
  noDirectory := ⟨rfl, fun _ _ => rfl⟩
  tables {t j e} he := by
    cases t with
    | first => exact ⟨0, rfl⟩
    | pool i =>
        refine ⟨i + 1, ?_⟩
        simp only [freshKernel] at he ⊢
        split at he
        · rename_i hi
          simp [show i + 1 ≤ 8 by omega]
        · cases he
  active := rfl
  null := decide_eq_true h
  processes := rfl

/-- An executable without a segment, for the entry point 0x08048000. -/
def bareFile : List UInt8 :=
  [0x7F, 0x45, 0x4C, 0x46, 1, 1, 1, 0, 0] ++ List.replicate 7 0 ++
    [2, 0, 3, 0, 1, 0, 0, 0, 0x00, 0x80, 0x04, 0x08] ++ List.replicate 24 0

def bootStack : BootStack := ⟨0x130000, 0x134000, by decide, by decide⟩

/-- No context switch, and frames for every stack. -/
def withFrames (s : System) : Call → Bool
  | .run _ => decide (Kernel.stackAddrs.length ≤ s.kernel.frames.freeFrames)
  | .ctxtSwitch _ => false
  | _ => true

theorem allowed_of_withFrames {c : Call} (h : s.withFrames c = true) : s.Allowed c := by
  cases c with
  | run i =>
      rw [withFrames, decide_eq_true_eq] at h
      exact h
  | ctxtSwitch i => cases h
  | load | mmap => trivial

/-- Two processes loaded and run one after the other. -/
def bothRun : List Call :=
  [.load (bareFile[·]?) .Kernel fun _ => 0, .run 0, .load (bareFile[·]?) .User fun _ => 0, .run 1]

theorem isolated_both_run : ∃ s,
    Run (Guarded Allowed (Step bootStack)) ⟨freshKernel 16 64, []⟩ bothRun s ∧
    s.started = [1, 0] ∧ s.Isolated := by
  have hrun : (bothRun.foldlM (checked bootStack withFrames) ⟨freshKernel 16 64, []⟩).map
      System.started = .ok [1, 0] := by decide +kernel
  obtain ⟨s, hs, hstarted⟩ := map_eq_ok.mp hrun
  have r := (run_of_foldlM hs).mono fun h => And.intro (allowed_of_withFrames h.1) h.2
  exact ⟨s, r, hstarted, isolated (booted_freshKernel (by decide)) r⟩

/-- The second process is loaded by the first and switched to. -/
def thenSwitch : List Call :=
  [.load (bareFile[·]?) .Kernel fun _ => 0, .run 0, .load (bareFile[·]?) .User fun _ => 0,
    .ctxtSwitch 1]

/-- A process loaded by a running one has its loader's stack table, and a context switch starts it
on that. -/
theorem isolated_fails :
    ∃ s, Run (Step bootStack) ⟨freshKernel 8704 32768, []⟩ thenSwitch s ∧ ¬ s.Isolated := by
  -- the run is evaluated, and only what is seen of its last state is kept
  have hrun : (thenSwitch.foldlM (checked bootStack fun _ _ => true) ⟨freshKernel 8704 32768, []⟩).map
      (fun s => decide (s.started = [1, 0] ∧
        s.kernel.processes.map Process.pageDirectory = [.process 0, .process 1] ∧
        (∀ p ∈ s.kernel.processes, p.pages.length = 0 ∧ p.heapBrk = 0x50000000) ∧
        s.kernel.mmu.pageMap (.process 0) 0xBFFEF = some 8705 ∧
        s.kernel.mmu.pageMap (.process 1) 0xBFFEF = some 8705)) = .ok true := by decide +kernel
  obtain ⟨s, hs, hobs⟩ := map_eq_ok.mp hrun
  obtain ⟨hstarted, hdirs, hnone, h₀, h₁⟩ := of_decide_eq_true hobs
  refine ⟨s, (run_of_foldlM hs).mono fun h => h.2, fun hiso => ?_⟩
  have hplaced : ∀ p ∈ s.kernel.processes, p.Placed s.kernel.mmu := by
    rintro p hp pg (⟨a, ha, -⟩ | ⟨hlo, hhi⟩)
    · rw [List.eq_nil_of_length_eq_zero (hnone p hp).1] at ha
      cases ha
    · rw [(hnone p hp).2] at hhi
      exact absurd hhi (Nat.not_lt.mpr hlo)
  have hget : ∀ i < 2, ∃ p, s.kernel.processes[i]? = some p ∧ p.pageDirectory = .process i := by
    intro i hi
    have hmap := congrArg (·[i]?) hdirs
    simp only [List.getElem?_map] at hmap
    obtain rfl | rfl : i = 0 ∨ i = 1 := by omega
    all_goals
      obtain ⟨p, hp, hdir⟩ := Option.map_eq_some_iff.mp hmap
      exact ⟨p, hp, hdir⟩
  obtain ⟨p, hp, hpdir⟩ := hget 0 (by decide)
  obtain ⟨q, hq, hqdir⟩ := hget 1 (by decide)
  have hstack : stackPage 0xBFFEF := by
    have hbegin : stackBegin.toNat = 0xBFFF0000 := by decide
    rw [stackPage, hbegin, stackSize]
    omega
  refine hiso 0 (by simp [hstarted]) 1 (by simp [hstarted]) (by decide) p q hp hq
    (hplaced p (List.mem_of_getElem? hp)) (hplaced q (List.mem_of_getElem? hq)) 0xBFFEF 0xBFFEF 8705
    (.inr (.inr hstack)) (.inr (.inr hstack)) ?_ ?_
  · rw [hpdir, h₀]
  · rw [hqdir, h₁]

end System

end RivOS
