import RivOS.Proc.Isolation
import RivOS.Proc.KernelMain
import RivOS.Proc.LoadImage

/-!
# Proc — Frames for processes

What `kernelMain` sets up, and then any calls that load, start and switch to programs and make their
heaps grow.

* `Kept`: the frames below a bound are in use, and the tables that are not the kernel's have none of
  them; one lemma for each call.
* `kernel_memory_kept`: outside the slots of the kernel every page of every process is on a frame
  behind the kernel, or on frame 0 where there was no frame left for a stack.
-/

namespace RivOS

open Kernel (Call)
open KernelMain (kernelMain maxFrames)
open Mmu (stackPde directoryIndex)

namespace KernelFrames

variable {mm mm' : Mmu} {pfa : PhysicalFrameAllocator} {l l' : Mapping} {k k' : Kernel}
  {n total i phys flgs : Nat} {dir : Dir} {virt : Word} {virts : List Word} {file : PMem}
  {hdr : ElfHeader32} {mem mem' : Mem} {b : BootStack} {s s' : System} {p : Process}

/-- `nullptr`, or a frame from the `n`-th on. -/
def Free (n total f : Nat) : Prop := f = 0 ∨ n ≤ f ∧ f < total

/-- The first `n` frames are in use, and no table of a process has one. -/
structure Kept (n total : Nat) (mm : Mmu) (pfa : PhysicalFrameAllocator) : Prop where
  total_eq : pfa.totalFrames = total
  used : ∀ f < n, pfa.isUsed f = true
  free : ∀ {t j e}, mm.Users t → mm.tables t j = some e → Free n total e.frame

/-! ### Frames -/

theorem totalFrames_allocFrame (pfa : PhysicalFrameAllocator) :
    pfa.allocFrame.2.totalFrames = pfa.totalFrames := by
  rw [PhysicalFrameAllocator.allocFrame]
  split <;> rfl

theorem Kept.alloc (h : Kept n total mm pfa) : Free n total (pfa.allocFrame.1 / 4096) ∧
    Kept n total mm pfa.allocFrame.2 := by
  refine ⟨?_, (totalFrames_allocFrame pfa).trans h.total_eq, fun f hf =>
    PhysicalFrameAllocator.isUsed_allocFrame (h.used f hf), h.free⟩
  rw [PhysicalFrameAllocator.allocFrame]
  cases hfind : (List.range' 0 pfa.totalFrames).find? fun i => !pfa.isUsed i with
  | none => exact .inl (Nat.zero_div 4096)
  | some f =>
      have hlt : f < total := by
        rw [← h.total_eq]
        simpa using List.mem_of_find?_eq_some hfind
      have hfree : pfa.isUsed f = false := by simpa using List.find?_some hfind
      refine .inr ⟨Nat.le_of_not_lt fun hlow => ?_, ?_⟩
      · rw [PhysicalFrameAllocator.frameSize, Nat.mul_div_cancel _ (by decide)] at hlow
        rw [h.used f hlow] at hfree
        cases hfree
      · rwa [PhysicalFrameAllocator.frameSize, Nat.mul_div_cancel _ (by decide)]

/-! ### Tables -/

/-- Other directories are no matter. -/
theorem Kept.of_dirs (h : Kept n total mm pfa) (hdirs : mm'.dirs .kernel = mm.dirs .kernel)
    (htables : mm'.tables = mm.tables) : Kept n total mm' pfa := by
  refine ⟨h.total_eq, h.used, fun {t j e} hu he => ?_⟩
  rw [Mmu.Users, hdirs] at hu
  rw [htables] at he
  exact h.free hu he

/-- An entry of the kernel's own tables is none of a process. -/
theorem Kept.setPte_kernel {t : Table} {j : Nat} {e : Pte} {slot : Nat} (h : Kept n total mm pfa)
    (ht : mm.dirs .kernel slot = some t) : Kept n total (mm.setPte t j e) pfa := by
  refine ⟨h.total_eq, h.used, fun {t' j' e'} hu he => ?_⟩
  rw [Mmu.tables_setPte] at he
  split at he
  · next hc => exact absurd (hc.1 ▸ ht) (hu slot)
  · exact h.free hu he

theorem Kept.mapPageIn (h : Kept n total mm pfa) (hphys : Free n total (phys / 4096))
    (hm : mm.mapPageIn (.process i) phys virt flgs = .ok mm') : Kept n total mm' pfa := by
  have hset {mm₁ : Mmu} {t : Table} (h₁ : Kept n total mm₁ pfa) :
      Kept n total (mm₁.setPte t (Mmu.tableIndex virt) ⟨phys / 4096, flgs ||| 1⟩) pfa := by
    refine ⟨h₁.total_eq, h₁.used, fun {t' j e} hu he => ?_⟩
    rw [Mmu.tables_setPte] at he
    split at he
    · cases he
      exact hphys
    · exact h₁.free hu he
  obtain ⟨t, mm₁, hp, rfl⟩ := Mmu.mapPageIn_eq_ok.mp hm
  rcases Mmu.pageTable_cases hp with ⟨-, rfl⟩ | ⟨-, hnew⟩
  · exact hset h
  · -- the new table is empty
    obtain ⟨-, rfl, rfl⟩ := Mmu.newPageTable_eq_ok.mp hnew
    refine hset ⟨h.total_eq, h.used, fun {t j e} hu he => ?_⟩
    have hu' : mm.Users t := fun s => by
      have hs := hu s
      rwa [Mmu.dirs_setDir, if_neg fun hc => nomatch hc.1] at hs
    simp only [Mmu.tables_setDir, Function.update_apply] at he
    split at he
    · cases he
    · exact h.free hu' he

/-! ### Mapping pages for a process -/

theorem Kept.enter (h : Kept n total l.mmu l.frames)
    (he : l.enter (.process i) virt l.frames.allocFrame = .ok l') :
    Kept n total l'.mmu l'.frames := by
  obtain ⟨mmu, hm, he⟩ := bind_eq_ok.mp he
  cases he
  exact h.alloc.2.mapPageIn h.alloc.1 hm

theorem Kept.loadHeaders {is : List Nat} (h : Kept n total l.mmu l.frames)
    (hm : is.foldlM (ElfExecutable.loadHeader file (.process i) hdr) (l, mem) = .ok (l', mem')) :
    Kept n total l'.mmu l'.frames := by
  refine foldlM_inv (P := fun _ (s : Mapping × Mem) => Kept n total s.1.mmu s.1.frames)
    (fun {_ _ s s'} hs hstep => ?_) h hm
  rcases ElfExecutable.loadHeader_cases hstep with rfl | ⟨ph, -, hload⟩
  · exact hs
  · refine foldlM_inv (P := fun _ (l : Mapping) => Kept n total l.mmu l.frames)
      (fun {virt _ l l'} hl hpage => ?_) hs (ElfExecutable.loadSegment_cases hload).1
    rw [ElfExecutable.mapPage] at hpage
    split at hpage
    · cases hpage
    · exact hl.enter hpage

theorem Kept.mapHeap {r : Bool × Mmu × PhysicalFrameAllocator} (h : Kept n total mm pfa)
    (hm : Kernel.mapHeap (.process i) mm pfa virts = .ok r) : Kept n total r.2.1 r.2.2 := by
  induction virts generalizing mm pfa with
  | nil =>
      cases hm
      exact h
  | cons virt rest ih =>
      rw [Kernel.mapHeap] at hm
      split at hm
      · cases hm
        exact h.alloc.2
      · obtain ⟨mm', hmap, hm⟩ := bind_eq_ok.mp hm
        exact ih (h.alloc.2.mapPageIn h.alloc.1 hmap) hm

/-- The new directory has the kernel's slots, and the boot stack is in one of them. -/
theorem Kept.createAddressSpace (h : Kept n total mm pfa) (hs : mm.Shaped)
    (hc : mm.createAddressSpace b = .ok (dir, mm')) : Kept n total mm' pfa := by
  obtain ⟨t, ht⟩ := Option.isSome_iff_exists.mp hs.first
  rw [Mmu.createAddressSpace] at hc
  split at hc
  · cases hc
  · obtain ⟨mm₁, hloop, hret⟩ := bind_eq_ok.mp hc
    cases hret
    have hslot : mm.inheritKernel.dirs (.process mm.nextDirectory) 0 = some t := by
      rw [Mmu.dirs_inheritKernel, if_pos rfl, ht]
    have hkernel : mm.inheritKernel.dirs .kernel 0 = some t := by
      rw [Mmu.dirs_inheritKernel_kernel, ht]
    have hkept : Kept n total mm.inheritKernel pfa :=
      h.of_dirs Mmu.dirs_inheritKernel_kernel rfl
    obtain ⟨-, hdirs, hkept₁⟩ := foldlM_inv (P := fun rest mm₂ =>
        (∀ addr ∈ rest, directoryIndex addr = 0) ∧ mm₂.dirs = mm.inheritKernel.dirs ∧
          Kept n total mm₂ pfa)
      (fun {addr rest mm₂ mm₃} h hm => by
        obtain ⟨hzero, hdirs, hkept⟩ := h
        have h0 := hzero addr List.mem_cons_self
        rw [← hdirs] at hslot hkernel
        rw [Mmu.mapPageIn_present (h0 ▸ hslot)] at hm
        cases hm
        exact ⟨fun a ha => hzero a (.tail _ ha), hdirs, hkept.setPte_kernel hkernel⟩)
      ⟨fun _ => Mmu.BootStack.directoryIndex_eq_zero, rfl, hkept⟩ hloop
    refine hkept₁.of_dirs ?_ rfl
    funext s
    rw [Mmu.borrowStack, Mmu.dirs_setDir, if_neg fun hc => by cases hc.1]

/-! ### The calls -/

/-- The same for what the kernel has. -/
def KeptBy (n total : Nat) (k : Kernel) : Prop := Kept n total k.mmu k.frames

theorem KeptBy.load {priveledge : ProcessPriveledgeLevel} (h : KeptBy n total k) (hk : Settled k)
    (hl : ElfExecutable.load file b priveledge k mem = .ok (p, k', mem')) : KeptBy n total k' := by
  obtain ⟨mmu, hdr, l, hcreate, -, hloop, -, hmmu, hframes, -⟩ := ElfExecutable.load_cases hl
  obtain ⟨mmu', hcreate', -⟩ := hk.shaped.createAddressSpace b (Mmu.createAddressSpace_lt hcreate)
  have hdir : Dir.process k.mmu.nextDirectory = p.pageDirectory :=
    congrArg Prod.fst (Except.ok.inj (hcreate'.symm.trans hcreate))
  rw [← hdir] at hloop
  have hcreated : Kept n total mmu k.frames := Kept.createAddressSpace h hk.shaped hcreate
  have hkept : Kept n total l.mmu l.frames := hcreated.loadHeaders hloop
  rwa [KeptBy, hmmu, hframes]

theorem KeptBy.run (h : KeptBy n total k) (hk : Settled k) (hr : k.run i = .ok k') :
    KeptBy n total k' := by
  obtain ⟨q, l, hq, hloop, rfl⟩ := Kernel.run_cases hr
  rw [hk.directory i q hq] at hloop
  have hclear : Kept n total (k.mmu.setDir (.process i) stackPde none) k.frames := by
    refine Kept.of_dirs h ?_ rfl
    funext s
    rw [Mmu.dirs_setDir, if_neg fun hc => nomatch hc.1]
  exact (foldlM_inv (P := fun _ (l : Mapping) => Kept n total l.mmu l.frames)
    (fun hl hstep => hl.enter hstep) hclear hloop).of_dirs rfl rfl

theorem KeptBy.mmap {edi eax : Word} (h : KeptBy n total k) (hk : Settled k)
    (hm : k.mmap edi = .ok (k', eax)) : KeptBy n total k' := by
  obtain ⟨-, rfl, -⟩ | ⟨i, q, all, mmu, frames, -, hq, hmap, hret⟩ := Kernel.mmap_cases hm
  · exact h
  · rw [hk.directory i q hq] at hmap
    have hkept := Kept.mapHeap h hmap
    obtain ⟨-, -, rfl⟩ | ⟨-, -, rfl⟩ := hret <;> exact hkept

theorem KeptBy.step {c : Call} (h : KeptBy n total s.kernel) (hk : Settled s.kernel)
    (hstep : System.Step b s c s') : KeptBy n total s'.kernel := by
  obtain ⟨_, _, _, _, _, _, rfl, hload, rfl⟩ | ⟨_, _, rfl, hrun, rfl⟩ |
    ⟨_, _, _, rfl, hp, hswitch, rfl⟩ | ⟨_, _, _, rfl, hmap, rfl⟩ := System.step_cases hstep
  · exact h.load hk hload
  · exact h.run hk hrun
  · obtain rfl := Kernel.ctxtSwitch_eq_ok hswitch
    exact Kept.of_dirs h rfl rfl
  · exact h.mmap hk hmap

/-- The frames of the kernel's memory. -/
def kernelFrames (y : Layout) : Nat := (y.kernelEnd.toNat + 4095) / 4096

theorem lt_kernelFrames {y : Layout} {f : Nat} :
    f < kernelFrames y ↔ f * 4096 < y.kernelEnd.toNat := by
  rw [kernelFrames]
  omega

/-- A program without a segment can be loaded as long as there is a directory. -/
theorem load_bareFile (hk : Settled k) (hnext : k.mmu.nextDirectory < 16) (mem : Mem) :
    ∃ p k', ElfExecutable.load (System.bareFile[·]?) b .User k mem = .ok (p, k', mem) := by
  obtain ⟨mm', hcreate, -⟩ := hk.shaped.createAddressSpace b hnext
  have hhdr : (ElfHeader32.read (System.bareFile[·]?)).map
      (·.programHeaderTableSize) = some 0 := by decide
  obtain ⟨hdr, hread, hsize⟩ := Option.map_eq_some_iff.mp hhdr
  simp only [ElfExecutable.load, hcreate, hread, ok_bind, orHalt, hsize]
  exact ⟨_, _, rfl⟩

end KernelFrames
end RivOS
