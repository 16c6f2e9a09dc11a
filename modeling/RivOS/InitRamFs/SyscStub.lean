import RivOS.InitRamFs.SyscLayer
import RivOS.Support.X86

/-!
# InitRamFs — The way of a live system call

`initramfs/syscstub.asm`: `INT 0x30` from the caller's stack to `liveSyscHandlr` on a stack of its own,
and back.

* Compiled code leaves what it likes in the registers; `junk` stands for that.
* `code` is what a registered function does when it is called.  Like any C function it leaves alone
  what is on the two stacks (`Respects`).
* `return_cases`: the caller has all its registers back, `eax` too.
* `result_iff`: so it gets the result exactly if that is the number it called with; from `ALLOC` it
  never does.
-/

namespace RivOS

open KernelAllocator (alloc Tenancy)
open LiveSyscNumbers (num)

namespace SyscLayer

/-- The processor and the registry, with the memory behind both. -/
structure Machine where
  core : Core
  syscLayerMapping : EntryVec

/-- The registered functions, by address: arguments and state to result and state. -/
abbrev Code := Word → Word → Word → Word → SyscLayer → Option (Word × SyscLayer)

def SyscInterruptFrame.ofDwords : List Word → Option SyscInterruptFrame
  | [edi, esi, ebp, esp, ebx, edx, ecx, eax, eip, cs, eflags] =>
      some ⟨edi, esi, ebp, esp, ebx, edx, ecx, eax, eip, cs, eflags⟩
  | _ => none

variable (pm : PageMap) (r : HeapRegion) (fuel : Nat) (code : Code)

/-- `liveSyscHandlr` to its end. -/
def callHandlr (frame : SyscInterruptFrame) (s : SyscLayer) : Except Halt (Word × SyscLayer) := do
  let (ret, s) ← liveSyscHandlr r fuel frame s
  match ret with
  | .value v => return (v, s)
  | .call fn p1 p2 p3 => orHalt .undefined (code fn p1 p2 p3 s)

namespace Machine

/-- `liveSyscStub`: what `liveSyscHandlr` returned, and the machine after `IRETD`. -/
def liveSyscStub (liveSyscStackTop : Word) (junk : Regs) (m : Machine) :
    Except Halt (Word × Machine) := do
  let core ← orHalt .fault (m.core.pusha pm)
  let eax := core.regs.esp
  let core := { core with regs := { core.regs with eax := eax, esp := liveSyscStackTop } }
  let core ← orHalt .fault (core.push pm eax)
  let core ← orHalt .fault (core.push pm eax)
  let frame ← orHalt .fault ((loadWords pm core.mem eax 11).bind SyscInterruptFrame.ofDwords)
  let (ret, s) ← callHandlr r fuel code frame ⟨m.syscLayerMapping, core.mem⟩
  let core := { core with mem := s.mem, regs := { junk with eax := ret, esp := core.regs.esp + 4 } }
  let (eax, core) ← orHalt .fault (core.pop pm)
  let core := { core with regs := { core.regs with eax := eax, esp := eax } }
  let core ← orHalt .fault (core.popa pm)
  let core ← orHalt .fault (core.iretd pm)
  return (ret, ⟨core, s.syscLayerMapping⟩)

/-- `INT 0x30`, with `liveSyscStub` behind its gate. -/
def liveSyscall (gate liveSyscStackTop : Word) (junk : Regs) (m : Machine) :
    Except Halt (Word × Machine) := do
  let core ← orHalt .fault (m.core.enter pm 0x08 gate)
  liveSyscStub pm r fuel code liveSyscStackTop junk { m with core }

variable {pm} {r} {fuel} {code} {m m' : Machine} {c c' : Core} {top gate ret : Word} {junk : Regs}
  {x : Nat}

/-- The frame of a program that was interrupted as `c`. -/
def frameOf (c : Core) : SyscInterruptFrame where
  edi := c.regs.edi
  esi := c.regs.esi
  ebp := c.regs.ebp
  esp := c.regs.esp - 12
  ebx := c.regs.ebx
  edx := c.regs.edx
  ecx := c.regs.ecx
  eax := c.regs.eax
  eip := c.regs.eip
  cs := c.segs.cs.setWidth 32
  eflags := c.regs.eflags

/-- The bytes the interrupt pushes: the frame on the caller's stack, and two dwords on the other. -/
def Pushed (pm : PageMap) (c : Core) (top : Word) (x : Nat) : Prop :=
  Places pm (c.regs.esp - 44) 44 x ∨ Places pm (top - 8) 8 x

/-- The stacks have no byte in common, in the frame and in the two dwords. -/
def Apart (pm : PageMap) (c : Core) (top : Word) : Prop :=
  ∀ x, Places pm (c.regs.esp - 44) 44 x → ¬ Places pm (top - 8) 8 x

/-- The frame on the caller's stack, as `PUSHA` leaves it. -/
theorem enter_pusha {c₁ c₂ : Core} {cs : BitVec 16} (h₁ : c.enter pm cs gate = some c₁)
    (h₂ : c₁.pusha pm = some c₂) :
    c₂.OnStack pm ((Core.pushaOrder c₁.regs).reverse ++ c.frame) ∧
      (∃ eip eflags, c₁.regs =
        { c.regs with esp := c.regs.esp - 12, eip := eip, eflags := eflags }) ∧
      c₂.regs.esp = c.regs.esp - 44 ∧
      ∀ x, ¬ Places pm (c.regs.esp - 44) 44 x → c₂.mem x = c.mem x := by
  obtain ⟨hstack, eip, eflags, hregs₁⟩ := Core.enter_onStack h₁
  obtain ⟨hstack, -, hregs₂⟩ := Core.pusha_onStack h₂ hstack (by simp [Core.frame])
  have hesp : c₂.regs.esp = c.regs.esp - 44 := by
    rw [hregs₂, hregs₁]
    show c.regs.esp - 12 - 32 = _
    bv_omega
  refine ⟨hstack, ⟨eip, eflags, hregs₁⟩, hesp, fun x hx => ?_⟩
  obtain ⟨c₀, hpush, hc₁⟩ := Option.bind_eq_some_iff.mp h₁
  cases hc₁
  have hentered : c₀.mem x = c.mem x := Core.pushAll_of_not_mem hpush fun hp => hx ?_
  · refine (Core.pushAll_of_not_mem h₂ fun hp => hx ?_).trans hentered
    rw [hregs₁] at hp
    have hlow : c.regs.esp - 12 - BitVec.ofNat 32 32 = c.regs.esp - 44 := by bv_omega
    have hp : Places pm (c.regs.esp - 12 - BitVec.ofNat 32 32) 32 x := hp
    rw [hlow] at hp
    obtain ⟨i, hi, hp⟩ := hp
    exact ⟨i, by omega, hp⟩
  · have htop : c.regs.esp - BitVec.ofNat 32 12 = c.regs.esp - 44 + BitVec.ofNat 32 32 := by bv_omega
    have hp : Places pm (c.regs.esp - BitVec.ofNat 32 12) 12 x := hp
    rw [htop] at hp
    exact hp.mono (by decide)

/-- The two dwords on the stack of the handler, and nothing else changed. -/
theorem push_push {c₀ c₁ c₂ : Core} {v w : Word} (hesp : c₀.regs.esp = top)
    (h₁ : c₀.push pm v = some c₁) (h₂ : c₁.push pm w = some c₂) :
    c₂.regs.esp = top - 8 ∧ Words pm c₂.mem (top - 8) [w, v] ∧
      ∀ x, ¬ Places pm (top - 8) 8 x → c₂.mem x = c₀.mem x := by
  have hesp₁ : c₁.regs.esp = top - 4 := by rw [(Core.push_eq_some h₁).2, hesp]
  have hlow : c₁.regs.esp - 4 = top - 8 := by
    rw [hesp₁]
    bv_omega
  have hesp₂ : c₂.regs.esp = top - 8 := by rw [(Core.push_eq_some h₂).2, ← hlow]
  refine ⟨hesp₂, hesp₂ ▸ Core.push_onStack h₂
    (Core.push_onStack h₁ Core.onStack_nil (by simp)) (by simp), fun x hx => ?_⟩
  rw [Core.push_of_not_mem h₂ fun hp => hx ?_, Core.push_of_not_mem h₁ fun hp => hx ?_]
  · have htop : top - 4 = top - 8 + BitVec.ofNat 32 4 := by bv_omega
    rw [hesp, htop] at hp
    exact hp.mono (by decide)
  · rw [hlow] at hp
    obtain ⟨i, hi, hp⟩ := hp
    exact ⟨i, by omega, hp⟩

/-- `POP`, `POPA` and `IRETD` take off what was pushed. -/
theorem unwind {c₀ c₁ c₂ c₃ : Core} {sp eax eip cs eflags : Word} {rs : Regs}
    (hstack : c₀.OnStack pm [sp])
    (hframe : Words pm c₀.mem sp ((Core.pushaOrder rs).reverse ++ [eip, cs, eflags]))
    (hpop : c₀.pop pm = some (eax, c₁))
    (hpopa : Core.popa pm { c₁ with regs := { c₁.regs with eax := eax, esp := eax } } = some c₂)
    (hiretd : c₂.iretd pm = some c₃) :
    c₃.regs = { rs with esp := sp + 32 + 12, eip := eip, eflags := eflags } := by
  obtain ⟨_, hpop', -, -, hmem₁, -⟩ := Core.pop_onStack hstack
  cases hpop.symm.trans hpop'
  have hstack₁ : Core.OnStack pm { c₁ with regs := { c₁.regs with eax := sp, esp := sp } }
      ((Core.pushaOrder rs).reverse ++ [eip, cs, eflags]) := by
    show Words pm c₁.mem sp _
    rwa [hmem₁]
  obtain ⟨_, hpopa', hstack₂, -, -, hregs₂⟩ := Core.popa_onStack hstack₁
  cases hpopa.symm.trans hpopa'
  obtain ⟨_, hiretd', -, hregs₃⟩ := Core.iretd_onStack hstack₂
  cases hiretd.symm.trans hiretd'
  rw [hregs₃, hregs₂]

/-- The call of `liveSyscHandlr`, with the caller's registers in the frame and nothing in memory
changed but what was pushed; and if it leaves that alone, the caller has its registers back. -/
theorem return_cases (hapart : Apart pm m.core top)
    (h : m.liveSyscall pm r fuel code gate top junk = .ok (ret, m')) :
    ∃ s₁ s₂, s₁.syscLayerMapping = m.syscLayerMapping ∧
      (∀ x, ¬ Pushed pm m.core top x → s₁.mem x = m.core.mem x) ∧
      callHandlr r fuel code (frameOf m.core) s₁ = .ok (ret, s₂) ∧
      ((∀ x, Pushed pm m.core top x → s₂.mem x = s₁.mem x) → m'.core.regs = m.core.regs) := by
  obtain ⟨c₁, henter, h⟩ := bind_eq_ok.mp h
  obtain ⟨c₂, hpusha, h⟩ := bind_eq_ok.mp h
  obtain ⟨c₃, hpush₃, h⟩ := bind_eq_ok.mp h
  obtain ⟨c₄, hpush₄, h⟩ := bind_eq_ok.mp h
  obtain ⟨frame, hframe, h⟩ := bind_eq_ok.mp h
  obtain ⟨⟨ret', s₂⟩, hcall, h⟩ := bind_eq_ok.mp h
  obtain ⟨⟨eax, c₆⟩, hpop, h⟩ := bind_eq_ok.mp h
  obtain ⟨c₇, hpopa, h⟩ := bind_eq_ok.mp h
  obtain ⟨c₈, hiretd, h⟩ := bind_eq_ok.mp h
  cases h
  obtain ⟨hstack, ⟨eip, eflags, hregs₁⟩, hesp, hmem₂⟩ :=
    enter_pusha (orHalt_eq_ok.mp henter) (orHalt_eq_ok.mp hpusha)
  obtain ⟨hesp₄, hwords₄, hmem₄⟩ :=
    push_push rfl (orHalt_eq_ok.mp hpush₃) (orHalt_eq_ok.mp hpush₄)
  -- the frame is still on the caller's
  have hframe₂ : Words pm c₂.mem (m.core.regs.esp - 44)
      ((Core.pushaOrder c₁.regs).reverse ++ m.core.frame) := hesp ▸ hstack
  have hframe₄ : Words pm c₄.mem (m.core.regs.esp - 44)
      ((Core.pushaOrder c₁.regs).reverse ++ m.core.frame) :=
    hframe₂.congr fun x hx => hmem₄ x (hapart x hx)
  have hread : (loadWords pm c₄.mem c₂.regs.esp 11).bind SyscInterruptFrame.ofDwords =
      some (frameOf m.core) := by
    have hwords : loadWords pm c₄.mem (m.core.regs.esp - 44) 11 = some _ := hframe₄.loadWords
    rw [hesp, hwords, hregs₁]
    rfl
  cases (orHalt_eq_ok.mp hframe).symm.trans hread
  refine ⟨_, s₂, rfl, fun x hx => ?_, hcall, fun hkeep => ?_⟩
  · rw [← hmem₂ x fun hp => hx (.inl hp)]
    exact hmem₄ x fun hp => hx (.inr hp)
  · -- what was pushed is still there
    have hstack₅ : Core.OnStack pm
        { c₄ with mem := s₂.mem, regs := { junk with eax := ret, esp := c₄.regs.esp + 4 } }
        [c₂.regs.esp] := by
      show Words pm s₂.mem (c₄.regs.esp + 4) [c₂.regs.esp]
      rw [hesp₄]
      refine hwords₄.2.congr fun x hx => hkeep x (.inr ?_)
      exact Places.mono (k := 4) hx (Nat.le_refl 8)
    have hframe₅ : Words pm s₂.mem c₂.regs.esp
        ((Core.pushaOrder c₁.regs).reverse ++ m.core.frame) := by
      rw [hesp]
      exact hframe₄.congr fun x hx => hkeep x (.inl hx)
    have hregs := unwind hstack₅ hframe₅ (orHalt_eq_ok.mp hpop) (orHalt_eq_ok.mp hpopa)
      (orHalt_eq_ok.mp hiretd)
    have hsp : c₂.regs.esp + 32 + 12 = m.core.regs.esp := by
      rw [hesp]
      bv_omega
    rw [hregs, hregs₁]
    simp only [hsp]

/-! ### What the caller gets -/

/-- Registered functions leave alone what is on the two stacks. -/
def Respects (code : Code) (pm : PageMap) (c : Core) (top : Word) : Prop :=
  ∀ fn p1 p2 p3 s ret s', code fn p1 p2 p3 s = some (ret, s') →
    ∀ x, Pushed pm c top x → s'.mem x = s.mem x

/-- The heap is in order, and the stacks are not on it. -/
structure HeapApart (pm : PageMap) (r : HeapRegion) (m : Machine) (top : Word) : Prop where
  heap : ∃ bs, Heap r m.core.mem bs
  outside : ∀ x, Pushed pm m.core top x → x < r.heapStart ∨ r.heapEnd + HeapBlock.sizeof ≤ x

/-- `ALLOC`: an address of the heap or `nullptr`, and nothing written outside the heap. -/
theorem callHandlr_alloc {frame : SyscInterruptFrame} {s s' : SyscLayer}
    {bs : List FirstFit.Block} (hh : Heap r s.mem bs) (hax : frame.eax = num .ALLOC)
    (h : callHandlr r fuel code frame s = .ok (ret, s')) :
    ret ≠ num .ALLOC ∧
      ∀ x, x < r.heapStart ∨ r.heapEnd + HeapBlock.sizeof ≤ x → s'.mem x = s.mem x := by
  obtain ⟨⟨out, s₁⟩, hsysc, h⟩ := bind_eq_ok.mp h
  rw [liveSyscHandlr, hax, if_neg (by decide), if_pos rfl] at hsysc
  obtain ⟨⟨q, mem⟩, halloc, heq⟩ := map_eq_ok.mp hsysc
  cases heq
  cases h
  obtain ⟨hret, hmem⟩ := KernelAllocator.alloc_any hh frame.edi.isLt (orHalt_eq_ok.mp halloc)
  refine ⟨?_, hmem⟩
  cases q with
  | none => decide
  | some p =>
      obtain ⟨hlo, hhi⟩ := hret p rfl
      have himage := r.image
      intro heq
      have heq := congrArg BitVec.toNat heq
      rw [Option.getD_some, BitVec.toNat_ofNat, Nat.mod_eq_of_lt hhi] at heq
      have htwo : (num .ALLOC).toNat = 2 := rfl
      omega

/-- Any other number, but those of the kernel, is a call of the function registered for it. -/
theorem callHandlr_call {frame : SyscInterruptFrame} {s s' : SyscLayer}
    (hreg : frame.eax ≠ num .REG_SYSCALL) (halloc : frame.eax ≠ num .ALLOC)
    (hfree : frame.eax ≠ num .FREE) (h : callHandlr r fuel code frame s = .ok (ret, s')) :
    ∃ fn, s.syscLayerMapping.get s.mem frame.eax = .ok fn ∧
      code fn frame.edi frame.esi frame.edx s = some (ret, s') := by
  obtain ⟨⟨out, s₁⟩, hsysc, h⟩ := bind_eq_ok.mp h
  rw [liveSyscHandlr, if_neg hreg, if_neg halloc, if_neg hfree] at hsysc
  split at hsysc
  · cases hsysc
  · obtain ⟨fn, hget, heq⟩ := map_eq_ok.mp hsysc
    cases heq
    exact ⟨fn, hget, orHalt_eq_ok.mp h⟩

/-- **The caller gets a result only by chance**: `POPA` restores the number it called with, so the
result of a registered function arrives if it is that number, and that of `ALLOC` never does. -/
theorem result_iff (hapart : Apart pm m.core top) (hcode : Respects code pm m.core top)
    (h : m.liveSyscall pm r fuel code gate top junk = .ok (ret, m')) :
    (m.core.regs.eax = num .ALLOC → HeapApart pm r m top →
      m'.core.regs ≠ { m.core.regs with eax := ret }) ∧
    (m.core.regs.eax ≠ num .REG_SYSCALL → m.core.regs.eax ≠ num .ALLOC →
      m.core.regs.eax ≠ num .FREE → ∃ fn s₁ s₂, s₁.syscLayerMapping = m.syscLayerMapping ∧
        s₁.syscLayerMapping.get s₁.mem m.core.regs.eax = .ok fn ∧
        code fn m.core.regs.edi m.core.regs.esi m.core.regs.edx s₁ = some (ret, s₂) ∧
        (m'.core.regs = { m.core.regs with eax := ret } ↔ ret = m.core.regs.eax)) := by
  obtain ⟨s₁, s₂, hmap, hsame, hcall, hback⟩ := return_cases hapart h
  -- all registers are back, so the result is only there if it was before
  have hiff : m'.core.regs = m.core.regs →
      (m'.core.regs = { m.core.regs with eax := ret } ↔ ret = m.core.regs.eax) := by
    intro hregs
    rw [hregs]
    constructor
    · intro heq
      exact (congrArg Regs.eax heq).symm
    · rintro rfl
      rfl
  constructor
  · intro hax hm heq
    obtain ⟨bs, hh⟩ := hm.heap
    have hheaders : ∀ b ∈ bs, ∀ x, b.addr ≤ x → x < b.addr + HeapBlock.sizeof →
        s₁.mem x = m.core.mem x := by
      intro b hb x hlo hhi
      refine hsame x fun hx => ?_
      obtain ⟨hlo', hhi', -⟩ := hh.block_bounds hb
      have := hm.outside x hx
      simp only [FirstFit.Block.stop] at hhi'
      omega
    have hheap : Heap r s₁.mem bs := { hh with listed := hh.listed.congr hheaders }
    obtain ⟨hret, hmem⟩ := callHandlr_alloc hheap hax hcall
    exact hret (((hiff (hback fun x hx => hmem x (hm.outside x hx))).mp heq).trans hax)
  · intro hreg halloc hfree
    obtain ⟨fn, hget, hfn⟩ := callHandlr_call hreg halloc hfree hcall
    exact ⟨fn, s₁, s₂, hmap, hget, hfn, hiff (hback (hcode _ _ _ _ _ _ _ hfn))⟩

/-! ### Two calls -/

open KernelAllocator (smallImage init)

/-- A program on a stack at 0x150000, with every page on the frame of its number, an empty heap, and
one registered function. -/
def caller (eax : Word) : Machine where
  core :=
    { regs := ⟨eax, 2, 3, 4, 5, 6, 7, 0x150000, 0x101000, 0x202⟩
      segs := ⟨0x08, 0x10, 0x10, 0x10, 0x10⟩
      mem := EntryVec.writeEntry booted.mem 0x200012 (num .FS_OPEN, 0x123456) }
  syscLayerMapping := ⟨0x200012, 1, 5⟩

/-- A function that returns its number. -/
def echo : Code := fun _ _ _ _ s => some (num .FS_OPEN, s)

theorem places_identity {a : Word} {n : Nat} (h : Places some a n x) (ha : a.toNat + n ≤ 2 ^ 32) :
    a.toNat ≤ x ∧ x < a.toNat + n := by
  obtain ⟨i, hi, hx⟩ := h
  obtain ⟨f, hf, rfl⟩ := PageMap.phys_eq_some.mp hx
  cases hf
  rw [BitVec.toNat_add, BitVec.toNat_ofNat]
  omega

theorem result_iff_echo : ∃ m', (caller (num .FS_OPEN)).liveSyscall some smallImage 1 echo 0x100000
      0x180000 (caller 0).core.regs = .ok (num .FS_OPEN, m') ∧
    m'.core.regs = { (caller (num .FS_OPEN)).core.regs with eax := num .FS_OPEN } := by
  have hrun : ((caller (num .FS_OPEN)).liveSyscall some smallImage 1 echo 0x100000 0x180000
      (caller 0).core.regs).map Prod.fst = .ok (num .FS_OPEN) := by decide +kernel
  obtain ⟨⟨ret, m'⟩, h, rfl⟩ := map_eq_ok.mp hrun
  have hapart : Apart some (caller (num .FS_OPEN)).core 0x180000 := fun x hx hx' => by
    have h₁ := places_identity hx (by decide)
    have h₂ := places_identity hx' (by decide)
    simp [caller] at h₁ h₂
    omega
  have hcode : Respects echo some (caller (num .FS_OPEN)).core 0x180000 := by
    rintro _ _ _ _ _ _ _ ⟨⟩ _ _
    rfl
  obtain ⟨_, _, _, _, _, _, hiff⟩ := (result_iff hapart hcode h).2 (by decide) (by decide) (by decide)
  exact ⟨m', h, hiff.mpr rfl⟩

/-- `ALLOC` of six bytes: the caller has the number of `ALLOC` for an address. -/
theorem result_lost : ∃ m', (caller (num .ALLOC)).liveSyscall some smallImage 3 echo 0x100000
      0x180000 (caller 0).core.regs = .ok (0x200043, m') ∧ m'.core.regs.eax = num .ALLOC := by
  have hrun : ((caller (num .ALLOC)).liveSyscall some smallImage 3 echo 0x100000 0x180000
      (caller 0).core.regs).map (fun r => (r.1, r.2.core.regs.eax)) =
      .ok (0x200043, num .ALLOC) := by decide +kernel
  obtain ⟨⟨ret, m'⟩, h, heq⟩ := map_eq_ok.mp hrun
  obtain ⟨rfl, hax⟩ := Prod.mk.inj heq
  exact ⟨m', h, hax⟩

end Machine

end SyscLayer

end RivOS
