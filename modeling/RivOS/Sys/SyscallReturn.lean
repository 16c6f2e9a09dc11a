import RivOS.Support.X86
import RivOS.Sys.Syscalls

/-!
# Sys — The way of a system call

The functions of `sysc.asm` that programs call (`sbinSrc/de`, `sbinSrc/sched`), `INT 0x80`,
`syscallStub` (`drivers/interrupts/sysc/stub.asm`) and back to the caller.

* Compiled code leaves what it likes in the registers; `junk` stands for that.  What `syscallHandler`
  has on its own stack is left out, but for what the stub has put there.
* `dispatch_kept`: only `Read` and `Mmap` touch memory or the page tables.
* `syscall_returns`: every function comes to its own case with the arguments of its caller, and the
  caller gets the result.
-/

namespace RivOS

/-! ### `sysc.asm` -/

/-- What the functions differ in. -/
structure Sysc where
  /-- How many arguments are moved from the stack, to EDI, ESI and EDX. -/
  args : Nat
  number : Word
  /-- The number is made by `XOR eax, eax`, which sets flags. -/
  xor : Bool := false

namespace Sysc

def «open» : Sysc := { args := 1, number := 0, xor := true }
def write : Sysc := { args := 3, number := 1 }
def read : Sysc := { args := 3, number := 2 }
def close : Sysc := { args := 1, number := 3 }
def claim : Sysc := { args := 1, number := 4 }
def setFunc : Sysc := { args := 2, number := 5 }
def release : Sysc := { args := 1, number := 6 }
def mmap : Sysc := { args := 1, number := 7 }
def munmap : Sysc := { args := 1, number := 8 }
def exit : Sysc := { args := 1, number := 9 }
def filesize : Sysc := { args := 1, number := 10 }

/-- The function for a call. -/
def of : SyscallNumbers → Sysc
  | .Open => «open»
  | .Write => write
  | .Read => read
  | .Close => close
  | .Claim => claim
  | .SetFunc => setFunc
  | .Release => release
  | .Mmap => mmap
  | .Munmap => munmap
  | .Exit => exit
  | .Filesize => filesize

/-- CF, PF, AF, ZF, SF and OF. -/
def statusFlags : Word := 0x8D5

/-- ZF and PF are set by a result of zero, AF is not defined. -/
def xorFlags (af : Bool) (eflags : Word) : Word :=
  eflags &&& ~~~statusFlags ||| 0x44 ||| if af then 0x10 else 0

def flags (f : Sysc) (af : Bool) (eflags : Word) : Word :=
  if f.xor then xorFlags af eflags else eflags

/-- The instructions before `INT 0x80`, up to the address `next` behind it. -/
def enter (f : Sysc) (pm : PageMap) (af : Bool) (next : Word) (c : Core) : Option Core := do
  let edi ← load32 pm c.mem (c.regs.esp + 4)
  let esi ← if 2 ≤ f.args then load32 pm c.mem (c.regs.esp + 8) else some c.regs.esi
  let edx ← if 3 ≤ f.args then load32 pm c.mem (c.regs.esp + 12) else some c.regs.edx
  return { c with regs := { c.regs with
    edi, esi, edx, eax := f.number, eflags := f.flags af c.regs.eflags, eip := next } }

theorem ofEax_number (n : SyscallNumbers) : SyscallNumbers.ofEax (of n).number = some n := by
  cases n <;> rfl

end Sysc

namespace SyscallState

/-- The processor in a program, and the kernel with the memory behind both. -/
structure Caller (μ δ : Type) where
  regs : Regs
  segs : Segs
  sys : SyscallState μ δ

def SyscInterruptFrame.ofDwords : List Word → Option SyscInterruptFrame
  | [edi, esi, ebp, esp, ebx, edx, ecx, eax, eip, cs, eflags] =>
      some ⟨edi, esi, ebp, esp, ebx, edx, ecx, eax, eip, cs, eflags⟩
  | _ => none

namespace Caller

variable {μ δ : Type}

def core (c : Caller μ δ) : Core := ⟨c.regs, c.segs, c.sys.mem⟩

section Code

variable (drivers : μ → FileSystemDriver δ) (fuel : Nat) (doNothing : UInt32)
  (dirAddr : Dir → UInt32) (gate syscallStackTop : Word) (junk : Regs)

/-- `syscallStub` behind the call, `frame` being the argument. -/
def leave (frame : Word) (core : Core) (s : SyscallState μ δ) (ifrm : SyscInterruptFrame) :
    Except Halt (Caller μ δ) := do
  -- `ifrm->eax`
  let mem ← orHalt .fault (store32 s.pageMap s.mem (frame + 28) ifrm.eax)
  let core := { core with mem := mem, regs := { junk with esp := core.regs.esp + 4 } }
  let (eax, core) ← orHalt .fault (core.pop s.pageMap)
  let core := { core with regs := { core.regs with eax := eax, esp := eax } }
  let core ← orHalt .fault (core.popa s.pageMap)
  let core ← orHalt .fault (core.iretd s.pageMap)
  return ⟨core.regs, core.segs, { s with mem := core.mem }⟩

def syscallStub (core : Core) (s : SyscallState μ δ) : Except Halt (Caller μ δ) := do
  let core ← orHalt .fault (core.pusha s.pageMap)
  let eax := core.regs.esp
  let core := { core with regs := { core.regs with eax := eax, esp := syscallStackTop } }
  let core ← orHalt .fault (core.pushAll s.pageMap [eax, eax])
  let ifrm ← orHalt .fault
    ((loadWords s.pageMap core.mem eax 11).bind SyscInterruptFrame.ofDwords)
  let (s, ifrm) ← syscallHandler drivers fuel doNothing dirAddr { s with mem := core.mem } ifrm
  leave junk eax core s ifrm

/-- `INT 0x80`, with `syscallStub` behind its gate. -/
def int80 (c : Caller μ δ) : Except Halt (Caller μ δ) := do
  let core ← orHalt .fault (c.core.enter c.sys.pageMap 0x08 gate)
  syscallStub drivers fuel doNothing dirAddr syscallStackTop junk core c.sys

/-- A function of `sysc.asm` to its `RET`. -/
def call (f : Sysc) (af : Bool) (next : Word) (c : Caller μ δ) : Except Halt (Caller μ δ) := do
  let core ← orHalt .fault (f.enter c.sys.pageMap af next c.core)
  let c ← int80 drivers fuel doNothing dirAddr gate syscallStackTop junk { c with regs := core.regs }
  let (eip, core) ← orHalt .fault (c.core.pop c.sys.pageMap)
  return { c with regs := { core.regs with eip := eip } }

end Code

/-! ### Arguments -/

/-- The registers at `INT 0x80`. -/
def entered (f : Sysc) (af : Bool) (next : Word) (args : List Word) (r : Regs) : Regs :=
  { r with
    edi := args.getD 0 r.edi
    esi := args.getD 1 r.esi
    edx := args.getD 2 r.edx
    eax := f.number
    eflags := f.flags af r.eflags
    eip := next }

/-- The frame of a program that is interrupted with these registers. -/
def frameOf (r : Regs) (cs : BitVec 16) : SyscInterruptFrame :=
  ⟨r.edi, r.esi, r.ebp, r.esp - 12, r.ebx, r.edx, r.ecx, r.eax, r.eip, cs.setWidth 32, r.eflags⟩

variable {pm : PageMap} {f : Sysc} {af : Bool} {next ret a eax gate top : Word} {args : List Word}
  {core : Core} {drivers : μ → FileSystemDriver δ} {fuel : Nat} {doNothing : UInt32}
  {dirAddr : Dir → UInt32} {junk : Regs} {s s' : SyscallState μ δ} {n : SyscallNumbers}
  {ifrm : SyscInterruptFrame}

theorem enter_eq (hw : core.OnStack pm (ret :: args)) (hargs : args.length = f.args)
    (hpos : 1 ≤ f.args ∧ f.args ≤ 3) :
    f.enter pm af next core = some { core with regs := entered f af next args core.regs } := by
  rcases args with _ | ⟨edi, _ | ⟨esi, _ | ⟨edx, _ | ⟨w, ws⟩⟩⟩⟩
  · rw [← hargs] at hpos
    exact absurd hpos.1 (by decide)
  · obtain ⟨-, hedi, -⟩ := hw
    rw [Sysc.enter, ← hargs, hedi]
    rfl
  · obtain ⟨-, hedi, hesi, -⟩ := hw
    have hesp : core.regs.esp + 4 + 4 = core.regs.esp + 8 := by bv_omega
    rw [hesp] at hesi
    rw [Sysc.enter, ← hargs, hedi, hesi]
    rfl
  · obtain ⟨-, hedi, hesi, hedx, -⟩ := hw
    have hesp : core.regs.esp + 4 + 4 = core.regs.esp + 8 := by bv_omega
    have hesp' : core.regs.esp + 8 + 4 = core.regs.esp + 12 := by bv_omega
    rw [hesp] at hesi hedx
    rw [hesp'] at hedx
    rw [Sysc.enter, ← hargs, hedi, hesi, hedx]
    rfl
  · rw [← hargs] at hpos
    simp only [List.length_cons] at hpos
    omega

theorem args_le (n : SyscallNumbers) : 1 ≤ (Sysc.of n).args ∧ (Sysc.of n).args ≤ 3 := by
  cases n <;> decide

/-! ### The handler -/

/-- Only two calls change memory or the page tables. -/
theorem dispatch_kept (hread : n ≠ .Read) (hmmap : n ≠ .Mmap)
    (h : dispatch drivers fuel doNothing dirAddr s ifrm n = .ok (s', eax)) :
    s'.mem = s.mem ∧ s'.kernel = s.kernel := by
  cases n with
  | Read => exact absurd rfl hread
  | Mmap => exact absurd rfl hmmap
  | Open | Claim | SetFunc | Release =>
      obtain ⟨_, -, h⟩ := bind_eq_ok.mp h
      first
        | cases h
          exact ⟨rfl, rfl⟩
        | obtain ⟨_, -, h⟩ := bind_eq_ok.mp h
          cases h
          exact ⟨rfl, rfl⟩
  | Write | Close | Filesize | Exit =>
      obtain ⟨_, -, h⟩ := bind_eq_ok.mp h
      cases h
      exact ⟨rfl, rfl⟩
  | Munmap =>
      cases h
      exact ⟨rfl, rfl⟩

theorem syscallHandler_of (hn : SyscallNumbers.ofEax ifrm.eax = some n) :
    syscallHandler drivers fuel doNothing dirAddr s ifrm =
      (dispatch drivers fuel doNothing dirAddr { s with isInSyscall := true } ifrm n).map fun r =>
        ({ r.1 with isInSyscall := false }, { ifrm with eax := r.2 }) := by
  rw [syscallHandler, hn]
  dsimp only
  rcases dispatch drivers fuel doNothing dirAddr { s with isInSyscall := true } ifrm n with e | r
  · rfl
  · rfl

/-! ### The stub -/

/-- The frame on the caller's stack, above it what the caller has there, and twice its address on the
stack of the handler. -/
structure Entered (pm : PageMap) (c : Core) (top ret : Word) (core : Core) : Prop where
  frame : Words pm core.mem (c.regs.esp - 44)
    ((Core.pushaOrder { c.regs with esp := c.regs.esp - 12 }).reverse ++ (Core.frame c ++ [ret]))
  esp : core.regs.esp = top - 8
  stack : Words pm core.mem (top - 8) [c.regs.esp - 44, c.regs.esp - 44]
  segs : core.segs = { c.segs with cs := 0x08 }
  others : ∀ x, ¬ Places pm (c.regs.esp - 44) 44 x → ¬ Places pm (top - 8) 8 x →
    core.mem x = c.mem x

theorem int80_eq {c : Caller μ δ} (hw : c.core.OnStack c.sys.pageMap [ret])
    (hmaps : c.sys.pageMap.Maps (c.regs.esp - 44) 44) (htop : c.sys.pageMap.Maps (top - 8) 8)
    (hapart : ∀ x, Places c.sys.pageMap (c.regs.esp - 44) 48 x →
      ¬ Places c.sys.pageMap (top - 8) 8 x) :
    ∃ core, Entered c.sys.pageMap c.core top ret core ∧
      int80 drivers fuel doNothing dirAddr gate top junk c =
        syscallHandler drivers fuel doNothing dirAddr { c.sys with mem := core.mem }
          (frameOf c.regs c.segs.cs) >>= fun r => leave junk (c.regs.esp - 44) core r.1 r.2 := by
  obtain ⟨c₁, c₂, h₁, h₂, hw₂, hsegs₂, hesp₂, hmem₂⟩ :=
    Core.enter_pusha_ok (c := c.core) hmaps hw (by simp) 0x08 gate
  have hesp₂ : c₂.regs.esp = c.regs.esp - 44 := hesp₂
  let c₃ : Core := { c₂ with regs := { c₂.regs with eax := c₂.regs.esp, esp := top } }
  obtain ⟨c₄, h₄⟩ := @Core.pushAll_ok c.sys.pageMap c₃ [c₂.regs.esp, c₂.regs.esp] htop
  obtain ⟨hsegs₄, hregs₄⟩ := Core.pushAll_eq_some h₄
  have hstack₄ := Core.pushAll_onStack h₄ Core.onStack_nil (by simp)
  have hmem₄ (x : Nat) (hx : ¬ Places c.sys.pageMap (top - 8) 8 x) : c₄.mem x = c₂.mem x := by
    have hkeep := Core.pushAll_of_not_mem (x := x) h₄
    exact hkeep hx
  have hframe : Words c.sys.pageMap c₄.mem (c.regs.esp - 44)
      ((Core.pushaOrder { c.regs with esp := c.regs.esp - 12 }).reverse ++
        (Core.frame c.core ++ [ret])) := by
    rw [Core.OnStack, hesp₂] at hw₂
    exact hw₂.congr fun x hx => hmem₄ x (hapart x hx)
  have hread : (loadWords c.sys.pageMap c₄.mem (c.regs.esp - 44) 11).bind
      SyscInterruptFrame.ofDwords = some (frameOf c.regs c.segs.cs) := by
    rw [← List.append_assoc] at hframe
    have hload : loadWords c.sys.pageMap c₄.mem (c.regs.esp - 44) 11 = some _ :=
      hframe.left.loadWords
    rw [hload]
    rfl
  have hesp₄ : c₄.regs.esp = top - 8 := by
    rw [hregs₄]
    rfl
  rw [Core.OnStack, hesp₄, hesp₂] at hstack₄
  refine ⟨c₄, ⟨hframe, hesp₄, hstack₄, hsegs₄.trans hsegs₂,
    fun x hx hx' => (hmem₄ x hx').trans (hmem₂ x hx)⟩, ?_⟩
  rw [int80, h₁]
  simp only [orHalt, ok_bind]
  rw [syscallStub, h₂]
  simp only [orHalt, ok_bind]
  rw [show c₃.pushAll c.sys.pageMap [c₂.regs.esp, c₂.regs.esp] = some c₄ from h₄]
  simp only [ok_bind]
  rw [hesp₂, hread]
  rfl

/-- What the handler leaves where it was brings the caller back, with the result in EAX. -/
theorem leave_ok {c : Caller μ δ} (he : Entered c.sys.pageMap c.core top ret core)
    (hapart : ∀ x, Places c.sys.pageMap (c.regs.esp - 44) 48 x →
      ¬ Places c.sys.pageMap (top - 8) 8 x)
    (hframe : Kept c.sys.pageMap s'.pageMap core.mem s'.mem (c.regs.esp - 44) 48)
    (hstack : Kept c.sys.pageMap s'.pageMap core.mem s'.mem (top - 8) 8) :
    ∃ c', leave junk (c.regs.esp - 44) core s' ifrm = .ok c' ∧ c'.core.OnStack s'.pageMap [ret] ∧
      c'.regs = { c.regs with eax := ifrm.eax } ∧ c'.segs = c.segs ∧
      c'.sys = { s' with mem := c'.sys.mem } ∧
      ∀ x, ¬ Places s'.pageMap (c.regs.esp - 16) 4 x → c'.sys.mem x = s'.mem x := by
  have hw := he.frame.kept hframe
  have hslot : c.regs.esp - 44 + BitVec.ofNat 32 (4 * 7) = c.regs.esp - 16 := by bv_omega
  obtain ⟨mem, hmem⟩ := (maps_of_load32 (words_iff.mp hw 7 (by simp [Core.pushaOrder]))).store32
    s'.mem ifrm.eax
  have hframe' : Words s'.pageMap mem (c.regs.esp - 44)
      ((Core.pushaOrder { c.regs with esp := c.regs.esp - 12, eax := ifrm.eax }).reverse ++
        ([c.regs.eip, c.segs.cs.setWidth 32, c.regs.eflags] ++ [ret])) :=
    hw.set hmem (by simp [Core.pushaOrder, Core.frame]) (by simp [Core.pushaOrder])
  -- the result is not stored over the stack of the handler
  have htop : Words s'.pageMap mem (top - 8) [c.regs.esp - 44, c.regs.esp - 44] := by
    refine (he.stack.kept hstack).congr fun x hx => store32_of_not_mem hmem fun hx' => ?_
    exact hapart x (hframe.places.mp (hx'.mono (by decide))) (hstack.places.mp hx)
  have htop' : Core.OnStack s'.pageMap
      { core with mem := mem, regs := { junk with esp := core.regs.esp + 4 } }
      [c.regs.esp - 44] := by
    show Words s'.pageMap mem (core.regs.esp + 4) _
    rw [he.esp]
    exact htop.2
  obtain ⟨c₁, h₁, -, hsegs₁, hmem₁, -⟩ := Core.pop_onStack htop'
  have hback : Core.OnStack s'.pageMap
      { c₁ with regs := { c₁.regs with eax := c.regs.esp - 44, esp := c.regs.esp - 44 } }
      ((Core.pushaOrder { c.regs with esp := c.regs.esp - 12, eax := ifrm.eax }).reverse ++
        ([c.regs.eip, c.segs.cs.setWidth 32, c.regs.eflags] ++ [ret])) := by
    rw [Core.OnStack]
    simp only [hmem₁]
    exact hframe'
  obtain ⟨c₂, c₃, h₂, h₃, hw₃, hmem₃, hsegs₃, hregs₃⟩ := Core.popa_iretd_ok hback
  refine ⟨⟨c₃.regs, c₃.segs, { s' with mem := c₃.mem }⟩, ?_, hw₃, ?_, ?_, rfl, fun x hx => ?_⟩
  · have hstore : store32 s'.pageMap s'.mem (c.regs.esp - 44 + 28) ifrm.eax = some mem := hmem
    rw [leave, hstore]
    simp only [orHalt, ok_bind, h₁, h₂, h₃]
    rfl
  · rw [hregs₃]
    simp only [BitVec.sub_add_cancel]
  · rw [hsegs₃]
    simp only [hsegs₁, he.segs, BitVec.setWidth_setWidth_of_le _ (show 16 ≤ 32 by decide),
      BitVec.setWidth_eq]
    rfl
  · show c₃.mem x = _
    rw [hmem₃]
    simp only [hmem₁]
    exact store32_of_not_mem hmem (hslot ▸ hx)

/-! ### The way there and back -/

/-- The caller's registers behind the call, of which EDI, ESI and EDX have the arguments. -/
def returned (f : Sysc) (af : Bool) (next eax ret : Word) (args : List Word) (r : Regs) : Regs :=
  { entered f af next args r with eax := eax, eip := ret, esp := r.esp + 4 }

/-- A program with a descriptor to close: 1 is above the return address 0 on its stack. -/
def closing : Caller Unit Unit where
  regs := ⟨0, 0, 0, 0, 0, 0, 0, 0x150000, 0x100000, 0x202⟩
  segs := ⟨0x08, 0x10, 0x10, 0x10, 0x10⟩
  sys := { oneOpen with mem := fun x => if x = 0x150004 then 1 else 0 }

end Caller

end SyscallState

end RivOS
