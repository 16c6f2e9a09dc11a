import RivOS.Support.Paging

/-!
# Support — Interrupts on a 32-bit x86

The registers, a stack in memory, and what the processor does with the two on an interrupt without a
change of privilege: the frame it pushes, `PUSHA`, `POPA` and `IRETD`.  An instruction whose stack is
not mapped does not come to its end.

* `OnStack c ws`: the dwords `ws` are on the stack of `c`, the top one first; every instruction has
  one lemma that says what it does to them (`push_onStack`, `pop_onStack`, …).
* `enter_onStack`, `pusha_onStack`: the frame of an interrupted program.
* `popa_onStack`, `iretd_onStack`: such a frame is taken off again, register by register.
* `pushAll_ok`, `enter_ok`, `pusha_ok`: what comes to its end on a stack that is mapped.
-/

namespace RivOS

/-- The registers of a program, its selectors apart. -/
structure Regs where
  eax : Word
  ebx : Word
  ecx : Word
  edx : Word
  esi : Word
  edi : Word
  ebp : Word
  esp : Word
  eip : Word
  eflags : Word
deriving DecidableEq

structure Segs where
  cs : BitVec 16
  ds : BitVec 16
  es : BitVec 16
  fs : BitVec 16
  gs : BitVec 16
deriving DecidableEq

/-- A processor and the memory behind it. -/
structure Core where
  regs : Regs
  segs : Segs
  mem : Mem

namespace Core

variable (pm : PageMap) (c : Core)

def push (v : Word) : Option Core :=
  (store32 pm c.mem (c.regs.esp - 4) v).map fun m =>
    { c with regs := { c.regs with esp := c.regs.esp - 4 }, mem := m }

def pop : Option (Word × Core) :=
  (load32 pm c.mem c.regs.esp).map fun v =>
    (v, { c with regs := { c.regs with esp := c.regs.esp + 4 } })

/-- Push `ws`, the first one first. -/
def pushAll : Core → List Word → Option Core
  | c, [] => some c
  | c, w :: ws => (c.push pm w).bind fun c => pushAll c ws

/-- The dwords `PUSHA` pushes, in its order. -/
def pushaOrder (r : Regs) : List Word := [r.eax, r.ecx, r.edx, r.ebx, r.esp, r.ebp, r.esi, r.edi]

def pusha : Option Core := c.pushAll pm (pushaOrder c.regs)

/-- Pop `n` dwords, the top one first. -/
def popAll : Nat → Core → Option (List Word × Core)
  | 0, c => some ([], c)
  | n + 1, c => do
      let (w, c) ← c.pop pm
      let (ws, c) ← popAll n c
      return (w :: ws, c)

def popa : Option Core :=
  (popAll pm 8 c).bind fun
    -- what was pushed for ESP is skipped
    | ([edi, esi, ebp, _, ebx, edx, ecx, eax], c) =>
        some { c with regs := { c.regs with edi, esi, ebp, ebx, edx, ecx, eax } }
    | _ => none

def iretd : Option Core :=
  (popAll pm 3 c).bind fun
    | ([eip, cs, eflags], c) =>
        some { c with
          regs := { c.regs with eip, eflags }
          segs := { c.segs with cs := cs.setWidth 16 } }
    | _ => none

/-- VM, RF, NT, IF and TF, which an interrupt gate clears. -/
def gateFlags : Word := 0x34300

/-- The processor's part of an interrupt through a gate to `handler`. -/
def enter (cs : BitVec 16) (handler : Word) : Option Core := do
  let c' ← c.pushAll pm [c.regs.eflags, c.segs.cs.setWidth 32, c.regs.eip]
  return { c' with
    regs := { c'.regs with eip := handler, eflags := c'.regs.eflags &&& ~~~gateFlags }
    segs := { c'.segs with cs := cs } }

/-! ### The stack -/

/-- The dwords `ws` are on the stack, the top one first. -/
def OnStack (c : Core) (ws : List Word) : Prop := Words pm c.mem c.regs.esp ws

variable {pm} {c} {c' : Core} {v w : Word} {ws vs : List Word}

theorem onStack_nil : c.OnStack pm [] := trivial

/-- The stack of another core with the same memory and stack pointer. -/
theorem OnStack.congr (h : c.OnStack pm ws) (c' : Core) (hm : c'.mem = c.mem)
    (hsp : c'.regs.esp = c.regs.esp) : c'.OnStack pm ws := by
  rwa [OnStack, hm, hsp]

theorem push_eq_some (h : c.push pm v = some c') :
    c'.segs = c.segs ∧ c'.regs = { c.regs with esp := c.regs.esp - 4 } := by
  obtain ⟨m, -, rfl⟩ := Option.map_eq_some_iff.mp h
  exact ⟨rfl, rfl⟩

theorem push_onStack (h : c.push pm v = some c') (hw : c.OnStack pm ws)
    (hlen : ws.length < 1000) : c'.OnStack pm (v :: ws) := by
  obtain ⟨m, hm, rfl⟩ := Option.map_eq_some_iff.mp h
  have hsp : c.regs.esp - 4 + BitVec.ofNat 32 4 = c.regs.esp := BitVec.sub_add_cancel ..
  have hw' : Words pm c.mem (c.regs.esp - 4 + BitVec.ofNat 32 4) ws := by rwa [hsp]
  exact ⟨load32_store32 hm, hw'.store32 hm (Nat.le_refl 4) (by omega)⟩

theorem pushAll_eq_some (h : c.pushAll pm vs = some c') : c'.segs = c.segs ∧
    c'.regs = { c.regs with esp := c.regs.esp - BitVec.ofNat 32 (4 * vs.length) } := by
  induction vs generalizing c with
  | nil =>
      cases h
      exact ⟨rfl, by simp⟩
  | cons v vs ih =>
      obtain ⟨c₁, hp, h⟩ := Option.bind_eq_some_iff.mp h
      obtain ⟨hs₁, hr₁⟩ := push_eq_some hp
      obtain ⟨hs, hr⟩ := ih h
      refine ⟨hs.trans hs₁, hr.trans ?_⟩
      have hsp : c.regs.esp - 4 - BitVec.ofNat 32 (4 * vs.length) =
          c.regs.esp - BitVec.ofNat 32 (4 * (v :: vs).length) := by
        rw [List.length_cons, Nat.mul_succ, Nat.add_comm, BitVec.ofNat_add, BitVec.sub_sub]
        rfl
      rw [hr₁, hsp]

theorem pushAll_append (us vs : List Word) :
    c.pushAll pm (us ++ vs) = (c.pushAll pm us).bind fun c => c.pushAll pm vs := by
  induction us generalizing c with
  | nil => rfl
  | cons u us ih =>
      rw [List.cons_append, pushAll, pushAll, Option.bind_assoc]
      exact Option.bind_congr fun c₁ _ => ih

theorem pushAll_onStack (h : c.pushAll pm vs = some c') (hw : c.OnStack pm ws)
    (hlen : vs.length + ws.length ≤ 1000) : c'.OnStack pm (vs.reverse ++ ws) := by
  induction vs generalizing c ws with
  | nil =>
      cases h
      exact hw
  | cons v vs ih =>
      obtain ⟨c₁, hp, h⟩ := Option.bind_eq_some_iff.mp h
      rw [List.length_cons] at hlen
      have hw₁ : c₁.OnStack pm (v :: ws) := push_onStack hp hw (by omega)
      rw [List.reverse_cons, List.append_assoc, List.singleton_append]
      exact ih h hw₁ (by rw [List.length_cons]; omega)

theorem push_of_not_mem {x : Nat} (h : c.push pm v = some c')
    (hx : ¬ Places pm (c.regs.esp - 4) 4 x) : c'.mem x = c.mem x := by
  obtain ⟨m, hm, rfl⟩ := Option.map_eq_some_iff.mp h
  exact store32_of_not_mem hm hx

/-- Pushes change nothing but what is below the stack pointer. -/
theorem pushAll_of_not_mem {x : Nat} (h : c.pushAll pm vs = some c')
    (hx : ¬ Places pm (c.regs.esp - BitVec.ofNat 32 (4 * vs.length)) (4 * vs.length) x) :
    c'.mem x = c.mem x := by
  induction vs generalizing c with
  | nil =>
      cases h
      rfl
  | cons v vs ih =>
      obtain ⟨c₁, hp, h⟩ := Option.bind_eq_some_iff.mp h
      obtain ⟨-, hr⟩ := push_eq_some hp
      have hlen : (v :: vs).length = vs.length + 1 := rfl
      rw [hlen] at hx
      have hesp : c.regs.esp - 4 - BitVec.ofNat 32 (4 * vs.length) =
          c.regs.esp - BitVec.ofNat 32 (4 * (vs.length + 1)) := by
        rw [Nat.mul_succ, Nat.add_comm, BitVec.ofNat_add, BitVec.sub_sub]
        rfl
      have htop : c.regs.esp - 4 = c.regs.esp - BitVec.ofNat 32 (4 * (vs.length + 1)) +
          BitVec.ofNat 32 (4 * vs.length) := by
        rw [← hesp, BitVec.sub_add_cancel]
      rw [ih h fun hp => ?_, push_of_not_mem hp fun hp => ?_]
      · rw [htop] at hp
        exact hx (hp.mono (by omega))
      · rw [hr] at hp
        simp only [hesp] at hp
        obtain ⟨i, hi, hp⟩ := hp
        exact hx ⟨i, by omega, hp⟩

theorem pop_onStack (hw : c.OnStack pm (w :: ws)) :
    ∃ c', c.pop pm = some (w, c') ∧ c'.OnStack pm ws ∧ c'.segs = c.segs ∧ c'.mem = c.mem ∧
      c'.regs = { c.regs with esp := c.regs.esp + 4 } :=
  ⟨{ c with regs := { c.regs with esp := c.regs.esp + 4 } }, by rw [pop, hw.1]; rfl, hw.2, rfl, rfl,
    rfl⟩

theorem popAll_onStack (hw : c.OnStack pm (vs ++ ws)) :
    ∃ c', popAll pm vs.length c = some (vs, c') ∧ c'.OnStack pm ws ∧ c'.segs = c.segs ∧
      c'.mem = c.mem ∧
      c'.regs = { c.regs with esp := c.regs.esp + BitVec.ofNat 32 (4 * vs.length) } := by
  induction vs generalizing c with
  | nil => exact ⟨c, rfl, hw, rfl, rfl, by simp⟩
  | cons v vs ih =>
      obtain ⟨c₁, h₁, hw₁, hs₁, hm₁, hr₁⟩ := pop_onStack hw
      obtain ⟨c', h, hw', hs, hm, hr⟩ := ih hw₁
      refine ⟨c', ?_, hw', hs.trans hs₁, hm.trans hm₁, hr.trans ?_⟩
      · simp [popAll, h₁, h]
      · have hsp : c.regs.esp + 4 + BitVec.ofNat 32 (4 * vs.length) =
            c.regs.esp + BitVec.ofNat 32 (4 * (v :: vs).length) := by
          rw [List.length_cons, Nat.mul_succ, Nat.add_comm, BitVec.ofNat_add, BitVec.add_assoc]
          rfl
        rw [hr₁, hsp]

/-! ### Interrupt frames -/

/-- What an interrupt leaves on the stack of a program. -/
def frame (c : Core) : List Word := [c.regs.eip, c.segs.cs.setWidth 32, c.regs.eflags]

theorem enter_onStack {cs : BitVec 16} {handler : Word} (h : c.enter pm cs handler = some c') :
    c'.OnStack pm (frame c) ∧ ∃ eip eflags, c'.regs =
      { c.regs with esp := c.regs.esp - 12, eip := eip, eflags := eflags } := by
  obtain ⟨c₁, hp, h⟩ := Option.bind_eq_some_iff.mp h
  cases h
  refine ⟨(pushAll_onStack hp onStack_nil (by simp)).congr _ rfl rfl, handler,
    c₁.regs.eflags &&& ~~~gateFlags, ?_⟩
  rw [(pushAll_eq_some hp).2]
  rfl

theorem pusha_onStack (h : c.pusha pm = some c') (hw : c.OnStack pm ws) (hlen : ws.length ≤ 900) :
    c'.OnStack pm ((pushaOrder c.regs).reverse ++ ws) ∧
      c'.segs = c.segs ∧ c'.regs = { c.regs with esp := c.regs.esp - 32 } :=
  ⟨pushAll_onStack h hw (by rw [show (pushaOrder c.regs).length = 8 from rfl]; omega),
    pushAll_eq_some h⟩

/-- `POPA` takes off what `PUSHA` pushed: the general registers of `r`, and the stack pointer is
above them. -/
theorem popa_onStack {r : Regs} (hw : c.OnStack pm ((pushaOrder r).reverse ++ ws)) :
    ∃ c', c.popa pm = some c' ∧ c'.OnStack pm ws ∧ c'.segs = c.segs ∧ c'.mem = c.mem ∧
      c'.regs = { r with
        esp := c.regs.esp + 32, eip := c.regs.eip, eflags := c.regs.eflags } := by
  obtain ⟨c₈, hp, hw₈, hs, hm, hr⟩ := popAll_onStack hw
  refine ⟨{ c₈ with regs := { c₈.regs with
    edi := r.edi, esi := r.esi, ebp := r.ebp, ebx := r.ebx, edx := r.edx, ecx := r.ecx,
    eax := r.eax } }, ?_, hw₈.congr _ rfl rfl, hs, hm, ?_⟩
  · rw [popa, show 8 = (pushaOrder r).reverse.length from rfl, hp]
    rfl
  · rw [hr]
    rfl

theorem iretd_onStack {eip cs eflags : Word} (hw : c.OnStack pm ([eip, cs, eflags] ++ ws)) :
    ∃ c', c.iretd pm = some c' ∧ c'.mem = c.mem ∧
      c'.regs = { c.regs with esp := c.regs.esp + 12, eip := eip, eflags := eflags } := by
  obtain ⟨c₃, hp, -, -, hm, hr⟩ := popAll_onStack hw
  refine ⟨{ c₃ with
    regs := { c₃.regs with eip := eip, eflags := eflags }
    segs := { c₃.segs with cs := cs.setWidth 16 } }, ?_, hm, ?_⟩
  · rw [iretd, show 3 = [eip, cs, eflags].length from rfl, hp]
    rfl
  · rw [hr]
    rfl

/-! ### Whole interrupts -/

/-- The frame lies above what the program has on its stack. -/
theorem enter_frame {cs : BitVec 16} {handler : Word} (h : c.enter pm cs handler = some c')
    (hw : c.OnStack pm ws) (hlen : ws.length ≤ 900) :
    c'.OnStack pm (frame c ++ ws) ∧ c'.segs = { c.segs with cs := cs } ∧ c'.regs =
      { c.regs with esp := c.regs.esp - 12, eip := handler,
                    eflags := c.regs.eflags &&& ~~~gateFlags } := by
  obtain ⟨c₁, hp, h⟩ := Option.bind_eq_some_iff.mp h
  cases h
  obtain ⟨hsegs, hregs⟩ := pushAll_eq_some hp
  refine ⟨(pushAll_onStack hp hw (by simp only [List.length_cons, List.length_nil]; omega)).congr _
    rfl rfl, by rw [hsegs], ?_⟩
  simp only [hregs]
  rfl

theorem iretd_frame {eip cs eflags : Word} (hw : c.OnStack pm ([eip, cs, eflags] ++ ws)) :
    ∃ c', c.iretd pm = some c' ∧ c'.OnStack pm ws ∧ c'.mem = c.mem ∧
      c'.segs = { c.segs with cs := cs.setWidth 16 } ∧
      c'.regs = { c.regs with esp := c.regs.esp + 12, eip := eip, eflags := eflags } := by
  obtain ⟨c₃, hp, hw₃, hs, hm, hr⟩ := popAll_onStack hw
  refine ⟨{ c₃ with
    regs := { c₃.regs with eip := eip, eflags := eflags }
    segs := { c₃.segs with cs := cs.setWidth 16 } }, ?_, hw₃.congr _ rfl rfl, hm, ?_, ?_⟩
  · rw [iretd, show 3 = [eip, cs, eflags].length from rfl, hp]
    rfl
  · rw [hs]
  · rw [hr]
    rfl

theorem push_ok (h : pm.Maps (c.regs.esp - 4) 4) (v : Word) : ∃ c', c.push pm v = some c' := by
  obtain ⟨m, hm⟩ := h.store32 c.mem v
  exact ⟨_, by rw [push, hm]; rfl⟩

theorem pushAll_ok (vs : List Word)
    (h : pm.Maps (c.regs.esp - BitVec.ofNat 32 (4 * vs.length)) (4 * vs.length)) :
    ∃ c', c.pushAll pm vs = some c' := by
  induction vs generalizing c with
  | nil => exact ⟨c, rfl⟩
  | cons v vs ih =>
      have hlow : c.regs.esp - BitVec.ofNat 32 (4 * (v :: vs).length) =
          c.regs.esp - 4 - BitVec.ofNat 32 (4 * vs.length) := by
        rw [List.length_cons, Nat.mul_succ, Nat.add_comm, BitVec.ofNat_add, BitVec.sub_sub]
        rfl
      have htop : c.regs.esp - 4 = c.regs.esp - BitVec.ofNat 32 (4 * (v :: vs).length) +
          BitVec.ofNat 32 (4 * vs.length) := by
        rw [hlow, BitVec.sub_add_cancel]
      obtain ⟨c₁, hp⟩ := push_ok (h.part htop (by rw [List.length_cons]; omega)) v
      have hesp : c₁.regs.esp = c.regs.esp - 4 := by rw [(push_eq_some hp).2]
      have hrest : pm.Maps (c₁.regs.esp - BitVec.ofNat 32 (4 * vs.length)) (4 * vs.length) := by
        rw [hesp, ← hlow]
        exact h.part (BitVec.add_zero _).symm (by rw [List.length_cons]; omega)
      obtain ⟨c', h'⟩ := ih hrest
      exact ⟨c', by rw [pushAll, hp]; exact h'⟩

theorem enter_ok (h : pm.Maps (c.regs.esp - 12) 12) (cs : BitVec 16) (handler : Word) :
    ∃ c', c.enter pm cs handler = some c' := by
  obtain ⟨c₁, hp⟩ := pushAll_ok [c.regs.eflags, c.segs.cs.setWidth 32, c.regs.eip] h
  exact ⟨_, by rw [enter, hp]; rfl⟩

theorem pusha_ok (h : pm.Maps (c.regs.esp - 32) 32) : ∃ c', c.pusha pm = some c' :=
  pushAll_ok (pushaOrder c.regs) h

/-- An interrupt changes nothing but what is below the stack pointer. -/
theorem enter_of_not_mem {cs : BitVec 16} {handler : Word} {x : Nat}
    (h : c.enter pm cs handler = some c') (hx : ¬ Places pm (c.regs.esp - 12) 12 x) :
    c'.mem x = c.mem x := by
  obtain ⟨c₁, hp, h⟩ := Option.bind_eq_some_iff.mp h
  cases h
  have hkeep := pushAll_of_not_mem (x := x) hp
  exact hkeep hx

/-- An interrupt and `PUSHA` behind its gate. -/
theorem enter_pusha_ok (h : pm.Maps (c.regs.esp - 44) 44) (hw : c.OnStack pm ws)
    (hlen : ws.length ≤ 800) (cs : BitVec 16) (handler : Word) :
    ∃ c₁ c₂, c.enter pm cs handler = some c₁ ∧ c₁.pusha pm = some c₂ ∧
      c₂.OnStack pm ((pushaOrder { c.regs with esp := c.regs.esp - 12 }).reverse ++
        (frame c ++ ws)) ∧
      c₂.segs = { c.segs with cs := cs } ∧ c₂.regs.esp = c.regs.esp - 44 ∧
      ∀ x, ¬ Places pm (c.regs.esp - 44) 44 x → c₂.mem x = c.mem x := by
  have htop : c.regs.esp - 12 = c.regs.esp - 44 + BitVec.ofNat 32 32 := by bv_omega
  obtain ⟨c₁, h₁⟩ := enter_ok (h.part htop (Nat.le_refl 44)) cs handler
  obtain ⟨hw₁, hsegs₁, hregs₁⟩ := enter_frame h₁ hw (by omega)
  have hesp₁ : c₁.regs.esp = c.regs.esp - 12 := by rw [hregs₁]
  have hlow : c₁.regs.esp - 32 = c.regs.esp - 44 := by
    rw [hesp₁]
    bv_omega
  obtain ⟨c₂, h₂⟩ := @pusha_ok pm c₁ (by
    rw [hlow]
    exact h.part (BitVec.add_zero _).symm (by decide))
  obtain ⟨hw₂, hsegs₂, hregs₂⟩ := pusha_onStack h₂ hw₁ (by
    rw [List.length_append, show (frame c).length = 3 from rfl]
    omega)
  have horder : pushaOrder c₁.regs = pushaOrder { c.regs with esp := c.regs.esp - 12 } := by
    rw [hregs₁]
    rfl
  refine ⟨c₁, c₂, h₁, h₂, horder ▸ hw₂, hsegs₂.trans hsegs₁, ?_, fun x hx => ?_⟩
  · rw [hregs₂, ← hlow]
  · have hkeep := pushAll_of_not_mem (x := x) h₂
    rw [hkeep fun hp => hx ?_, enter_of_not_mem h₁ fun hp => hx ?_]
    · rw [htop] at hp
      exact hp.mono (Nat.le_refl 44)
    · have hp : Places pm (c₁.regs.esp - 32) 32 x := hp
      rw [hlow] at hp
      obtain ⟨i, hi, hp⟩ := hp
      exact ⟨i, by omega, hp⟩

/-- The way back to the program. -/
theorem popa_iretd_ok {r : Regs} {eip cs eflags : Word}
    (hw : c.OnStack pm ((pushaOrder r).reverse ++ ([eip, cs, eflags] ++ ws))) :
    ∃ c₁ c₂, c.popa pm = some c₁ ∧ c₁.iretd pm = some c₂ ∧ c₂.OnStack pm ws ∧ c₂.mem = c.mem ∧
      c₂.segs = { c.segs with cs := cs.setWidth 16 } ∧
      c₂.regs = { r with esp := c.regs.esp + 44, eip := eip, eflags := eflags } := by
  obtain ⟨c₁, h₁, hw₁, hsegs₁, hmem₁, hregs₁⟩ := popa_onStack hw
  obtain ⟨c₂, h₂, hw₂, hmem₂, hsegs₂, hregs₂⟩ := iretd_frame hw₁
  refine ⟨c₁, c₂, h₁, h₂, hw₂, hmem₂.trans hmem₁, hsegs₂.trans (by rw [hsegs₁]), ?_⟩
  have hesp : c.regs.esp + 32 + 12 = c.regs.esp + 44 := by bv_omega
  rw [hregs₂, hregs₁, ← hesp]

end Core

end RivOS
