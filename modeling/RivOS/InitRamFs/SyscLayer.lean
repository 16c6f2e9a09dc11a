import Mathlib.Data.List.Perm.Subperm
import RivOS.Gen.Vec
import RivOS.Support.Runs

/-!
# InitRamFs — Live system calls

`initramfs/sysclayer.cpp`: what drivers ask of the kernel through `INT 0x30`, and the functions they
register for one another.  A registered function is its address; that a call returns what the function
returns is `Return.call`.

* `Held`, `registered`: what a history says of pointers and of functions.
* `Inv`: what every run keeps in which memory is freed and written as C asks for (`WellUsed`).
* `registry`: in such a run the map has what was registered last, for numbers of drivers only.
* `registry_overwritten`: `FREE` of any address clears the byte five below it, and that may be one of
  a registered function's.
-/

namespace RivOS

/-- The frame `liveSyscStub` hands on, as it lies in memory. -/
structure SyscInterruptFrame where
  edi : Word
  esi : Word
  ebp : Word
  esp : Word
  ebx : Word
  edx : Word
  ecx : Word
  eax : Word
  eip : Word
  cs : Word
  eflags : Word
deriving DecidableEq

inductive LiveSyscNumbers where
  -- predefined, by the kernel itself
  | REG_SYSCALL
  | REG_FS
  | ALLOC
  | FREE
  | KRN_SYSC_END_SPEC
  | IO_SERIAL_WRITE
  | IO_ICTR_WRITECAT
  | IO_ICTR_SETCURSPOS
  | IO_ICTR_CLS
  | IO_GPU_GETKIND
  | IO_GPU_GETCOMMSTRUCT
  | IO_MONITOR_GETMONITORCOUNT
  | IO_MONITOR_GETMONITORINFO
  | STORAGE_GETDRIVES
  | STORAGE_DRIVESEL
  | STORAGE_READSECTOR
  | STORAGE_WRITESECTOR
  | FS_OPEN
  | FS_WRITE
  | FS_READ
  | FS_CLOSE
  | SIZESPEC

/-- The numbers count up from 0. -/
def LiveSyscNumbers.num (n : LiveSyscNumbers) : Word := BitVec.ofNat 32 n.ctorIdx

/-- `return`: a value, or the call of a registered function, whose value it is then. -/
inductive Return where
  | value (v : Word)
  | call (fn p1 p2 p3 : Word)
deriving DecidableEq

/-- The memory, and `syscLayerMapping`. -/
structure SyscLayer where
  syscLayerMapping : EntryVec
  mem : Mem

namespace SyscLayer

open KernelAllocator (alloc free)
open LiveSyscNumbers (num)

variable (r : HeapRegion) (fuel : Nat)

/-- `if (syscLayerMapping.exists(n)) syscLayerMapping.rmkey(n);` -/
def unregister (s : SyscLayer) (n : Word) : Except Halt SyscLayer :=
  if s.syscLayerMapping.exists s.mem n then
    (s.syscLayerMapping.rmkey s.mem n).map fun (v, m) => ⟨v, m⟩
  else .ok s

def register (s : SyscLayer) (n fn : Word) : Except Halt SyscLayer := do
  let s ← s.unregister n
  let (v, m) ← s.syscLayerMapping.pushBack r fuel (n, fn) s.mem
  return ⟨v, m⟩

def liveSyscHandlr (frame : SyscInterruptFrame) (s : SyscLayer) :
    Except Halt (Return × SyscLayer) :=
  if frame.eax = num .REG_SYSCALL then
    if frame.edi ≥ num .SIZESPEC ∨ frame.edi < num .KRN_SYSC_END_SPEC then .ok (.value 0, s)
    else (s.register r fuel frame.edi frame.esi).map fun s => (.value 0, s)
  else if frame.eax = num .ALLOC then
    (orHalt .undefined (alloc r frame.edi.toNat fuel s.mem)).map fun (p, m) =>
      (.value (BitVec.ofNat 32 (p.getD 0)), { s with mem := m })
  else if frame.eax = num .FREE then
    .ok (.value 0, { s with mem := free frame.edi.toNat s.mem })
  else if frame.eax ≥ num .SIZESPEC then kpanic "Invalid syscall in driver"
  else (s.syscLayerMapping.get s.mem frame.eax).map fun fn =>
    (.call fn frame.edi frame.esi frame.edx, s)

/-! ### Runs -/

/-- A system call with what it returned, or a byte written by the code of a driver. -/
inductive Event where
  | sysc (frame : SyscInterruptFrame) (ret : Return)
  | write (x : Nat) (w : UInt8)

inductive Step (r : HeapRegion) (s : SyscLayer) : Event → SyscLayer → Prop where
  | sysc {frame : SyscInterruptFrame} {ret : Return} {s' : SyscLayer} (fuel : Nat)
      (h : liveSyscHandlr r fuel frame s = .ok (ret, s')) : Step r s (.sysc frame ret) s'
  | write {x : Nat} {w : UInt8} :
      Step r s (.write x w) { s with mem := Function.update s.mem x w }

/-- What one event does to the pointers drivers hold, each with its number of bytes. -/
def hold (held : Nat → Option Nat) : Event → Nat → Option Nat
  | .sysc frame (.value v) =>
      if frame.eax = num .ALLOC ∧ v ≠ 0 then Function.update held v.toNat (some frame.edi.toNat)
      else if frame.eax = num .FREE then Function.update held frame.edi.toNat none
      else held
  | _ => held

/-- The pointers drivers hold: what `ALLOC` returned and `FREE` has not got. -/
def held (es : List Event) : Nat → Option Nat := es.foldl hold fun _ => none

/-- The numbers a driver may register. -/
def InRange (n : Word) : Prop := num .KRN_SYSC_END_SPEC ≤ n ∧ n < num .SIZESPEC

instance (n : Word) : Decidable (InRange n) := inferInstanceAs (Decidable (_ ∧ _))

/-- The function last registered for a number. -/
def registered (es : List Event) (n : Word) : Option Word :=
  es.reverse.findSome? fun
    | .sysc frame _ =>
        if frame.eax = num .REG_SYSCALL ∧ frame.edi = n ∧ InRange n then some frame.esi else none
    | .write _ _ => none

/-- `FREE` gets pointers that are held, drivers write to what they hold or outside the heap, and no
request is larger than the heap. -/
def WellUsed (r : HeapRegion) (es : List Event) : Prop :=
  Along (fun pre e =>
    match e with
    | .sysc frame _ =>
        (frame.eax = num .ALLOC → frame.edi.toNat ≤ r.heapEnd - r.heapStart) ∧
        (frame.eax = num .FREE → (held pre frame.edi.toNat).isSome)
    | .write x _ => x < r.heapStart ∨ r.heapEnd ≤ x ∨
        ∃ p n, held pre p = some n ∧ p ≤ x ∧ x < p + n) es

variable {r} {fuel} {s s' : SyscLayer} {es : List Event} {e : Event} {n fn : Word}
  {entries : List Entry} {frame : SyscInterruptFrame} {ret : Return} {x : Nat}

open EntryVec (Holds Owns)
open KernelAllocator (Tenancy Keeps)

@[simp] theorem held_concat : held (es ++ [e]) = hold (held es) e := by
  rw [held, List.foldl_append]
  rfl

theorem registered_concat_sysc : registered (es ++ [.sysc frame ret]) n =
    if frame.eax = num .REG_SYSCALL ∧ frame.edi = n ∧ InRange n then some frame.esi
    else registered es n := by
  by_cases hc : frame.eax = num .REG_SYSCALL ∧ frame.edi = n ∧ InRange n <;>
    simp [registered, hc]

theorem registered_concat_write {w : UInt8} :
    registered (es ++ [.write x w]) n = registered es n := by
  simp [registered]

/-! ### The entries -/

/-- What the map has to hold after `es`. -/
structure Lists (es : List Event) (entries : List Entry) : Prop where
  nodup : (AssocVec.keys entries).Nodup
  range : ∀ n ∈ AssocVec.keys entries, InRange n
  find : ∀ n, AssocVec.find entries n = registered es n

/-- There are seventeen numbers to register. -/
theorem Lists.length_le (h : Lists es entries) : entries.length ≤ 17 := by
  have hsub : AssocVec.keys entries ⊆ (List.range' 4 17).map (BitVec.ofNat 32) := by
    intro n hn
    obtain ⟨hlo, hhi⟩ := h.range n hn
    refine List.mem_map.mpr ⟨n.toNat, List.mem_range'_1.mpr ?_, by simp⟩
    rw [BitVec.le_def] at hlo
    rw [BitVec.lt_def] at hhi
    exact ⟨hlo, hhi⟩
  have hlen := (h.nodup.subperm hsub).length_le
  simpa [AssocVec.keys] using hlen

theorem Lists.register (h : Lists es entries) (hax : frame.eax = num .REG_SYSCALL)
    (hr : InRange frame.edi) : Lists (es ++ [.sysc frame ret])
      (AssocVec.erase entries frame.edi ++ [(frame.edi, frame.esi)]) := by
  have hnot : frame.edi ∉ AssocVec.keys (AssocVec.erase entries frame.edi) := by
    rw [AssocVec.keys_erase]
    exact fun hmem => (h.nodup.mem_erase_iff.mp hmem).1 rfl
  refine ⟨AssocVec.nodup_concat (AssocVec.nodup_erase h.nodup) hnot, fun n hn => ?_, fun n => ?_⟩
  · rw [AssocVec.keys, List.map_append, List.mem_append] at hn
    rcases hn with hn | hn
    · have hn : n ∈ AssocVec.keys (AssocVec.erase entries frame.edi) := hn
      rw [AssocVec.keys_erase] at hn
      exact h.range n (List.mem_of_mem_erase hn)
    · obtain rfl := List.mem_singleton.mp hn
      exact hr
  · rw [AssocVec.find_concat hnot, AssocVec.find_erase h.nodup, registered_concat_sysc]
    by_cases hn : n = frame.edi
    · subst hn
      rw [if_pos rfl, if_pos ⟨hax, rfl, hr⟩]
    · rw [if_neg hn, if_neg hn, if_neg fun hc => hn hc.2.1.symm, h.find]

/-- Other calls leave it as it is. -/
theorem Lists.other (h : Lists es entries)
    (hno : frame.eax = num .REG_SYSCALL → ¬ InRange frame.edi) :
    Lists (es ++ [.sysc frame ret]) entries where
  nodup := h.nodup
  range := h.range
  find n := by
    rw [registered_concat_sysc, h.find]
    split
    · rename_i hc
      exact absurd hc.2.2 (hc.2.1 ▸ hno hc.1)
    · rfl

/-! ### One event -/

structure Inv (r : HeapRegion) (es : List Event) (s : SyscLayer) : Prop where
  owns : Owns r s.mem s.syscLayerMapping (held es)
  capacity : s.syscLayerMapping.capacity ≤ 34
  entries : ∃ entries, Holds s.mem s.syscLayerMapping entries ∧ Lists es entries

theorem unregister_owns {others : Nat → Option Nat} (ho : Owns r s.mem s.syscLayerMapping others)
    (hh : Holds s.mem s.syscLayerMapping entries) (h : s.unregister n = .ok s') :
    Owns r s'.mem s'.syscLayerMapping others ∧
      Holds s'.mem s'.syscLayerMapping (AssocVec.erase entries n) ∧
      s'.syscLayerMapping.capacity = s.syscLayerMapping.capacity := by
  rw [unregister] at h
  split at h
  · obtain ⟨⟨v, m⟩, hrm, rfl⟩ := map_eq_ok.mp h
    obtain ⟨ho', hh', -, hcap⟩ := EntryVec.rmkey_owns ho hh hrm
    rw [Map.rmkey_entries] at hh'
    exact ⟨ho', hh', hcap⟩
  · rename_i hno
    cases h
    rw [EntryVec.exists_eq hh, Map.exists_iff] at hno
    have hsame : AssocVec.erase entries n = entries := by
      refine List.eraseP_of_forall_not fun e he hk => hno ?_
      rw [decide_eq_true_eq] at hk
      exact hk ▸ List.mem_map_of_mem he
    rw [hsame]
    exact ⟨ho, hh, rfl⟩

theorem Inv.register (hi : Inv r es s) (hax : frame.eax = num .REG_SYSCALL)
    (hr : InRange frame.edi) (h : s.register r fuel frame.edi frame.esi = .ok s') :
    Inv r (es ++ [.sysc frame (.value 0)]) s' := by
  obtain ⟨entries, hh, hl⟩ := hi.entries
  obtain ⟨s₁, hun, h⟩ := bind_eq_ok.mp h
  obtain ⟨⟨v, m⟩, hpush, h⟩ := bind_eq_ok.mp h
  cases h
  obtain ⟨ho₁, hh₁, hcap₁⟩ := unregister_owns hi.owns hh hun
  have hlen : s₁.syscLayerMapping.len ≤ 17 := by
    rw [hh₁.len]
    exact Nat.le_trans List.eraseP_sublist.length_le hl.length_le
  have hcap := hi.capacity
  have hsmall : s₁.syscLayerMapping.capacity * 2 * EntryVec.entrySize ≤
      r.heapEnd - r.heapStart := by
    have := r.size
    simp only [EntryVec.entrySize]
    omega
  obtain ⟨ho, hh, -, hcap'⟩ := EntryVec.pushBack_owns ho₁ hh₁ hsmall hpush
  have hheld : held (es ++ [.sysc frame (.value 0)]) = held es := by
    rw [held_concat, hold, if_neg fun hc => hc.2 rfl, hax, if_neg (by decide)]
  refine ⟨hheld ▸ ho, ?_, _, hh, hl.register hax hr⟩
  show v.capacity ≤ 34
  omega

theorem Inv.alloc {q : Option Nat} {m : Mem} (hi : Inv r es s) (hax : frame.eax = num .ALLOC)
    (hsmall : frame.edi.toNat ≤ r.heapEnd - r.heapStart)
    (h : KernelAllocator.alloc r frame.edi.toNat fuel s.mem = some (q, m)) :
    Inv r (es ++ [.sysc frame (.value (BitVec.ofNat 32 (q.getD 0)))]) { s with mem := m } := by
  obtain ⟨entries, hh, hl⟩ := hi.entries
  have hother : Lists (es ++ [.sysc frame (.value (BitVec.ofNat 32 (q.getD 0)))]) entries :=
    hl.other fun hreg => absurd (hax.symm.trans hreg) (by decide)
  rcases hi.owns.tenancy.alloc hsmall h with ⟨rfl, rfl⟩ | ⟨p, rfl, hp, ht, hkeep⟩
  · have hheld : held (es ++ [.sysc frame (.value (BitVec.ofNat 32 ((none : Option Nat).getD 0)))]) =
        held es := by
      rw [held_concat, hold, if_neg fun hc => hc.2 rfl, hax, if_neg (by decide)]
    exact ⟨hheld ▸ hi.owns, hi.capacity, entries, hh, hother⟩
  -- a payload of its own, so the map's array keeps its elements
  · have hne : p ≠ s.syscLayerMapping.arr := by
      rintro rfl
      rw [Function.update_self] at hp
      cases hp
    have hbounds := ht.bounds (Function.update_self ..)
    have hmem := r.memory
    have hword : (BitVec.ofNat 32 p).toNat = p := by
      rw [BitVec.toNat_ofNat, Nat.mod_eq_of_lt (by omega)]
    have hnull : BitVec.ofNat 32 p ≠ 0 := by
      intro hz
      have hz := congrArg BitVec.toNat hz
      rw [hword] at hz
      have : (0 : Word).toNat = 0 := rfl
      omega
    have hheld : held (es ++ [.sysc frame (.value (BitVec.ofNat 32 ((some p).getD 0)))]) =
        Function.update (held es) p (some frame.edi.toNat) := by
      rw [held_concat, hold, Option.getD_some, if_pos ⟨hax, hnull⟩, hword]
    rw [Function.update_comm hne.symm] at ht
    refine ⟨hheld ▸ ⟨?_, ht, hi.owns.fits, hi.owns.pos⟩, hi.capacity, entries,
      hh.congr fun x hlo hhi => ?_, hother⟩
    · rw [Function.update_of_ne (Ne.symm hne)]
      exact hi.owns.alone
    · have hfits := hi.owns.fits
      refine hkeep _ _ x (Function.update_self ..) hlo ?_
      simp only [EntryVec.entrySize] at hhi ⊢
      omega

theorem Inv.free (hi : Inv r es s) (hax : frame.eax = num .FREE)
    (hheld : (held es frame.edi.toNat).isSome) :
    Inv r (es ++ [.sysc frame (.value 0)])
      { s with mem := KernelAllocator.free frame.edi.toNat s.mem } := by
  obtain ⟨entries, hh, hl⟩ := hi.entries
  obtain ⟨n, hn⟩ := Option.isSome_iff_exists.mp hheld
  have hne : frame.edi.toNat ≠ s.syscLayerMapping.arr := by
    intro heq
    rw [heq, hi.owns.alone] at hn
    cases hn
  have hp : Function.update (held es) s.syscLayerMapping.arr
      (some (s.syscLayerMapping.capacity * EntryVec.entrySize)) frame.edi.toNat = some n := by
    rw [Function.update_of_ne hne, hn]
  obtain ⟨ht, hkeep⟩ := hi.owns.tenancy.free hp
  have hafter : held (es ++ [.sysc frame (.value 0)]) =
      Function.update (held es) frame.edi.toNat none := by
    rw [held_concat, hold, if_neg fun hc => hc.2 rfl, if_pos hax]
  rw [Function.update_comm hne.symm] at ht
  refine ⟨hafter ▸ ⟨?_, ht, hi.owns.fits, hi.owns.pos⟩, hi.capacity, entries,
    hh.congr fun x hlo hhi => ?_, hl.other fun hreg => absurd (hax.symm.trans hreg) (by decide)⟩
  · rw [Function.update_of_ne (Ne.symm hne)]
    exact hi.owns.alone
  · have hfits := hi.owns.fits
    refine hkeep _ _ x (Function.update_self ..) hlo ?_
    simp only [EntryVec.entrySize] at hhi ⊢
    omega

/-- A byte written where drivers may write. -/
theorem Inv.write {w : UInt8} (hi : Inv r es s)
    (hx : x < r.heapStart ∨ r.heapEnd ≤ x ∨ ∃ p n, held es p = some n ∧ p ≤ x ∧ x < p + n) :
    Inv r (es ++ [.write x w]) { s with mem := Function.update s.mem x w } := by
  obtain ⟨entries, hh, hl⟩ := hi.entries
  have hlists : Lists (es ++ [.write x w]) entries :=
    ⟨hl.nodup, hl.range, fun n => by rw [registered_concat_write, hl.find]⟩
  have hheld : held (es ++ [.write x w]) = held es := held_concat
  have harr := hi.owns.tenancy.bounds (Function.update_self ..)
  have hfits := hi.owns.fits
  have hsame : ∀ y, y ≠ x → Function.update s.mem x w y = s.mem y :=
    fun y hy => Function.update_of_ne hy ..
  -- the byte is in no header, and none of the map's
  suffices hboth : Tenancy r (Function.update s.mem x w) (Function.update (held es)
      s.syscLayerMapping.arr (some (s.syscLayerMapping.capacity * EntryVec.entrySize))) ∧
      ¬ (s.syscLayerMapping.arr ≤ x ∧
        x < s.syscLayerMapping.arr + s.syscLayerMapping.capacity * EntryVec.entrySize) by
    refine ⟨hheld ▸ ⟨hi.owns.alone, hboth.1, hfits, hi.owns.pos⟩, hi.capacity, entries,
      hh.congr fun y hlo hhi => hsame y ?_, hlists⟩
    rintro rfl
    refine hboth.2 ⟨hlo, ?_⟩
    simp only [EntryVec.entrySize] at hhi ⊢
    omega
  by_cases hheap : x < r.heapStart ∨ r.heapEnd ≤ x
  · refine ⟨hi.owns.tenancy.of_headers fun bs hb b hmem y hy => hsame y ?_, by omega⟩
    obtain ⟨hlo, hhi, -⟩ := hb.block_bounds hmem
    simp only [FirstFit.Block.InHeader, FirstFit.Block.payload, FirstFit.Block.stop] at hy hhi
    omega
  · obtain ⟨p, n, hp, hlo, hhi⟩ := (hx.resolve_left fun h => hheap (.inl h)).resolve_left
      fun h => hheap (.inr h)
    have hne : p ≠ s.syscLayerMapping.arr := by
      rintro rfl
      rw [hi.owns.alone] at hp
      cases hp
    have hp : Function.update (held es) s.syscLayerMapping.arr
        (some (s.syscLayerMapping.capacity * EntryVec.entrySize)) p = some n := by
      rw [Function.update_of_ne hne, hp]
    exact ⟨(hi.owns.tenancy.write hp fun y hy => hsame y (by omega)).1,
      hi.owns.tenancy.disjoint hp (Function.update_self ..) hne hlo hhi⟩

theorem Inv.step (hi : Inv r es s) (hu : WellUsed r (es ++ [e])) (h : Step r s e s') :
    Inv r (es ++ [e]) s' := by
  have hu := ((along_concat_iff es e).mp hu).2
  cases h with
  | write => exact hi.write hu
  | @sysc frame ret s' fuel h =>
      obtain ⟨entries, hh, hl⟩ := hi.entries
      rw [liveSyscHandlr] at h
      split at h
      · rename_i hax
        have hnohold : held (es ++ [.sysc frame (.value 0)]) = held es := by
          rw [held_concat, hold, if_neg fun hc => hc.2 rfl, hax, if_neg (by decide)]
        split at h
        · -- no number of a driver's
          rename_i hout
          cases h
          exact ⟨hnohold ▸ hi.owns, hi.capacity, entries, hh, hl.other fun _ hr =>
            hout.elim (BitVec.not_le.mpr hr.2) (BitVec.not_lt.mpr hr.1)⟩
        · rename_i hin
          obtain ⟨s₁, hreg, heq⟩ := map_eq_ok.mp h
          cases heq
          exact hi.register hax ⟨BitVec.not_lt.mp fun h => hin (.inr h),
            BitVec.not_le.mp fun h => hin (.inl h)⟩ hreg
      · rename_i hnoreg
        split at h
        · rename_i hax
          obtain ⟨⟨q, m⟩, halloc, heq⟩ := map_eq_ok.mp h
          cases heq
          exact hi.alloc hax (hu.1 hax) (orHalt_eq_ok.mp halloc)
        · split at h
          · rename_i hax
            cases h
            exact hi.free hax (hu.2 hax)
          · split at h
            · cases h
            · obtain ⟨fn, -, heq⟩ := map_eq_ok.mp h
              cases heq
              have hnohold : held (es ++ [.sysc frame (.call fn frame.edi frame.esi frame.edx)]) =
                  held es := held_concat
              exact ⟨hnohold ▸ hi.owns, hi.capacity, entries, hh,
                hl.other fun h => absurd h hnoreg⟩

/-! ### Every run -/

/-- The kernel once its constructors have run. -/
structure Start (r : HeapRegion) (s : SyscLayer) : Prop where
  len : s.syscLayerMapping.len = 0
  capacity : s.syscLayerMapping.capacity = 5
  array : Tenancy r s.mem
    (Function.update (fun _ => none) s.syscLayerMapping.arr (some (5 * EntryVec.entrySize)))

theorem Start.inv (hs : Start r s) : Inv r [] s where
  owns :=
    { alone := rfl
      tenancy := hs.capacity ▸ hs.array
      fits := hs.len ▸ Nat.zero_le _
      pos := hs.capacity ▸ Nat.succ_pos 4 }
  capacity := hs.capacity ▸ by decide
  entries := ⟨[], ⟨hs.len, fun _ _ h => by cases h⟩, List.nodup_nil, fun _ h => (by cases h),
    fun _ => rfl⟩

theorem Run.inv {s₀ : SyscLayer} (hs : Start r s₀) (run : Run (Step r) s₀ es s)
    (hu : WellUsed r es) : Inv r es s :=
  run.invHist (I := fun es s => WellUsed r es → Inv r es s) (fun _ => hs.inv)
    (fun _ ih h hu => (ih ((along_concat_iff _ _).mp hu).1).step hu h) hu

/-- A call of a registered number. -/
theorem Inv.call (hi : Inv r es s) (h : registered es frame.eax = some fn) :
    liveSyscHandlr r fuel frame s = .ok (.call fn frame.edi frame.esi frame.edx, s) := by
  obtain ⟨entries, hh, hl⟩ := hi.entries
  have hfind := (hl.find _).trans h
  have hrange : InRange frame.eax := hl.range _ (by
    by_contra hno
    rw [AssocVec.find_eq_none_iff.mpr hno] at hfind
    cases hfind)
  have hno : ∀ n : LiveSyscNumbers, n.num < num .KRN_SYSC_END_SPEC → frame.eax ≠ n.num := by
    rintro n hn heq
    exact absurd (heq ▸ hrange.1) (BitVec.not_le.mpr hn)
  rw [liveSyscHandlr, if_neg (hno _ (by decide)), if_neg (hno _ (by decide)),
    if_neg (hno _ (by decide)), if_neg (BitVec.not_le.mpr hrange.2),
    EntryVec.get_eq hh hi.owns.arr_ne_zero, Map.get_eq_find, hfind]
  rfl

/-- A function that is called was registered for a number of a driver's. -/
theorem Inv.called {p1 p2 p3 : Word} (hi : Inv r es s)
    (h : liveSyscHandlr r fuel frame s = .ok (.call fn p1 p2 p3, s')) :
    InRange frame.eax ∧ registered es frame.eax = some fn := by
  obtain ⟨entries, hh, hl⟩ := hi.entries
  rw [liveSyscHandlr] at h
  split at h
  · split at h
    · cases h
    · obtain ⟨_, -, heq⟩ := map_eq_ok.mp h
      cases heq
  · split at h
    · obtain ⟨_, -, heq⟩ := map_eq_ok.mp h
      cases heq
    · split at h
      · cases h
      · split at h
        · cases h
        · obtain ⟨fn', hget, heq⟩ := map_eq_ok.mp h
          cases heq
          rw [EntryVec.get_eq hh hi.owns.arr_ne_zero, Map.get_eq_find] at hget
          cases hfind : AssocVec.find entries frame.eax with
          | none =>
              rw [hfind] at hget
              cases hget
          | some fn' =>
              rw [hfind] at hget
              cases hget
              refine ⟨hl.range _ ?_, (hl.find _).symm.trans hfind⟩
              by_contra hno
              rw [AssocVec.find_eq_none_iff.mpr hno] at hfind
              cases hfind

/-- **The registry has the functions registered last**, for numbers of drivers only, and they are
called with the three arguments, in every run that uses the heap well. -/
theorem registry {s₀ : SyscLayer} (hs : Start r s₀) (run : Run (Step r) s₀ es s)
    (hu : WellUsed r es) :
    (∃ entries, Holds s.mem s.syscLayerMapping entries ∧ (AssocVec.keys entries).Nodup ∧
      ∀ n ∈ AssocVec.keys entries, InRange n) ∧
    (∀ frame fuel, frame.eax = num .REG_SYSCALL → ¬ InRange frame.edi →
      liveSyscHandlr r fuel frame s = .ok (.value 0, s)) ∧
    (∀ frame fuel fn, registered es frame.eax = some fn →
      liveSyscHandlr r fuel frame s = .ok (.call fn frame.edi frame.esi frame.edx, s)) ∧
    ∀ frame fuel fn p1 p2 p3 s', liveSyscHandlr r fuel frame s = .ok (.call fn p1 p2 p3, s') →
      ¬ frame.eax < num .KRN_SYSC_END_SPEC ∧ registered es frame.eax = some fn := by
  have hi := Run.inv hs run hu
  obtain ⟨entries, hh, hl⟩ := hi.entries
  refine ⟨⟨entries, hh, hl.nodup, hl.range⟩, fun frame fuel hax hout => ?_,
    fun frame fuel fn h => hi.call h, fun frame fuel fn p1 p2 p3 s' h => ?_⟩
  · have hrange : frame.edi ≥ num .SIZESPEC ∨ frame.edi < num .KRN_SYSC_END_SPEC := by
      by_contra hin
      exact hout ⟨BitVec.not_lt.mp fun h => hin (.inr h), BitVec.not_le.mp fun h => hin (.inl h)⟩
    rw [liveSyscHandlr, if_pos hax, if_pos hrange]
  · obtain ⟨hrange, hreg⟩ := hi.called h
    exact ⟨BitVec.not_lt.mpr hrange.1, hreg⟩

/-! ### Two runs -/

open KernelAllocator (smallImage init)

/-- The kernel after boot, with an empty map on its heap. -/
def booted : SyscLayer where
  syscLayerMapping := ⟨0x200012, 0, 5⟩
  mem := ((alloc smallImage (5 * EntryVec.entrySize) 1 (init smallImage fun _ => 0)).map
    Prod.snd).getD fun _ => 0

theorem start_booted : Start smallImage booted where
  len := rfl
  capacity := rfl
  array := by
    have hempty : Tenancy smallImage (init smallImage fun _ => 0) fun _ => none :=
      ⟨_, init_heap _, fun _ _ h => by cases h⟩
    have halloc : alloc smallImage (5 * EntryVec.entrySize) 1 (init smallImage fun _ => 0) =
        some (some 0x200012, booted.mem) := rfl
    rcases hempty.alloc (by decide) halloc with ⟨h, -⟩ | ⟨p, hp, -, ht, -⟩
    · cases h
    · cases hp
      exact ht

/-- A call with these registers. -/
def sysc (eax edi esi edx : Word) : SyscInterruptFrame :=
  ⟨edi, esi, 0, 0, 0, edx, 0, eax, 0, 0, 0⟩

def registers : List Event := [.sysc (sysc 0 5 0x123456 0) (.value 0)]

theorem registry_registers : ∃ s, Run (Step smallImage) booted registers s ∧
    liveSyscHandlr smallImage 1 (sysc 5 1 2 3) s = .ok (.call 0x123456 1 2 3, s) := by
  have hrun : (liveSyscHandlr smallImage 1 (sysc 0 5 0x123456 0) booted).map Prod.fst =
      .ok (.value 0) := by decide +kernel
  obtain ⟨⟨ret, s⟩, h, rfl⟩ := map_eq_ok.mp hrun
  have hrun := Run.single (Step.sysc 1 h)
  have hused : WellUsed smallImage registers :=
    (along_concat_iff [] _).mpr ⟨along_nil _, by decide, by decide⟩
  exact ⟨s, hrun, (registry start_booted hrun hused).2.2.1 (sysc 5 1 2 3) 1 _ (by decide)⟩

/-- `FREE` of the address nine above the array clears the low byte of the first function. -/
theorem registry_overwritten : Start smallImage booted ∧ ∃ s,
    Run (Step smallImage) booted
      (registers ++ [.sysc (sysc 3 0x20001B 0 0) (.value 0)]) s ∧
    registered (registers ++ [.sysc (sysc 3 0x20001B 0 0) (.value 0)]) 5 = some 0x123456 ∧
    (liveSyscHandlr smallImage 1 (sysc 5 1 2 3) s).map Prod.fst = .ok (.call 0x123400 1 2 3) := by
  have hrun : ((liveSyscHandlr smallImage 1 (sysc 0 5 0x123456 0) booted).bind fun (ret, s) =>
      (liveSyscHandlr smallImage 1 (sysc 5 1 2 3)
        { s with mem := free 0x20001B s.mem }).map fun (call, _) => (ret, call)) =
      .ok (.value 0, .call 0x123400 1 2 3) := by decide +kernel
  obtain ⟨⟨ret, s⟩, hreg, h⟩ := bind_eq_ok.mp hrun
  obtain ⟨⟨call, s'⟩, hcall, heq⟩ := map_eq_ok.mp h
  cases heq
  refine ⟨start_booted, { s with mem := free 0x20001B s.mem },
    (Run.single (Step.sysc 1 hreg)).snoc (.sysc 1 rfl), by decide, ?_⟩
  rw [hcall]
  rfl

end SyscLayer

end RivOS
