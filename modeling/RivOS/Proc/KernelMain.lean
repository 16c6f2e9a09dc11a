import Mathlib.Data.Finset.Card
import Mathlib.Data.Finset.Interval
import Mathlib.Order.Interval.Finset.Nat
import RivOS.Mem.FrameBitmap
import RivOS.Mem.PageWords
import RivOS.Proc.System
import RivOS.Support.Loops
import RivOS.Sys.SysMod

/-!
# Proc — The memory that `kernelMain` sets up

`kernel.cpp`: the frames of the kernel are marked, and the pages of the framebuffer and of the heap
are mapped on top of the first 4 MiB that `Mmu::init` maps.

* `eachPage_eq`: a loop over pages is one over a list of them, where it does not pass the end of the
  address space.
* `Mapped.foldlM`: a table of the pool is taken for each slot that has none, and mapping panics over
  the seventeenth.
* `kernelMain_boots`: the state is one that the results about processes start from; the address space
  is the identity, on the kernel, the framebuffer and the heap, and the frames in use are the
  kernel's.
-/

namespace RivOS

/-- The symbols of the linker script, for a kernel that fits in the memory it assumes. -/
structure Layout where
  heapStart : Word
  heapEnd : Word
  kernelEnd : Word
  heap : heapEnd.toNat = heapStart.toNat + 0x2000000
  last : kernelEnd = heapEnd
  memory : kernelEnd.toNat ≤ 0x8000000

namespace KernelMain

open Mmu (directoryIndex tableIndex)

/-! ### The code -/

def assumedMemBytes : Word := 0x8000000

/-- How many frames `frameBitmapStorage` has bits for. -/
def maxFrames : Nat := 0x8000

section Loop

variable {σ : Type} (body : σ → Word → Except Halt σ)

def pageTurn (stop : Word) : σ × Word → Except Halt ((σ × Word) ⊕ σ)
  | (s, addr) =>
      if addr < stop then do
        let s ← body s addr
        return .inl (s, addr + 4096)
      else return .inr s

/-- `for (u32 addr = start; addr < stop; addr += 4096)`. -/
def eachPage (start stop : Word) (s : σ) : Except Halt σ :=
  loop (pageTurn body stop) .undefined (fun q => stop.toNat - q.2.toNat) (s, start)

end Loop

/-- A bit outside the storage is not there. -/
def markKernel (frames : FrameBitmap) (addr : Word) : Except Halt FrameBitmap :=
  if addr.toNat / 4096 < maxFrames then .ok (frames.markUsed (addr.toNat / 4096))
  else .error .undefined

def mapSelf (L : TableArrays) (mmu : PageWords) (addr : Word) : Except Halt PageWords :=
  mmu.mapPage L addr addr 0x002

def fbStart (v : Visuals) : Word := v.getFbPhysAddr.toBitVec &&& ~~~0xFFF

def fbEnd (v : Visuals) : Word :=
  (v.getFbPhysAddr.toBitVec + v.getFbSizeBytes.toBitVec + 0xFFF) &&& ~~~0xFFF

/-- The part of `kernelMain` that is about memory, with what the bitmap's storage held. -/
def kernelMain (L : TableArrays) (y : Layout) (v : Visuals) (storage : Nat → UInt8) :
    Except Halt (FrameBitmap × PageWords) := do
  let frames := (FrameBitmap.init assumedMemBytes storage).markUsed 0
  let frames ← eachPage markKernel 0 y.kernelEnd frames
  let mmu := PageWords.statics.init L
  let mmu ← eachPage (mapSelf L) (fbStart v) (fbEnd v) mmu
  let mmu ← eachPage (mapSelf L) (y.heapStart &&& ~~~0xFFF) y.heapEnd mmu
  return (frames, mmu)

/-- The kernel with this memory, before it has loaded a program. -/
def kernel (L : TableArrays) (m : FrameBitmap × PageWords) : Kernel where
  mmu := m.2.mmu L
  frames := m.1.frames
  processes := []
  latestPid := 1
  activeProcessPid := 0

/-! ### Pages -/

/-- The addresses of a loop. -/
def pages (start stop : Word) : List Word :=
  (List.range ((stop.toNat - start.toNat + 4095) / 4096)).map fun i =>
    start + BitVec.ofNat 32 (i * 4096)

section Loop

variable {σ : Type} {body : σ → Word → Except Halt σ} {start stop a : Word} {s : σ}

theorem toNat_next (hstop : stop.toNat + 4096 ≤ 2 ^ 32) (h : a < stop) :
    (a + 4096).toNat = a.toNat + 4096 := by
  have hlt : a.toNat < stop.toNat := h
  rw [BitVec.toNat_add, show (4096 : Word).toNat = 4096 from rfl]
  omega

theorem pages_nil (h : ¬ start < stop) : pages start stop = [] := by
  have hle : stop.toNat ≤ start.toNat := Nat.not_lt.mp h
  rw [pages, Nat.sub_eq_zero_of_le hle]
  rfl

theorem pages_cons (hstop : stop.toNat + 4096 ≤ 2 ^ 32) (h : start < stop) :
    pages start stop = start :: pages (start + 4096) stop := by
  have hlt : start.toNat < stop.toNat := h
  have hnext := toNat_next hstop h
  have hlen : (stop.toNat - start.toNat + 4095) / 4096 =
      (stop.toNat - (start + 4096).toNat + 4095) / 4096 + 1 := by omega
  rw [pages, pages, hlen, List.range_succ_eq_map, List.map_cons, List.map_map]
  refine congrArg₂ List.cons (by simp) (List.map_congr_left fun i _ => ?_)
  have hi : BitVec.ofNat 32 ((i + 1) * 4096) = 4096 + BitVec.ofNat 32 (i * 4096) := by
    rw [Nat.add_one_mul, Nat.add_comm, BitVec.ofNat_add]
    rfl
  rw [Function.comp_apply, Nat.succ_eq_add_one, hi, ← BitVec.add_assoc]

theorem shrinks_pageTurn (hstop : stop.toNat + 4096 ≤ 2 ^ 32) :
    Shrinks (pageTurn body stop) fun q => stop.toNat - q.2.toNat := by
  rintro ⟨s, a⟩ ⟨t, b⟩ h
  rw [pageTurn] at h
  split at h
  · next hlt =>
      obtain ⟨s', -, h⟩ := bind_eq_ok.mp h
      cases h
      have hnext := toNat_next hstop hlt
      have hlt' : a.toNat < stop.toNat := hlt
      simp only [hnext]
      omega
  · cases h

theorem eachPage_eq (hstop : stop.toNat + 4096 ≤ 2 ^ 32) :
    eachPage body start stop s = (pages start stop).foldlM body s := by
  obtain ⟨n, hn⟩ : ∃ n, stop.toNat - start.toNat = n := ⟨_, rfl⟩
  induction n using Nat.strong_induction_on generalizing start s with
  | _ n ih =>
      rw [eachPage, loop_eq (shrinks_pageTurn hstop), pageTurn]
      by_cases h : start < stop
      · rw [if_pos h, pages_cons hstop h, List.foldlM_cons]
        rcases body s start with e | t
        · rfl
        · have hnext := toNat_next hstop h
          have hlt : start.toNat < stop.toNat := h
          exact ih _ (by omega) rfl
      · rw [if_neg h, pages_nil h]
        rfl

end Loop

/-! ### Tables -/

section Tables

variable {L : TableArrays} {mm mm' : Mmu} {done : List Word} {a : Word} {s : Nat}

/-- The slots that pages have a table of the pool in. -/
def slots (done : List Word) : Finset Nat := (done.map directoryIndex).toFinset.erase 0

theorem mem_slots : s ∈ slots done ↔ s ≠ 0 ∧ ∃ a ∈ done, directoryIndex a = s := by
  simp [slots]

theorem slots_concat (h : directoryIndex a = 0 ∨ directoryIndex a ∈ slots done) :
    slots (done ++ [a]) = slots done := by
  ext s
  rw [mem_slots, mem_slots]
  refine and_congr_right fun hs => ⟨?_, fun ⟨b, hb, he⟩ => ⟨b, List.mem_append_left _ hb, he⟩⟩
  rintro ⟨b, hb, rfl⟩
  rcases List.mem_append.mp hb with hb | hb
  · exact ⟨b, hb, rfl⟩
  · obtain rfl := List.mem_singleton.mp hb
    exact (mem_slots.mp (h.resolve_left hs)).2

theorem slots_concat_new (h : directoryIndex a ≠ 0) :
    slots (done ++ [a]) = insert (directoryIndex a) (slots done) := by
  ext s
  simp only [mem_slots, Finset.mem_insert, List.mem_append, List.mem_singleton]
  constructor
  · rintro ⟨hs, b, hb | rfl, rfl⟩
    · exact .inr ⟨hs, b, hb, rfl⟩
    · exact .inl rfl
  · rintro (rfl | ⟨hs, b, hb, rfl⟩)
    · exact ⟨h, a, .inr rfl, rfl⟩
    · exact ⟨hs, b, .inl hb, rfl⟩

theorem card_slots_le (done rest : List Word) :
    (slots done).card ≤ (slots (done ++ rest)).card := by
  refine Finset.card_le_card fun s hs => ?_
  obtain ⟨hs, b, hb, he⟩ := mem_slots.mp hs
  exact mem_slots.mpr ⟨hs, b, List.mem_append_left _ hb, he⟩

/-- The kernel's directory has the first 4 MiB and the pages of `done`, each on the frame of its
number, and there is nothing else in the tables. -/
structure Mapped (done : List Word) (mm : Mmu) : Prop where
  slotted : mm.Slotted
  first : mm.dirs .kernel 0 = some .first
  slot : ∀ s, mm.dirs .kernel s ≠ none ↔ s = 0 ∨ s ∈ slots done
  used : mm.nextPageTable = (slots done).card
  noDirectory : mm.nextDirectory = 0 ∧ ∀ i s, mm.dirs (.process i) s = none
  tables : ∀ {t j e}, mm.tables t j = some e → ∃ s, mm.dirs .kernel s = some t
  active : mm.activeDirectory = .kernel
  pte : ∀ p, mm.pte .kernel p =
    if p < 1024 ∨ ∃ a ∈ done, a.toNat / 4096 = p then some ⟨p, 3⟩ else none

theorem pte_concat {p : Nat} {x : Option Pte} : (if p = a.toNat / 4096 then some ⟨p, 3⟩ else
      if p < 1024 ∨ ∃ b ∈ done, b.toNat / 4096 = p then some ⟨p, 3⟩ else x) =
    if p < 1024 ∨ ∃ b ∈ done ++ [a], b.toNat / 4096 = p then some (⟨p, 3⟩ : Pte) else x := by
  by_cases hp : p = a.toNat / 4096
  · rw [if_pos hp, if_pos (.inr ⟨a, List.mem_append_right _ List.mem_cons_self, hp.symm⟩)]
  · rw [if_neg hp]
    refine if_congr (or_congr_right ⟨fun ⟨b, hb, he⟩ => ⟨b, List.mem_append_left _ hb, he⟩, ?_⟩)
      rfl rfl
    rintro ⟨b, hb, rfl⟩
    rcases List.mem_append.mp hb with hb | hb
    · exact ⟨b, hb, rfl⟩
    · exact absurd (congrArg (·.toNat / 4096) (List.mem_singleton.mp hb)) hp

/-- One page more. -/
theorem Mapped.enter (h : Mapped done mm)
    (hm : mm.mapPageIn .kernel a.toNat a Mmu.flagsWritable = .ok mm') :
    Mapped (done ++ [a]) mm' := by
  have hslotted := h.slotted.mapPageIn hm
  have hpte : ∀ p, mm'.pte .kernel p =
      if p < 1024 ∨ ∃ b ∈ done ++ [a], b.toNat / 4096 = p then some ⟨p, 3⟩ else none := by
    intro p
    rw [h.slotted.pte_mapPageIn hm, h.pte, ← pte_concat]
    refine if_ctx_congr Iff.rfl (fun hp => ?_) fun _ => rfl
    rw [hp]
    rfl
  obtain ⟨t, mm₁, hp, rfl⟩ := Mmu.mapPageIn_eq_ok.mp hm
  rcases Mmu.pageTable_cases hp with ⟨hd, rfl⟩ | ⟨hnone, hnew⟩
  · -- the slot has its table
    have hmem : directoryIndex a = 0 ∨ directoryIndex a ∈ slots done :=
      (h.slot _).mp (by rw [hd]; exact Option.some_ne_none t)
    refine ⟨hslotted, h.first, ?_, ?_, h.noDirectory, ?_, h.active, hpte⟩
    · rw [slots_concat hmem]
      exact h.slot
    · rw [slots_concat hmem]
      exact h.used
    · intro t' j e he
      rw [Mmu.tables_setPte] at he
      split at he
      · next hc => exact ⟨_, hc.1 ▸ hd⟩
      · exact h.tables he
  · -- it gets the next one of the pool
    obtain ⟨-, rfl, rfl⟩ := Mmu.newPageTable_eq_ok.mp hnew
    have hout : ¬ (directoryIndex a = 0 ∨ directoryIndex a ∈ slots done) := fun hmem =>
      (h.slot _).mpr hmem hnone
    obtain ⟨hne, hnot⟩ := not_or.mp hout
    refine ⟨hslotted, ?_, fun s => ?_, ?_, ⟨h.noDirectory.1, fun i s => ?_⟩, ?_, h.active, hpte⟩
    · rw [Mmu.dirs_setPte, Mmu.dirs_setDir, if_neg fun hc => hne hc.2.symm]
      exact h.first
    · rw [slots_concat_new hne, Finset.mem_insert, Mmu.dirs_setPte, Mmu.dirs_setDir]
      split
      · next hc => exact iff_of_true (Option.some_ne_none _) (.inr (.inl hc.2))
      · next hc =>
          rw [h.slot s, or_congr_right (or_iff_right fun he => hc ⟨rfl, he⟩)]
    · rw [slots_concat_new hne, Finset.card_insert_of_notMem hnot, ← h.used]
      rfl
    · rw [Mmu.dirs_setPte, Mmu.dirs_setDir, if_neg fun hc => nomatch hc.1]
      exact h.noDirectory.2 i s
    · intro t' j e he
      rw [Mmu.tables_setPte] at he
      simp only [Mmu.dirs_setPte, Mmu.dirs_setDir]
      split at he
      · next hc => exact ⟨directoryIndex a, by rw [if_pos ⟨trivial, rfl⟩, hc.1]⟩
      · next hc =>
          simp only [Mmu.tables_setDir, Function.update_apply] at he
          split at he
          · cases he
          · obtain ⟨s, hs⟩ := h.tables he
            refine ⟨s, ?_⟩
            rw [if_neg fun hc => ?_]
            · exact hs
            · rw [hc.2, hnone] at hs
              cases hs

/-- A page is mapped as long as the slots are at most sixteen. -/
theorem Mapped.mapPageIn_cases (h : Mapped done mm) (hle : (slots done).card ≤ 16) (a : Word) :
    ((slots (done ++ [a])).card ≤ 16 ∧
        ∃ mm', mm.mapPageIn .kernel a.toNat a Mmu.flagsWritable = .ok mm') ∨
      (16 < (slots (done ++ [a])).card ∧ mm.mapPageIn .kernel a.toNat a Mmu.flagsWritable =
        kpanic "No more page tables: Should fix this") := by
  cases hd : mm.dirs .kernel (directoryIndex a) with
  | some t =>
      have hmem := (h.slot _).mp (by rw [hd]; exact Option.some_ne_none t)
      rw [slots_concat hmem]
      exact .inl ⟨hle, _, Mmu.mapPageIn_present hd⟩
  | none =>
      obtain ⟨hne, hnot⟩ := not_or.mp fun hmem => (h.slot _).mpr hmem hd
      rw [slots_concat_new hne, Finset.card_insert_of_notMem hnot, ← h.used]
      by_cases hfull : mm.nextPageTable ≥ 16
      · refine .inr ⟨by omega, ?_⟩
        rw [Mmu.mapPageIn, Mmu.pageTable, hd]
        simp only [Mmu.newPageTable, if_pos hfull]
        rfl
      · exact .inl ⟨by omega, Mmu.mapPageIn_ok (.inr (by omega))⟩

/-- **The loop**: a table for each slot, up to the sixteenth. -/
theorem Mapped.foldlM (h : Mapped done mm) (hle : (slots done).card ≤ 16) (rest : List Word) :
    ((slots (done ++ rest)).card ≤ 16 ∧ ∃ mm', rest.foldlM (fun mm a =>
        mm.mapPageIn .kernel a.toNat a Mmu.flagsWritable) mm = .ok mm' ∧ Mapped (done ++ rest) mm') ∨
      (16 < (slots (done ++ rest)).card ∧ rest.foldlM (fun mm a =>
          mm.mapPageIn .kernel a.toNat a Mmu.flagsWritable) mm =
        kpanic "No more page tables: Should fix this") := by
  induction rest generalizing done mm with
  | nil =>
      rw [List.append_nil]
      exact .inl ⟨hle, mm, rfl, h⟩
  | cons a rest ih =>
      rw [List.append_cons]
      simp only [List.foldlM_cons]
      rcases h.mapPageIn_cases hle a with ⟨hcard, mm', hm⟩ | ⟨hcard, hm⟩
      · rw [hm]
        exact ih (h.enter hm) hcard
      · rw [hm]
        exact .inr ⟨Nat.lt_of_lt_of_le hcard (card_slots_le _ rest), rfl⟩

/-! ### `Mmu::init` -/

/-- A page with the flags for present and writable. -/
theorem entry_or {x : Word} (hx : x &&& 0xFFF = 0) :
    PageWords.entry (x ||| 3) = some ⟨x.toNat / 4096, 3⟩ := by
  have hpage : (x ||| 3).toNat / 4096 = x.toNat / 4096 := by
    rw [← PageWords.page_toNat, PageWords.page_or_flags hx rfl]
  have hflags : (x ||| 3) &&& 0xFFF = 3 := by
    rw [BitVec.and_or_distrib_right, hx]
    rfl
  rw [PageWords.entry_eq (PageWords.present_or _ rfl), hpage, hflags]
  rfl

/-- An entry of `firstPageTable`. -/
theorem entry_first {p : Nat} (hp : p < 1024) :
    PageWords.entry (BitVec.ofNat 32 (p * 0x1000) ||| 3) = some ⟨p, 3⟩ := by
  have hnat : (BitVec.ofNat 32 (p * 0x1000)).toNat = p * 4096 := by
    rw [BitVec.toNat_ofNat]
    omega
  rw [entry_or (PageWords.aligned_iff.mpr (by rw [hnat, Nat.mul_mod_left])), hnat,
    Nat.mul_div_cancel _ (by decide)]

theorem mapped_init (L : TableArrays) : Mapped [] ((PageWords.statics.init L).mmu L) := by
  have hdirs : ∀ s, ((PageWords.statics.init L).mmu L).dirs .kernel s =
      if s = 0 then some .first else none := by
    intro s
    change PageWords.slot L _ = _
    simp only [PageWords.init, PageWords.dirs_setDir, true_and, Function.update_self]
    split
    · exact PageWords.slot_addr (t := .first) trivial
    · rfl
  have htables : ∀ t j, ((PageWords.statics.init L).mmu L).tables t j =
      if t = .first then PageWords.entry (BitVec.ofNat 32 (j * 0x1000) ||| 3) else none := by
    intro t j
    simp only [PageWords.mmu, PageWords.init, PageWords.setDir, Function.update_apply]
    split
    · rfl
    · simp [PageWords.statics, PageWords.entry]
  refine ⟨(PageWords.inv_init L).slotted, hdirs 0, fun s => ?_, rfl, ⟨rfl, fun i s => ?_⟩, ?_, rfl,
    fun p => ?_⟩
  · rw [hdirs]
    by_cases hs : s = 0 <;> simp [hs, slots]
  · change PageWords.slot L _ = _
    simp [PageWords.init, PageWords.dirs_setDir, PageWords.statics, PageWords.slot]
  · intro t j e he
    rw [htables] at he
    split at he
    · next ht => exact ⟨0, by rw [hdirs, ht]; rfl⟩
    · cases he
  · rw [Mmu.pte, hdirs]
    by_cases hp : p < 1024
    · have hslot : p / 1024 = 0 := Nat.div_eq_of_lt hp
      rw [if_pos hslot, Option.bind_some, htables, if_pos rfl, Nat.mod_eq_of_lt hp, if_pos (.inl hp),
        entry_first hp]
    · rw [if_neg (by omega), if_neg (by simpa using hp)]
      rfl

end Tables

/-! ### Where pages lie -/

section Ranges

variable {start stop : Word} {p s lo hi : Nat}

theorem toNat_page (a : Word) : (a &&& ~~~0xFFF).toNat = a.toNat / 4096 * 4096 := by
  have hmask : ~~~(0xFFF : Word) = 0xFFFFF000 := rfl
  have hlow : (a &&& 0xFFFFF000) &&& 0xFFF = 0 := by
    rw [BitVec.and_assoc]
    exact BitVec.and_zero
  have hdiv := PageWords.page_toNat a
  have hmod := PageWords.aligned_iff.mp hlow
  rw [hmask]
  omega

/-- One of the bytes from `lo` up to `hi` is on the page. -/
def OnPage (lo hi p : Nat) : Prop := lo / 4096 ≤ p ∧ p * 4096 < hi

instance : Decidable (OnPage lo hi p) := inferInstanceAs (Decidable (_ ∧ _))

/-- One of the pages is in the slot. -/
def InSlot (lo hi s : Nat) : Prop := OnPage lo hi (max (lo / 4096) (1024 * s)) ∧ lo / 4096 < 1024 * (s + 1)

instance : Decidable (InSlot lo hi s) := inferInstanceAs (Decidable (_ ∧ _))

theorem inSlot_iff : InSlot lo hi s ↔ ∃ p, OnPage lo hi p ∧ p / 1024 = s := by
  simp only [InSlot, OnPage]
  constructor
  · rintro ⟨hmax, hlt⟩
    exact ⟨_, hmax, by omega⟩
  · rintro ⟨p, ⟨hlo, hhi⟩, rfl⟩
    omega

theorem mem_pages (hstop : stop.toNat + 4096 ≤ 2 ^ 32) (hstart : start.toNat % 4096 = 0) :
    (∃ a ∈ pages start stop, a.toNat / 4096 = p) ↔ OnPage start.toNat stop.toNat p := by
  have haddr {i : Nat} (hi : i < (stop.toNat - start.toNat + 4095) / 4096) :
      (start + BitVec.ofNat 32 (i * 4096)).toNat = start.toNat + i * 4096 := by
    rw [BitVec.toNat_add, BitVec.toNat_ofNat]
    omega
  simp only [pages, List.mem_map, List.mem_range, OnPage]
  constructor
  · rintro ⟨_, ⟨i, hi, rfl⟩, rfl⟩
    rw [haddr hi]
    omega
  · rintro ⟨hlo, hhi⟩
    have hi : p - start.toNat / 4096 < (stop.toNat - start.toNat + 4095) / 4096 := by omega
    refine ⟨_, ⟨p - start.toNat / 4096, hi, rfl⟩, ?_⟩
    rw [haddr hi]
    omega

end Ranges

/-! ### What is mapped -/

section Boot

variable {L : TableArrays} {y : Layout} {v : Visuals} {storage : Nat → UInt8} {p s : Nat}

/-- The end of the framebuffer. -/
def fbTop (v : Visuals) : Nat := v.getFbPhysAddr.toNat + v.getFbSizeBytes.toNat

/-- What the kernel's address space has: the first 4 MiB, the framebuffer and the heap. -/
def Within (y : Layout) (v : Visuals) (p : Nat) : Prop :=
  p < 1024 ∨ OnPage v.getFbPhysAddr.toNat (fbTop v) p ∨ OnPage y.heapStart.toNat y.heapEnd.toNat p

instance : Decidable (Within y v p) := inferInstanceAs (Decidable (_ ∨ _ ∨ _))

/-- The slots it needs tables of the pool for. -/
def tableSlots (y : Layout) (v : Visuals) : Finset Nat :=
  (Finset.Ico 1 1024).filter fun s =>
    InSlot v.getFbPhysAddr.toNat (fbTop v) s ∨ InSlot y.heapStart.toNat y.heapEnd.toNat s

theorem fbEnd_le (v : Visuals) : (fbEnd v).toNat + 4096 ≤ 2 ^ 32 := by
  rw [fbEnd, toNat_page]
  omega

theorem heapEnd_le (y : Layout) : y.heapEnd.toNat + 4096 ≤ 2 ^ 32 := by
  have hmemory := y.memory
  rw [y.last] at hmemory
  omega

/-- The pages of the two loops. -/
def mappedPages (y : Layout) (v : Visuals) : List Word :=
  pages (fbStart v) (fbEnd v) ++ pages (y.heapStart &&& ~~~0xFFF) y.heapEnd

theorem mem_mappedPages (hfb : fbTop v ≤ 0xFFFFF000) : (∃ a ∈ mappedPages y v, a.toNat / 4096 = p) ↔
    OnPage v.getFbPhysAddr.toNat (fbTop v) p ∨ OnPage y.heapStart.toNat y.heapEnd.toNat p := by
  have hstart (a : Word) : (a &&& ~~~0xFFF).toNat % 4096 = 0 := by
    rw [toNat_page, Nat.mul_mod_left]
  have haddr : (fbStart v).toNat / 4096 = v.getFbPhysAddr.toNat / 4096 := by
    rw [fbStart, toNat_page, Nat.mul_div_cancel _ (by decide)]
    rfl
  have htop : (fbEnd v).toNat = (fbTop v + 4095) / 4096 * 4096 := by
    have hsum : (v.getFbPhysAddr.toBitVec + v.getFbSizeBytes.toBitVec + 0xFFF).toNat =
        fbTop v + 4095 := by
      rw [fbTop] at hfb ⊢
      rw [BitVec.toNat_add, BitVec.toNat_add, show (0xFFF : Word).toNat = 4095 from rfl,
        UInt32.toNat_toBitVec, UInt32.toNat_toBitVec]
      omega
    rw [fbEnd, toNat_page, hsum]
  simp only [mappedPages, List.mem_append, or_and_right, exists_or]
  rw [mem_pages (fbEnd_le v) (show (fbStart v).toNat % 4096 = 0 from hstart _),
    mem_pages (heapEnd_le y) (hstart _)]
  refine or_congr ?_ ?_
  · simp only [OnPage, haddr, htop]
    omega
  · simp only [OnPage, toNat_page]
    omega

theorem slots_mappedPages (hfb : fbTop v ≤ 0xFFFFF000) :
    slots (mappedPages y v) = tableSlots y v := by
  ext s
  have hpage : (∃ a ∈ mappedPages y v, directoryIndex a = s) ↔
      ∃ p, (∃ a ∈ mappedPages y v, a.toNat / 4096 = p) ∧ p / 1024 = s := by
    simp only [Mmu.directoryIndex_eq]
    constructor
    · rintro ⟨a, ha, rfl⟩
      exact ⟨_, ⟨a, ha, rfl⟩, rfl⟩
    · rintro ⟨_, ⟨a, ha, rfl⟩, rfl⟩
      exact ⟨a, ha, rfl⟩
  rw [mem_slots, hpage]
  simp only [mem_mappedPages hfb, or_and_right, exists_or, ← inSlot_iff]
  rw [tableSlots, Finset.mem_filter, Finset.mem_Ico]
  refine ⟨fun ⟨hs, h⟩ => ⟨⟨Nat.pos_of_ne_zero hs, ?_⟩, h⟩, fun ⟨hs, h⟩ =>
    ⟨Nat.ne_of_gt hs.1, h⟩⟩
  have hend := heapEnd_le y
  obtain ⟨q, hq, rfl⟩ : ∃ q, q * 4096 < 2 ^ 32 ∧ q / 1024 = s := by
    rcases h with h | h
    · obtain ⟨q, ⟨-, hq⟩, he⟩ := inSlot_iff.mp h
      exact ⟨q, by omega, he⟩
    · obtain ⟨q, ⟨-, hq⟩, he⟩ := inSlot_iff.mp h
      exact ⟨q, by omega, he⟩
  omega

/-! ### `kernelMain` -/

/-- The loop marks the frames of its pages. -/
theorem foldlM_markKernel {l : List Word} (hl : ∀ a ∈ l, a.toNat / 4096 < maxFrames)
    (frames : FrameBitmap) : ∃ frames', l.foldlM markKernel frames = .ok frames' ∧
      frames'.totalFrames = frames.totalFrames ∧ ∀ i, frames'.isUsed i = true ↔
        frames.isUsed i = true ∨ ∃ a ∈ l, a.toNat / 4096 = i := by
  induction l generalizing frames with
  | nil => exact ⟨frames, rfl, rfl, fun i => by simp⟩
  | cons a l ih =>
      obtain ⟨frames', hloop, htotal, hused⟩ :=
        ih (fun b hb => hl b (.tail _ hb)) (frames.markUsed (a.toNat / 4096))
      refine ⟨frames', ?_, htotal, fun i => ?_⟩
      · rw [List.foldlM_cons, markKernel, if_pos (hl a List.mem_cons_self)]
        exact hloop
      · rw [hused, FrameBitmap.isUsed_markUsed, Bool.or_eq_true, decide_eq_true_iff]
        simp only [List.mem_cons, exists_eq_or_imp, eq_comm (a := i)]
        tauto

/-- The frames of the kernel. -/
theorem markKernel_eq (y : Layout) (storage : Nat → UInt8) : ∃ frames,
    eachPage markKernel 0 y.kernelEnd ((FrameBitmap.init assumedMemBytes storage).markUsed 0) =
      .ok frames ∧ frames.totalFrames = maxFrames ∧
        ∀ i < maxFrames, frames.isUsed i = true ↔ i * 4096 < y.kernelEnd.toNat := by
  have hmemory := y.memory
  have hend : y.kernelEnd.toNat + 4096 ≤ 2 ^ 32 := by omega
  have hpos : 0 < y.kernelEnd.toNat := by
    rw [y.last, y.heap]
    omega
  have hpages {i : Nat} : (∃ a ∈ pages 0 y.kernelEnd, a.toNat / 4096 = i) ↔
      i * 4096 < y.kernelEnd.toNat := by
    rw [mem_pages hend rfl]
    exact and_iff_right (Nat.zero_le i)
  obtain ⟨frames, hloop, htotal, hused⟩ := foldlM_markKernel (l := pages 0 y.kernelEnd)
    (fun a ha => by
      have hlt := hpages.mp ⟨a, ha, rfl⟩
      rw [maxFrames]
      omega) ((FrameBitmap.init assumedMemBytes storage).markUsed 0)
  refine ⟨frames, (eachPage_eq hend).trans hloop, htotal, fun i hi => ?_⟩
  have hi' : i < (FrameBitmap.init assumedMemBytes storage).totalFrames := by
    rwa [show (FrameBitmap.init assumedMemBytes storage).totalFrames = maxFrames by rfl]
  rw [hused, hpages, FrameBitmap.isUsed_markUsed, FrameBitmap.isUsed_init hi', Bool.or_false,
    decide_eq_true_iff]
  refine or_iff_right_of_imp fun h0 => ?_
  rwa [h0, Nat.zero_mul]

/-- The two loops that map pages, one behind the other. -/
theorem mapSelf_loops (L : TableArrays) (y : Layout) (v : Visuals) (w : PageWords) :
    (eachPage (mapSelf L) (fbStart v) (fbEnd v) w >>=
        eachPage (mapSelf L) (y.heapStart &&& ~~~0xFFF) y.heapEnd) =
      (mappedPages y v).foldlM (mapSelf L) w := by
  rw [mappedPages, List.foldlM_append, eachPage_eq (fbEnd_le v)]
  exact bind_congr fun w => eachPage_eq (heapEnd_le y)

theorem kernelMain_eq (L : TableArrays) (y : Layout) (v : Visuals) (storage : Nat → UInt8) :
    ∃ frames : FrameBitmap, (frames.totalFrames = maxFrames ∧
        ∀ i < maxFrames, frames.isUsed i = true ↔ i * 4096 < y.kernelEnd.toNat) ∧
      kernelMain L y v storage = ((mappedPages y v).foldlM (mapSelf L)
        (PageWords.statics.init L)).map fun mmu => (frames, mmu) := by
  obtain ⟨frames, hmark, hframes⟩ := markKernel_eq y storage
  refine ⟨frames, hframes, ?_⟩
  rw [kernelMain, hmark, ← mapSelf_loops]
  change (eachPage (mapSelf L) (fbStart v) (fbEnd v) (PageWords.statics.init L) >>= fun mmu =>
    eachPage (mapSelf L) (y.heapStart &&& ~~~0xFFF) y.heapEnd mmu >>= fun mmu => .ok (frames, mmu)) = _
  rcases eachPage (mapSelf L) (fbStart v) (fbEnd v) (PageWords.statics.init L) with e | w
  · rfl
  · rw [ok_bind, ok_bind]
    rcases eachPage (mapSelf L) (y.heapStart &&& ~~~0xFFF) y.heapEnd w with e | w <;> rfl

/-- The memory as it is set up. -/
structure SetUp (L : TableArrays) (y : Layout) (v : Visuals) (m : FrameBitmap × PageWords) : Prop where
  booted : (kernel L m).Booted
  walk : ∀ a : Word, m.2.walk L .kernel a =
    if Within y v (a.toNat / 4096) then some (a &&& ~~~0xFFF ||| 3) else none
  total : m.1.totalFrames = maxFrames
  used : ∀ i < maxFrames, m.1.isUsed i = true ↔ i * 4096 < y.kernelEnd.toNat

theorem kernelMain_cases (L : TableArrays) (y : Layout) (v : Visuals) (storage : Nat → UInt8)
    (hfb : fbTop v ≤ 0xFFFFF000) :
    ((tableSlots y v).card ≤ 16 ∧ ∃ m, kernelMain L y v storage = .ok m ∧ SetUp L y v m) ∨
      (16 < (tableSlots y v).card ∧
        kernelMain L y v storage = kpanic "No more page tables: Should fix this") := by
  obtain ⟨frames, ⟨htotal, hused⟩, hmain⟩ := kernelMain_eq L y v storage
  have hview : ((mappedPages y v).foldlM (mapSelf L) (PageWords.statics.init L)).map (PageWords.mmu L)
      = _ := PageWords.mmu_mapStack .kernel (PageWords.inv_init L).pointing (mappedPages y v)
  have hloop := (mapped_init L).foldlM (Nat.zero_le 16) (mappedPages y v)
  rw [List.nil_append, slots_mappedPages hfb] at hloop
  refine hloop.imp (fun ⟨hle, mm, hmm, hmapped⟩ => ⟨hle, ?_⟩) fun ⟨hgt, hpanic⟩ => ⟨hgt, ?_⟩
  · obtain ⟨w, hw, rfl⟩ := map_eq_ok.mp (hview.trans hmm)
    refine ⟨(frames, w), by rw [hmain, hw]; rfl, ?_, fun a => ?_, htotal, hused⟩
    · -- the tables are the kernel's, and the frame 0 is in use
      have h0 : frames.isUsed 0 = true := (hused 0 (by decide)).mpr (by
        rw [y.last, y.heap]
        omega)
      exact ⟨hmapped.first, hmapped.slotted.slot, hmapped.slotted.pool, hmapped.noDirectory,
        hmapped.tables, hmapped.active, h0, rfl⟩
    · have hpage : (a &&& ~~~0xFFF) &&& 0xFFF = 0 := by
        rw [PageWords.aligned_iff, toNat_page, Nat.mul_mod_left]
      have hpte : (w.mmu L).pte .kernel (a.toNat / 4096) = if Within y v (a.toNat / 4096)
          then some ⟨a.toNat / 4096, 3⟩ else none := by
        rw [hmapped.pte]
        exact if_congr (or_congr_right (mem_mappedPages hfb)) rfl rfl
      rw [PageWords.walk_eq_iff, hpte]
      · split
        · rw [Option.bind_some, entry_or hpage, toNat_page, Nat.mul_div_cancel _ (by decide)]
        · rfl
      · intro x hx
        split at hx
        · cases hx
          exact PageWords.present_or _ rfl
        · cases hx
  · have herr := hview.trans hpanic
    rw [hmain]
    generalize (mappedPages y v).foldlM (mapSelf L) (PageWords.statics.init L) = x at herr ⊢
    rcases x with e | w
    · cases herr
      rfl
    · cases herr

theorem setUp_of_kernelMain {m : FrameBitmap × PageWords} (hfb : fbTop v ≤ 0xFFFFF000)
    (hm : kernelMain L y v storage = .ok m) : SetUp L y v m := by
  rcases kernelMain_cases L y v storage hfb with ⟨-, m', hm', hset⟩ | ⟨-, hpanic⟩
  · cases hm.symm.trans hm'
    exact hset
  · cases hm.symm.trans hpanic

/-- A kernel whose data ends at 2 MiB. -/
def someLayout : Layout := ⟨0x200000, 0x2200000, 0x2200000, rfl, rfl, by decide⟩

/-- A framebuffer of 1024 by 768 pixels. -/
def someFramebuffer : Visuals := ⟨0xFD000000, 4096, 1024, 768, 0xFD000000⟩

end Boot

end KernelMain
end RivOS
