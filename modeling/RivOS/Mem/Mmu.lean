import RivOS.Gen.Err
import RivOS.Mem.Page
import RivOS.Support.Except
import RivOS.Support.Paging

/-!
# Mem — Page directories and page tables

`mem/mmu/mmu.hpp`.  A directory entry is the page table it points to, or `none` with the present bit
clear; a page-table entry likewise.  The tables are the kernel's first one and the pool of sixteen,
the directories the kernel's and the pool of sixteen.

* `pageMap_mapPageIn`: `mapPageIn` maps one page of its directory, and changes no other page of it.
* `Slotted.pte_unmapPage`: `unmapPage` takes one page from the kernel's directory, and no other.
* `Shaped`, `Sound`: what holds of the directories and tables between kernel calls, and of the frames
  in them as long as frames last; one lemma for each operation that keeps it.
* `Shaped.createAddressSpace`: the new directory has the kernel's entries and, for the stack slot,
  the entry of whoever is running.
-/

namespace RivOS

/-- `pageDirectory` and the `processDirectories`. -/
inductive Dir where
  | kernel
  | process (i : Nat)
deriving DecidableEq

/-- `firstPageTable` and the `pageTables`. -/
inductive Table where
  | first
  | pool (i : Nat)
deriving DecidableEq

structure Pte where
  frame : Nat
  flags : Nat
deriving DecidableEq

structure Mmu where
  dirs : Dir → Nat → Option Table
  tables : Table → Nat → Option Pte
  nextPageTable : Nat
  nextDirectory : Nat
  activeDirectory : Dir

/-- The boot stack, from `stack_bottom` to `stack_top`.  The kernel enables paging on this stack
when only the first 4 MiB are mapped. -/
structure BootStack where
  bottom : Nat
  top : Nat
  size : top = bottom + 16384
  mapped : top ≤ 0x400000

/-- The addresses `createAddressSpace` maps, a page apart. -/
def BootStack.addrs (b : BootStack) : List Word :=
  (List.range ((b.top - b.bottom) / 0x1000)).map fun i => BitVec.ofNat 32 (b.bottom + i * 0x1000)

/-- `STACK_BEGIN`. -/
def stackBegin : Word := 0xBFFF0000

/-- `STACK_SIZE`. -/
def stackSize : Nat := 0x10000

namespace Mmu

def flagsPresent : Nat := 0x001
def flagsWritable : Nat := 0x002

def directoryIndex (virt : Word) : Nat := (virt >>> 22).toNat
def tableIndex (virt : Word) : Nat := ((virt >>> 12) &&& 0x3FF).toNat

/-- The slot of the process stacks. -/
def stackPde : Nat := directoryIndex stackBegin

variable (mm : Mmu)

def setDir (dir : Dir) (s : Nat) (t : Option Table) : Mmu :=
  { mm with dirs := Function.update mm.dirs dir (Function.update (mm.dirs dir) s t) }

def setPte (t : Table) (k : Nat) (e : Pte) : Mmu :=
  { mm with tables := Function.update mm.tables t (Function.update (mm.tables t) k (some e)) }

/-- The branch of `mapPageIn` for a slot without a table: take the next one of the pool, empty. -/
def newPageTable (dir : Dir) (s : Nat) : Except Halt (Table × Mmu) :=
  if mm.nextPageTable ≥ 16 then kpanic "No more page tables: Should fix this"
  else
    let pageTable := Table.pool mm.nextPageTable
    let mm := { mm with
      nextPageTable := mm.nextPageTable + 1
      tables := Function.update mm.tables pageTable fun _ => none }
    .ok (pageTable, mm.setDir dir s (some pageTable))

/-- The table of a slot, a new one where the slot has none. -/
def pageTable (dir : Dir) (s : Nat) : Except Halt (Table × Mmu) :=
  match mm.dirs dir s with
  | some t => .ok (t, mm)
  | none => mm.newPageTable dir s

def mapPageIn (dir : Dir) (phys : Nat) (virt : Word) (flgs : Nat) : Except Halt Mmu := do
  let (t, mm) ← mm.pageTable dir (directoryIndex virt)
  return mm.setPte t (tableIndex virt) ⟨phys / 4096, flgs ||| 1⟩

def clearPte (t : Table) (k : Nat) : Mmu :=
  { mm with tables := Function.update mm.tables t (Function.update (mm.tables t) k none) }

def unmapPage (virt : Word) : Mmu :=
  match mm.dirs .kernel (directoryIndex virt) with
  | some t => mm.clearPte t (tableIndex virt)
  | none => mm

def switchAddressSpace (dir : Dir) : Mmu :=
  if dir = mm.activeDirectory then mm else { mm with activeDirectory := dir }

/-- The next directory of the pool with the kernel's mappings in it. -/
def inheritKernel : Mmu :=
  { mm with
    nextDirectory := mm.nextDirectory + 1
    dirs := Function.update mm.dirs (.process mm.nextDirectory) (mm.dirs .kernel) }

/-- The entry of whoever is running for the stack slot. -/
def borrowStack (dir : Dir) : Mmu := mm.setDir dir stackPde (mm.dirs mm.activeDirectory stackPde)

def createAddressSpace (b : BootStack) : Except Halt (Dir × Mmu) :=
  if mm.nextDirectory ≥ 16 then kpanic "No more process address spaces: Should fix this"
  else do
    let dir := Dir.process mm.nextDirectory
    let mm ← b.addrs.foldlM (fun mm addr => mm.mapPageIn dir addr.toNat addr flagsWritable)
      mm.inheritKernel
    return (dir, mm.borrowStack dir)

/-- The frame of a page in a directory. -/
def pageMap (dir : Dir) : PageMap := fun p =>
  (mm.dirs dir (p / 1024)).bind fun t => (mm.tables t (p % 1024)).map Pte.frame

/-- The table entry of a page in a directory. -/
def pte (dir : Dir) (p : Nat) : Option Pte :=
  (mm.dirs dir (p / 1024)).bind fun t => mm.tables t (p % 1024)

variable {mm} {mm' mm₁ : Mmu} {pfa pfa' : PhysicalFrameAllocator} {dir d d' : Dir} {t t' : Table}
  {s s' k k' i phys flgs : Nat} {e e' : Pte} {virt : Word} {o : Option Table} {b : BootStack}

/-- A predicate that implies another and fails where that holds counts less. -/
theorem countP_lt {α : Type} {p q : α → Bool} {l : List α} {a : α} (h : ∀ x, p x = true → q x = true)
    (ha : a ∈ l) (hq : q a = true) (hp : p a ≠ true) : l.countP p < l.countP q := by
  induction l with
  | nil => cases ha
  | cons x l ih =>
      rw [List.countP_cons, List.countP_cons]
      rcases List.mem_cons.mp ha with rfl | ha
      · rw [if_neg hp, if_pos hq]
        exact Nat.lt_succ_of_le (List.countP_mono_left fun x _ => h x)
      · have := ih ha
        by_cases hx : p x = true
        · rw [if_pos hx, if_pos (h x hx)]
          omega
        · rw [if_neg hx]
          omega

/-! ### The operations, entry by entry -/

theorem dirs_setDir : (mm.setDir dir s o).dirs d s' =
    if d = dir ∧ s' = s then o else mm.dirs d s' := by
  by_cases hd : d = dir
  · subst hd
    by_cases hs : s' = s <;> simp [setDir, hs]
  · simp [setDir, hd]

theorem tables_setPte : (mm.setPte t k e).tables t' k' =
    if t' = t ∧ k' = k then some e else mm.tables t' k' := by
  by_cases ht : t' = t
  · subst ht
    by_cases hk : k' = k <;> simp [setPte, hk]
  · simp [setPte, ht]

theorem tables_clearPte : (mm.clearPte t k).tables t' k' =
    if t' = t ∧ k' = k then none else mm.tables t' k' := by
  by_cases ht : t' = t
  · subst ht
    by_cases hk : k' = k <;> simp [clearPte, hk]
  · simp [clearPte, ht]

theorem dirs_inheritKernel : mm.inheritKernel.dirs d =
    if d = .process mm.nextDirectory then mm.dirs .kernel else mm.dirs d :=
  Function.update_apply ..

@[simp] theorem dirs_setPte : (mm.setPte t k e).dirs = mm.dirs := rfl
@[simp] theorem tables_setDir : (mm.setDir dir s o).tables = mm.tables := rfl

theorem directoryIndex_eq (virt : Word) : directoryIndex virt = virt.toNat / 4096 / 1024 := by
  rw [directoryIndex, BitVec.toNat_ushiftRight, Nat.shiftRight_eq_div_pow, Nat.div_div_eq_div_mul]

theorem tableIndex_eq (virt : Word) : tableIndex virt = virt.toNat / 4096 % 1024 := by
  have hmask : (0x3FF : Word).toNat = 2 ^ 10 - 1 := rfl
  rw [tableIndex, BitVec.toNat_and, BitVec.toNat_ushiftRight, Nat.shiftRight_eq_div_pow, hmask,
    Nat.and_two_pow_sub_one_eq_mod]

theorem newPageTable_eq_ok : mm.newPageTable dir s = .ok (t, mm₁) ↔
    mm.nextPageTable < 16 ∧ t = .pool mm.nextPageTable ∧ mm₁ = setDir { mm with
      nextPageTable := mm.nextPageTable + 1
      tables := Function.update mm.tables (.pool mm.nextPageTable) fun _ => none } dir s
        (some (.pool mm.nextPageTable)) := by
  rw [newPageTable]
  split
  · rename_i h
    constructor
    · rintro ⟨⟩
    · rintro ⟨h', -⟩
      omega
  · rename_i h
    constructor
    · rintro ⟨⟩
      exact ⟨by omega, rfl, rfl⟩
    · rintro ⟨-, rfl, rfl⟩
      rfl

/-- The slot had the table, or got a new one. -/
theorem pageTable_cases (h : mm.pageTable dir s = .ok (t, mm₁)) :
    (mm.dirs dir s = some t ∧ mm₁ = mm) ∨
      (mm.dirs dir s = none ∧ mm.newPageTable dir s = .ok (t, mm₁)) := by
  rw [pageTable] at h
  split at h
  · rename_i t' ht
    cases h
    exact .inl ⟨ht, rfl⟩
  · rename_i hnone
    exact .inr ⟨hnone, h⟩

theorem mapPageIn_eq_ok : mm.mapPageIn dir phys virt flgs = .ok mm' ↔
    ∃ t mm₁, mm.pageTable dir (directoryIndex virt) = .ok (t, mm₁) ∧
      mm' = mm₁.setPte t (tableIndex virt) ⟨phys / 4096, flgs ||| 1⟩ := by
  rw [mapPageIn, bind_eq_ok]
  constructor
  · rintro ⟨⟨t, mm₁⟩, h, hr⟩
    cases hr
    exact ⟨t, mm₁, h, rfl⟩
  · rintro ⟨t, mm₁, h, rfl⟩
    exact ⟨(t, mm₁), h, rfl⟩

theorem mapPageIn_present (h : mm.dirs dir (directoryIndex virt) = some t) :
    mm.mapPageIn dir phys virt flgs =
      .ok (mm.setPte t (tableIndex virt) ⟨phys / 4096, flgs ||| 1⟩) :=
  mapPageIn_eq_ok.mpr ⟨t, mm, by rw [pageTable, h], rfl⟩

@[simp] theorem activeDirectory_switchAddressSpace :
    (mm.switchAddressSpace dir).activeDirectory = dir := by
  rw [switchAddressSpace]
  split
  · rename_i hd
    exact hd.symm
  · rfl

@[simp] theorem pageMap_switchAddressSpace :
    (mm.switchAddressSpace dir).pageMap d = mm.pageMap d := by
  rw [switchAddressSpace]
  split <;> rfl

/-- Into an address space and back. -/
theorem switchAddressSpace_back :
    (mm.switchAddressSpace dir).switchAddressSpace mm.activeDirectory = mm := by
  by_cases hd : dir = mm.activeDirectory <;> simp [switchAddressSpace, hd, Ne.symm]

/-- With a table in the slot, or one left in the pool, the page is mapped. -/
theorem mapPageIn_ok (h : (mm.dirs dir (directoryIndex virt)).isSome ∨ mm.nextPageTable < 16) :
    ∃ mm', mm.mapPageIn dir phys virt flgs = .ok mm' := by
  cases hd : mm.dirs dir (directoryIndex virt) with
  | some t => exact ⟨_, mapPageIn_present hd⟩
  | none =>
      have hlt : mm.nextPageTable < 16 := h.resolve_left (by rw [hd]; exact Bool.false_ne_true)
      obtain ⟨mm₁, hnew⟩ : ∃ mm₁, mm.newPageTable dir (directoryIndex virt) =
          .ok (.pool mm.nextPageTable, mm₁) := ⟨_, newPageTable_eq_ok.mpr ⟨hlt, rfl, rfl⟩⟩
      have hp : mm.pageTable dir (directoryIndex virt) = .ok (.pool mm.nextPageTable, mm₁) := by
        rw [pageTable, hd, hnew]
      exact ⟨_, mapPageIn_eq_ok.mpr ⟨_, _, hp, rfl⟩⟩

theorem nextDirectory_mapPageIn (h : mm.mapPageIn dir phys virt flgs = .ok mm') :
    mm'.nextDirectory = mm.nextDirectory := by
  obtain ⟨t, mm₁, hp, rfl⟩ := mapPageIn_eq_ok.mp h
  rcases pageTable_cases hp with ⟨-, rfl⟩ | ⟨-, hnew⟩
  · rfl
  · obtain ⟨-, rfl, rfl⟩ := newPageTable_eq_ok.mp hnew
    rfl

/-- The slots of `slots` in which a directory has no table. -/
def missing (mm : Mmu) (dir : Dir) (slots : List Nat) : Nat :=
  slots.countP fun s => (mm.dirs dir s).isNone

/-- A table taken from the pool fills a slot. -/
theorem missing_mapPageIn {slots : List Nat} (hs : directoryIndex virt ∈ slots)
    (h : mm.mapPageIn dir phys virt flgs = .ok mm') :
    mm'.nextPageTable + mm'.missing dir slots ≤ mm.nextPageTable + mm.missing dir slots := by
  obtain ⟨t, mm₁, hp, rfl⟩ := mapPageIn_eq_ok.mp h
  rcases pageTable_cases hp with ⟨-, rfl⟩ | ⟨hnone, hnew⟩
  · exact Nat.le_refl _
  · obtain ⟨-, rfl, rfl⟩ := newPageTable_eq_ok.mp hnew
    have hlt : missing (setDir { mm with
        nextPageTable := mm.nextPageTable + 1
        tables := Function.update mm.tables (.pool mm.nextPageTable) fun _ => none } dir
          (directoryIndex virt) (some (.pool mm.nextPageTable))) dir slots <
        mm.missing dir slots := by
      refine countP_lt (fun s hs => ?_) hs (by rw [hnone]; rfl) ?_
      · rw [dirs_setDir] at hs
        split at hs
        · cases hs
        · exact hs
      · rw [dirs_setDir, if_pos ⟨rfl, rfl⟩]
        exact Bool.false_ne_true
    have hsum := Nat.add_le_add_left hlt mm.nextPageTable
    rwa [Nat.succ_eq_add_one, Nat.add_comm _ 1, ← Nat.add_assoc] at hsum

/-! ### What holds between kernel calls -/

/-- `t` is none of the kernel directory's tables. -/
def Users (mm : Mmu) (t : Table) : Prop := ∀ s, mm.dirs .kernel s ≠ some t

/-- A table stands in one slot only and, the stack slot and the kernel's own slots apart, in one
directory. -/
structure Shaped (mm : Mmu) : Prop where
  slot : ∀ {d d' s s' t}, mm.dirs d s = some t → mm.dirs d' s' = some t → s = s'
  owner : ∀ {d d' s t}, mm.dirs .kernel s = none → s ≠ stackPde →
    mm.dirs d s = some t → mm.dirs d' s = some t → d = d'
  pool : ∀ {d s i}, mm.dirs d s = some (.pool i) → i < mm.nextPageTable
  unused : ∀ {i}, mm.nextDirectory ≤ i → ∀ s, mm.dirs (.process i) s = none
  first : (mm.dirs .kernel 0).isSome
  active : ∀ {i}, mm.activeDirectory = .process i → i < mm.nextDirectory

/-- The part of it that holds whatever is mapped where. -/
structure Slotted (mm : Mmu) : Prop where
  slot : ∀ {d d' s s' t}, mm.dirs d s = some t → mm.dirs d' s' = some t → s = s'
  pool : ∀ {d s i}, mm.dirs d s = some (.pool i) → i < mm.nextPageTable

theorem Shaped.slotted (h : mm.Shaped) : mm.Slotted := ⟨h.slot, h.pool⟩

/-- Moreover no frame has two places in the processes' tables, and every frame in them is in use. -/
structure Sound (mm : Mmu) (pfa : PhysicalFrameAllocator) : Prop extends mm.Shaped where
  inUse : ∀ {t k e}, mm.Users t → mm.tables t k = some e → pfa.isUsed e.frame = true
  frames : ∀ {t t' k k' e e'}, mm.Users t → mm.Users t' → mm.tables t k = some e →
    mm.tables t' k' = some e' → e.frame = e'.frame → t = t' ∧ k = k'

/-- Where the kernel's directory has nothing, no directory has a table of the kernel's. -/
theorem Shaped.users (h : mm.Shaped) (hk : mm.dirs .kernel s = none) (ht : mm.dirs d s = some t) :
    mm.Users t := by
  intro s' hs'
  rw [h.slot ht hs', hs'] at hk
  cases hk

theorem Slotted.unmapPage (h : mm.Slotted) (virt : Word) : (mm.unmapPage virt).Slotted := by
  rw [Mmu.unmapPage]
  split
  · exact ⟨h.slot, h.pool⟩
  · exact h

/-- A slot that is left empty, or gets a table that stands in no other. -/
theorem Slotted.setDir (h : mm.Slotted)
    (hslot : ∀ {t d s'}, o = some t → mm.dirs d s' = some t → s' = s)
    (hpool : ∀ {j}, o = some (.pool j) → j < mm.nextPageTable) : (mm.setDir dir s o).Slotted := by
  refine ⟨fun {d d' s₁ s₂ t} h₁ h₂ => ?_, fun {d s₁ j} hd => ?_⟩
  · rw [dirs_setDir] at h₁ h₂
    split at h₁ <;> split at h₂
    · rename_i hc₁ hc₂
      exact hc₁.2.trans hc₂.2.symm
    · rename_i hc₁ _
      exact hc₁.2.trans (hslot h₁ h₂).symm
    · rename_i _ hc₂
      exact (hslot h₂ h₁).trans hc₂.2.symm
    · exact h.slot h₁ h₂
  · rw [dirs_setDir] at hd
    split at hd
    · exact hpool hd
    · exact h.pool hd

/-- Whatever directory it is, mapping takes a table that no slot has. -/
theorem Slotted.mapPageIn (h : mm.Slotted) (hm : mm.mapPageIn dir phys virt flgs = .ok mm') :
    mm'.Slotted := by
  obtain ⟨t, mm₁, hp, rfl⟩ := mapPageIn_eq_ok.mp hm
  suffices mm₁.Slotted from ⟨this.slot, this.pool⟩
  rcases pageTable_cases hp with ⟨-, rfl⟩ | ⟨-, hnew⟩
  · exact h
  · obtain ⟨-, rfl, rfl⟩ := newPageTable_eq_ok.mp hnew
    refine Slotted.setDir ⟨h.slot, fun hd => Nat.lt_succ_of_lt (h.pool hd)⟩ ?_ ?_
    · rintro t d s' ⟨⟩ hd
      exact absurd (h.pool hd) (Nat.lt_irrefl _)
    · rintro j ⟨⟩
      exact Nat.lt_succ_self _

/-- The new directory is the kernel's under another name. -/
theorem dirs_inheritKernel_cases (hd : mm.inheritKernel.dirs d s = some t) :
    ∃ d', mm.dirs d' s = some t ∧ (d' = d ∨ d = .process mm.nextDirectory ∧ d' = .kernel) := by
  rw [dirs_inheritKernel] at hd
  split at hd
  · rename_i hp
    exact ⟨.kernel, hd, .inr ⟨hp, rfl⟩⟩
  · exact ⟨d, hd, .inl rfl⟩

theorem Slotted.inheritKernel (h : mm.Slotted) : mm.inheritKernel.Slotted := by
  refine ⟨fun h₁ h₂ => ?_, fun hd => ?_⟩
  · obtain ⟨_, h₁, -⟩ := dirs_inheritKernel_cases h₁
    obtain ⟨_, h₂, -⟩ := dirs_inheritKernel_cases h₂
    exact h.slot h₁ h₂
  · obtain ⟨_, hd, -⟩ := dirs_inheritKernel_cases hd
    exact h.pool hd

theorem Slotted.createAddressSpace (h : mm.Slotted) (hc : mm.createAddressSpace b = .ok (dir, mm')) :
    mm'.Slotted := by
  rw [Mmu.createAddressSpace] at hc
  split at hc
  · cases hc
  · obtain ⟨mm₁, hloop, hret⟩ := bind_eq_ok.mp hc
    cases hret
    have h₁ : mm₁.Slotted := foldlM_inv (P := fun _ mm => mm.Slotted)
      (fun hs hm => hs.mapPageIn hm) h.inheritKernel hloop
    exact h₁.setDir (fun ho hd => h₁.slot hd ho) h₁.pool

theorem Shaped.setPte (h : mm.Shaped) : (mm.setPte t k e).Shaped :=
  ⟨h.slot, h.owner, h.pool, h.unused, h.first, h.active⟩

/-- Other entries in the kernel's tables. -/
theorem Sound.setPte_kernel (h : mm.Sound pfa) (hk : mm.dirs .kernel s = some t) :
    (mm.setPte t k e).Sound pfa where
  toShaped := h.setPte
  inUse {t' k' e'} hu he := by
    have hne : t' ≠ t := fun heq => hu s (heq ▸ hk)
    rw [tables_setPte, if_neg fun hc => hne hc.1] at he
    exact h.inUse hu he
  frames {t₁ t₂ k₁ k₂ e₁ e₂} hu₁ hu₂ he₁ he₂ := by
    have hne₁ : t₁ ≠ t := fun heq => hu₁ s (heq ▸ hk)
    have hne₂ : t₂ ≠ t := fun heq => hu₂ s (heq ▸ hk)
    rw [tables_setPte, if_neg fun hc => hne₁ hc.1] at he₁
    rw [tables_setPte, if_neg fun hc => hne₂ hc.1] at he₂
    exact h.frames hu₁ hu₂ he₁ he₂

/-- A frame that was free may go into any table. -/
theorem Sound.setPte_fresh (h : mm.Sound pfa) (hfree : pfa.isUsed e.frame = false) :
    (mm.setPte t k e).Sound (pfa.markUsed e.frame) where
  toShaped := h.setPte
  inUse {t' k' e'} hu he := by
    rw [tables_setPte] at he
    split at he
    · cases he
      exact PhysicalFrameAllocator.isUsed_markUsed_self
    · exact PhysicalFrameAllocator.isUsed_markUsed_mono (h.inUse hu he)
  frames {t₁ t₂ k₁ k₂ e₁ e₂} hu₁ hu₂ he₁ he₂ heq := by
    -- a frame in a process's table was in use, the new one was not
    have hold : ∀ {t k e'}, mm.Users t → mm.tables t k = some e' → e'.frame ≠ e.frame := by
      intro t k e' hu he hf
      have := h.inUse hu he
      rw [hf, hfree] at this
      exact Bool.noConfusion this
    rw [tables_setPte] at he₁ he₂
    split at he₁ <;> split at he₂
    · rename_i h₁ h₂
      exact ⟨h₁.1.trans h₂.1.symm, h₁.2.trans h₂.2.symm⟩
    · cases he₁
      exact absurd heq.symm (hold hu₂ he₂)
    · cases he₂
      exact absurd heq (hold hu₁ he₁)
    · exact h.frames hu₁ hu₂ he₁ he₂ heq

theorem dirs_setDir_kernel : (mm.setDir (.process i) s o).dirs .kernel = mm.dirs .kernel := by
  funext s'
  rw [dirs_setDir, if_neg fun hc => by cases hc.1]

/-- An entry of a process's directory: absent, or a table that stands in this slot only, and in no
directory if only one may have it. -/
theorem Shaped.setDir (h : mm.Shaped) (hi : i < mm.nextDirectory)
    (hslot : ∀ {t d s'}, o = some t → mm.dirs d s' = some t → s' = s)
    (howner : ∀ {t d}, mm.dirs .kernel s = none → s ≠ stackPde → o = some t → mm.dirs d s ≠ some t)
    (hpool : ∀ {j}, o = some (.pool j) → j < mm.nextPageTable) :
    (mm.setDir (.process i) s o).Shaped := by
  have hslotted : (mm.setDir (.process i) s o).Slotted := h.slotted.setDir hslot hpool
  refine ⟨hslotted.slot, ?_, hslotted.pool, ?_, by rw [dirs_setDir_kernel]; exact h.first, h.active⟩
  -- what is set is in slot `s` of the `i`-th directory only; the other pairs are as before
  · intro d d' s₁ t hk hs h₁ h₂
    rw [dirs_setDir_kernel] at hk
    rw [dirs_setDir] at h₁ h₂
    split at h₁ <;> split at h₂
    · rename_i hc₁ hc₂
      exact hc₁.1.trans hc₂.1.symm
    · rename_i hc₁ _
      rw [hc₁.2] at hk hs h₂
      exact absurd h₂ (howner hk hs h₁)
    · rename_i _ hc₂
      rw [hc₂.2] at hk hs h₁
      exact absurd h₁ (howner hk hs h₂)
    · exact h.owner hk hs h₁ h₂
  · intro j hj s₁
    have hne : Dir.process j ≠ .process i := by
      rintro ⟨⟩
      exact absurd hi (Nat.not_lt.mpr hj)
    rw [dirs_setDir, if_neg fun hc => hne hc.1]
    exact h.unused hj s₁

/-- The kernel's tables and what the tables hold are as before. -/
theorem Sound.of_tables (h : mm.Sound pfa) (hs : mm'.Shaped)
    (hkernel : mm'.dirs .kernel = mm.dirs .kernel)
    (htables : ∀ {t k e}, mm'.tables t k = some e → mm.tables t k = some e) : mm'.Sound pfa := by
  have husers : ∀ {t}, mm'.Users t → mm.Users t := by
    intro t hu
    rwa [Users, hkernel] at hu
  exact ⟨hs, fun hu he => h.inUse (husers hu) (htables he),
    fun hu hu' he he' => h.frames (husers hu) (husers hu') (htables he) (htables he')⟩

/-- A table of the pool that no directory has yet. -/
theorem Shaped.newPageTable (h : mm.Shaped) (hi : i < mm.nextDirectory)
    (hn : mm.newPageTable (.process i) s = .ok (t, mm₁)) : mm₁.Shaped := by
  obtain ⟨-, rfl, rfl⟩ := newPageTable_eq_ok.mp hn
  have hnew : ∀ {d s'}, mm.dirs d s' ≠ some (.pool mm.nextPageTable) :=
    fun hd => absurd (h.pool hd) (Nat.lt_irrefl _)
  have htaken : Shaped { mm with
      nextPageTable := mm.nextPageTable + 1
      tables := Function.update mm.tables (.pool mm.nextPageTable) fun _ => none } :=
    ⟨h.slot, h.owner, fun hd => Nat.lt_succ_of_lt (h.pool hd), h.unused, h.first, h.active⟩
  refine htaken.setDir hi ?_ ?_ ?_
  · rintro t d s' ⟨⟩ hd
    exact absurd hd hnew
  · rintro t d - - ⟨⟩
    exact hnew
  · rintro j ⟨⟩
    exact Nat.lt_succ_self _

theorem Shaped.pageTable (h : mm.Shaped) (hi : i < mm.nextDirectory)
    (hp : mm.pageTable (.process i) s = .ok (t, mm₁)) : mm₁.Shaped := by
  rcases pageTable_cases hp with ⟨-, rfl⟩ | ⟨-, hn⟩
  · exact h
  · exact h.newPageTable hi hn

theorem Sound.pageTable (h : mm.Sound pfa) (hi : i < mm.nextDirectory)
    (hp : mm.pageTable (.process i) s = .ok (t, mm₁)) : mm₁.Sound pfa := by
  rcases pageTable_cases hp with ⟨-, rfl⟩ | ⟨-, hn⟩
  · exact h
  · refine h.of_tables (h.newPageTable hi hn) ?_ ?_
    all_goals obtain ⟨-, rfl, rfl⟩ := newPageTable_eq_ok.mp hn
    · exact dirs_setDir_kernel
    · intro t k e he
      rw [tables_setDir] at he
      by_cases ht : t = .pool mm.nextPageTable
      · simp [ht] at he
      · simpa [ht] using he

theorem Shaped.mapPageIn (h : mm.Shaped) (hi : i < mm.nextDirectory)
    (hm : mm.mapPageIn (.process i) phys virt flgs = .ok mm') : mm'.Shaped := by
  obtain ⟨t, mm₁, hp, rfl⟩ := mapPageIn_eq_ok.mp hm
  exact (h.pageTable hi hp).setPte

/-- A frame just allocated is mapped into a process's directory. -/
theorem Sound.mapFresh (h : mm.Sound pfa) (hi : i < mm.nextDirectory)
    (hne : pfa.allocFrame.1 ≠ 0)
    (hm : mm.mapPageIn (.process i) pfa.allocFrame.1 virt flgs = .ok mm') :
    mm'.Sound pfa.allocFrame.2 := by
  obtain ⟨f, -, hfree, hphys, hpfa⟩ := PhysicalFrameAllocator.allocFrame_of_ne_zero hne
  obtain ⟨t, mm₁, hp, rfl⟩ := mapPageIn_eq_ok.mp hm
  have hframe : pfa.allocFrame.1 / 4096 = f := by
    rw [hphys]
    exact Nat.mul_div_cancel _ (by decide)
  rw [hframe, hpfa]
  exact (h.pageTable hi hp).setPte_fresh (e := ⟨f, flgs ||| 1⟩) hfree

theorem Shaped.setActive (h : mm.Shaped) (hi : i < mm.nextDirectory) :
    Shaped { mm with activeDirectory := .process i } :=
  ⟨h.slot, h.owner, h.pool, h.unused, h.first, by rintro _ ⟨⟩; exact hi⟩

/-- `pageDirectory[stackPde] = 0`. -/
theorem Shaped.clearStack (h : mm.Shaped) (hi : i < mm.nextDirectory) :
    (mm.setDir (.process i) stackPde none).Shaped :=
  h.setDir hi (fun h => by cases h) (fun _ _ h => by cases h) (fun h => by cases h)

theorem Shaped.borrowStack (h : mm.Shaped) (hi : i < mm.nextDirectory) :
    (mm.borrowStack (.process i)).Shaped :=
  h.setDir hi (fun ho hd => h.slot hd ho) (fun _ hs => absurd rfl hs) h.pool

theorem dirs_inheritKernel_kernel : mm.inheritKernel.dirs .kernel = mm.dirs .kernel := by
  rw [dirs_inheritKernel, if_neg (by rintro ⟨⟩)]

theorem Shaped.inheritKernel (h : mm.Shaped) : mm.inheritKernel.Shaped := by
  have hslotted := h.slotted.inheritKernel
  refine ⟨hslotted.slot, ?_, hslotted.pool, ?_, by rw [dirs_inheritKernel_kernel]; exact h.first,
    fun ha => Nat.lt_succ_of_lt (h.active ha)⟩
  · intro d d' s t hk hs h₁ h₂
    rw [dirs_inheritKernel_kernel] at hk
    obtain ⟨d₁, g₁, rfl | ⟨-, rfl⟩⟩ := dirs_inheritKernel_cases h₁
    · obtain ⟨d₂, g₂, rfl | ⟨-, rfl⟩⟩ := dirs_inheritKernel_cases h₂
      · exact h.owner hk hs g₁ g₂
      · cases hk.symm.trans g₂
    · cases hk.symm.trans g₁
  · intro j hj s
    have hne : Dir.process j ≠ .process mm.nextDirectory := by
      rintro ⟨⟩
      exact absurd hj (Nat.not_succ_le_self _)
    rw [dirs_inheritKernel, if_neg hne]
    exact h.unused (Nat.le_of_succ_le hj) s

/-! ### A new address space -/

theorem BootStack.directoryIndex_eq_zero {b : BootStack} {addr : Word} (h : addr ∈ b.addrs) :
    directoryIndex addr = 0 := by
  obtain ⟨i, hi, rfl⟩ := List.mem_map.mp h
  have hsize := b.size
  have hmapped := b.mapped
  rw [List.mem_range] at hi
  have hlt : b.bottom + i * 0x1000 < 0x400000 := by omega
  rw [directoryIndex_eq, BitVec.toNat_ofNat]
  omega

/-- What `createAddressSpace` makes of `mm`. -/
structure Created (mm mm' : Mmu) : Prop where
  shaped : mm'.Shaped
  sound : ∀ {pfa}, mm.Sound pfa → mm'.Sound pfa
  nextDirectory : mm'.nextDirectory = mm.nextDirectory + 1
  nextPageTable : mm'.nextPageTable = mm.nextPageTable
  activeDirectory : mm'.activeDirectory = mm.activeDirectory
  dirs : ∀ d s, mm'.dirs d s = if d = .process mm.nextDirectory then
    (if s = stackPde then mm.dirs mm.activeDirectory stackPde else mm.dirs .kernel s)
    else mm.dirs d s

/-- While there is a directory left, the call succeeds: the boot stack is in a slot of the
kernel's, so mapping it takes no table. -/
theorem Shaped.createAddressSpace (h : mm.Shaped) (b : BootStack) (hn : mm.nextDirectory < 16) :
    ∃ mm', mm.createAddressSpace b = .ok (.process mm.nextDirectory, mm') ∧ Created mm mm' := by
  have hactive : mm.activeDirectory ≠ .process mm.nextDirectory :=
    fun ha => absurd (h.active ha) (Nat.lt_irrefl _)
  obtain ⟨t, ht⟩ := Option.isSome_iff_exists.mp h.first
  have hslot : mm.inheritKernel.dirs (.process mm.nextDirectory) 0 = some t := by
    rw [dirs_inheritKernel, if_pos rfl, ht]
  have hkernel : mm.inheritKernel.dirs .kernel 0 = some t := by rw [dirs_inheritKernel_kernel, ht]
  -- the loop changes entries of the kernel's tables only
  obtain ⟨mm₁, hloop, -, hshaped, hsound, hdirs, hdir, htable, hact⟩ := foldlM_ok
    (f := fun mm' addr => mm'.mapPageIn (.process mm.nextDirectory) addr.toNat addr flagsWritable)
    (P := fun l mm' => (∀ addr ∈ l, directoryIndex addr = 0) ∧ mm'.Shaped ∧
      (∀ {pfa}, mm.inheritKernel.Sound pfa → mm'.Sound pfa) ∧
      mm'.dirs = mm.inheritKernel.dirs ∧ mm'.nextDirectory = mm.nextDirectory + 1 ∧
      mm'.nextPageTable = mm.nextPageTable ∧ mm'.activeDirectory = mm.activeDirectory)
    (l := b.addrs) (s := mm.inheritKernel)
    (by
      rintro addr l mm₂ ⟨hl, hshaped, hsound, hdirs, hrest⟩
      have hzero := hl addr List.mem_cons_self
      rw [← hdirs] at hslot hkernel
      exact ⟨_, mapPageIn_present (hzero ▸ hslot), fun a ha => hl a (List.mem_cons_of_mem _ ha),
        hshaped.setPte, fun hs => (hsound hs).setPte_kernel hkernel, hdirs, hrest⟩)
    ⟨fun _ => BootStack.directoryIndex_eq_zero, h.inheritKernel, id, rfl, rfl, rfl, rfl⟩
  have hlt : mm.nextDirectory < mm₁.nextDirectory := hdir ▸ Nat.lt_succ_self _
  refine ⟨mm₁.borrowStack (.process mm.nextDirectory), ?_, hshaped.borrowStack hlt, fun hs => ?_,
    hdir, htable, hact, fun d s => ?_⟩
  · rw [Mmu.createAddressSpace, if_neg (Nat.not_le.mpr hn)]
    exact bind_eq_ok.mpr ⟨mm₁, hloop, rfl⟩
  · have hinherit := hs.of_tables h.inheritKernel dirs_inheritKernel_kernel id
    exact (hsound hinherit).of_tables (hshaped.borrowStack hlt) dirs_setDir_kernel id
  · rw [Mmu.borrowStack, dirs_setDir, hdirs, hact, dirs_inheritKernel, dirs_inheritKernel,
      if_neg hactive]
    by_cases hd : d = .process mm.nextDirectory <;> simp [hd]

theorem createAddressSpace_lt (h : mm.createAddressSpace b = .ok (dir, mm')) :
    mm.nextDirectory < 16 := by
  rw [Mmu.createAddressSpace] at h
  split at h
  · cases h
  · omega

/-! ### Pages -/

theorem pageMap_eq (mm : Mmu) (dir : Dir) (p : Nat) :
    mm.pageMap dir p = (mm.pte dir p).map Pte.frame := by
  rw [pageMap, pte, Option.map_bind]
  rfl

/-- A table stands in one slot of a directory, so a change of its entry is one of one page. -/
theorem Slotted.pte_of_entry {oe : Option Pte} (h : mm.Slotted) (hd : mm.dirs dir s = some t)
    (htables : ∀ {t' k'}, mm'.tables t' k' = if t' = t ∧ k' = k then oe else mm.tables t' k')
    (hdirs : mm'.dirs = mm.dirs) (p : Nat) :
    mm'.pte dir p = if p / 1024 = s ∧ p % 1024 = k then oe else mm.pte dir p := by
  simp only [pte, hdirs, htables]
  cases hs : mm.dirs dir (p / 1024) with
  | none =>
      have hne : p / 1024 ≠ s := fun heq => by
        rw [heq, hd] at hs
        cases hs
      simp [hne]
  | some t' =>
      have hslot : t' = t ↔ p / 1024 = s := by
        constructor
        · rintro rfl
          exact h.slot hs hd
        · intro heq
          rw [heq, hd] at hs
          exact (Option.some.inj hs).symm
      simp only [Option.bind_some, hslot]

/-- `mapPageIn` maps the page of `virt` and leaves the other pages of the directory alone. -/
theorem Slotted.pte_mapPageIn (h : mm.Slotted)
    (hm : mm.mapPageIn dir phys virt flgs = .ok mm') (p : Nat) :
    mm'.pte dir p =
      if p = virt.toNat / 4096 then some ⟨phys / 4096, flgs ||| 1⟩ else mm.pte dir p := by
  obtain ⟨t, mm₁, hp, rfl⟩ := mapPageIn_eq_ok.mp hm
  have hpage : ∀ {q : Nat}, p = q ↔ p / 1024 = q / 1024 ∧ p % 1024 = q % 1024 := by omega
  simp only [hpage, ← directoryIndex_eq, ← tableIndex_eq]
  rcases pageTable_cases hp with ⟨hd, rfl⟩ | ⟨hnone, hnew⟩
  · -- the slot had its table
    exact h.pte_of_entry hd tables_setPte rfl p
  · -- the new table stands nowhere else and is empty
    obtain ⟨-, rfl, rfl⟩ := newPageTable_eq_ok.mp hnew
    simp only [pte, dirs_setPte, tables_setPte, dirs_setDir, tables_setDir]
    by_cases heq : p / 1024 = directoryIndex virt
    · by_cases hk : p % 1024 = tableIndex virt <;> simp [heq, hk, hnone]
    · cases hs : mm.dirs dir (p / 1024) with
      | none => simp [heq]
      | some t' =>
          have hne : t' ≠ .pool mm.nextPageTable := by
            rintro rfl
            exact absurd (h.pool hs) (Nat.lt_irrefl _)
          simp [heq, hne]

theorem pte_mapPageIn (h : mm.Shaped) (hm : mm.mapPageIn dir phys virt flgs = .ok mm') (p : Nat) :
    mm'.pte dir p =
      if p = virt.toNat / 4096 then some ⟨phys / 4096, flgs ||| 1⟩ else mm.pte dir p :=
  h.slotted.pte_mapPageIn hm p

/-- `unmapPage` takes the page of `virt` from the kernel's directory, and no other page. -/
theorem Slotted.pte_unmapPage (h : mm.Slotted) (virt : Word) (p : Nat) :
    (mm.unmapPage virt).pte .kernel p =
      if p = virt.toNat / 4096 then none else mm.pte .kernel p := by
  have hpage : ∀ {q : Nat}, p = q ↔ p / 1024 = q / 1024 ∧ p % 1024 = q % 1024 := by omega
  simp only [hpage, ← directoryIndex_eq, ← tableIndex_eq]
  rw [Mmu.unmapPage]
  split
  · rename_i t hd
    exact h.pte_of_entry hd tables_clearPte rfl p
  · rename_i hd
    by_cases heq : p / 1024 = directoryIndex virt
    · simp [pte, heq, hd]
    · simp [heq]

theorem pageMap_mapPageIn (h : mm.Shaped) (hm : mm.mapPageIn dir phys virt flgs = .ok mm')
    (p : Nat) : mm'.pageMap dir p =
      if p = virt.toNat / 4096 then some (phys / 4096) else mm.pageMap dir p := by
  rw [pageMap_eq, pageMap_eq, pte_mapPageIn h hm]
  split <;> rfl

/-- Distinct pages of a directory, outside the kernel's slots, have distinct frames. -/
theorem Sound.pageMap_inj (h : mm.Sound pfa) {p q f : Nat} (hp : mm.dirs .kernel (p / 1024) = none)
    (hq : mm.dirs .kernel (q / 1024) = none) (hpf : mm.pageMap dir p = some f)
    (hqf : mm.pageMap dir q = some f) : p = q := by
  obtain ⟨t, ht, hte⟩ := Option.bind_eq_some_iff.mp hpf
  obtain ⟨e, he, rfl⟩ := Option.map_eq_some_iff.mp hte
  obtain ⟨t', ht', hte'⟩ := Option.bind_eq_some_iff.mp hqf
  obtain ⟨e', he', hee⟩ := Option.map_eq_some_iff.mp hte'
  obtain ⟨rfl, hk⟩ := h.frames (h.users hp ht) (h.users hq ht') he he' hee.symm
  have hs := h.slot ht ht'
  omega

end Mmu

end RivOS
