import RivOS.Mem.Mmu
import RivOS.Support.Runs

/-!
# Mem — Directories and tables as words

`mem/mmu/mmu.hpp` once more, on the arrays as they are: a directory entry is the address of a table
with two flags in its low bits, a table entry that of a page with the flags it was mapped with, and
both are there when bit 0 is set.  An array of 1024 entries is a function, which a loop over all of
them sets as a whole.

* `mmu_mapPageIn`, `mmu_unmapPage`, `mmu_createAddressSpace`: seen as tables and pages, the operations
  are those of `Mmu`.
* `inv_of_run`: in every run from `init` what is present in a directory points to a table, and each
  table stands in one slot.
* `mapping_is_a_point_update`: mapping and unmapping change what the processor finds for one page.
-/

namespace RivOS

/-- Where `firstPageTable` and the `pageTables` are in memory. -/
structure TableArrays where
  firstPageTable : Word
  pageTables : Word
  first_aligned : firstPageTable &&& 0xFFF = 0
  pool_aligned : pageTables &&& 0xFFF = 0
  apart : ∀ i < 16, pageTables + BitVec.ofNat 32 (i * 4096) ≠ firstPageTable

namespace TableArrays

variable (L : TableArrays)

def addr : Table → Word
  | .first => L.firstPageTable
  | .pool i => L.pageTables + BitVec.ofNat 32 (i * 4096)

/-- The table a pointer points to. -/
def tableAt (a : Word) : Option Table :=
  if a = L.firstPageTable then some .first
  else if (a - L.pageTables).toNat < 16 * 4096 ∧ (a - L.pageTables).toNat % 4096 = 0 then
    some (.pool ((a - L.pageTables).toNat / 4096))
  else none

end TableArrays

structure PageWords where
  dirs : Dir → Nat → Word
  tables : Table → Nat → Word
  nextPageTable : Nat
  nextDirectory : Nat
  activeDirectory : Dir

namespace PageWords

open Mmu (directoryIndex tableIndex stackPde)

/-! ### The code -/

section Code

variable (L : TableArrays) (w : PageWords)

def setDir (dir : Dir) (s : Nat) (v : Word) : PageWords :=
  { w with dirs := Function.update w.dirs dir (Function.update (w.dirs dir) s v) }

def setPte (t : Table) (k : Nat) (v : Word) : PageWords :=
  { w with tables := Function.update w.tables t (Function.update (w.tables t) k v) }

/-- The arrays before `init`: static data. -/
def statics : PageWords where
  dirs _ _ := 0
  tables _ _ := 0
  nextPageTable := 0
  nextDirectory := 0
  activeDirectory := .kernel

def init : PageWords :=
  let w := { w with
    dirs := Function.update w.dirs .kernel fun _ => 0x00000002
    tables := Function.update w.tables .first fun i => BitVec.ofNat 32 (i * 0x1000) ||| 3 }
  { w.setDir .kernel 0 (L.addr .first ||| 3) with activeDirectory := .kernel }

def newPageTable (dir : Dir) (s : Nat) : Except Halt (Table × PageWords) :=
  if w.nextPageTable ≥ 16 then kpanic "No more page tables: Should fix this"
  else
    let pageTable := Table.pool w.nextPageTable
    let w := { w with
      nextPageTable := w.nextPageTable + 1
      tables := Function.update w.tables pageTable fun _ => 0x00000002 }
    .ok (pageTable, w.setDir dir s (L.addr pageTable ||| 3))

def pageTable (dir : Dir) (s : Nat) : Except Halt (Table × PageWords) :=
  if w.dirs dir s &&& 1 = 0 then w.newPageTable L dir s
  else (orHalt .undefined (L.tableAt (w.dirs dir s &&& 0xFFFFF000))).map (·, w)

/-- What `mapPageIn` stores in the table. -/
def pteWord (physical flgs : Word) : Word := physical &&& 0xFFFFF000 ||| flgs ||| 1

def mapPageIn (dir : Dir) (phys virt flgs : Word) : Except Halt PageWords := do
  let (pageTable, w) ← w.pageTable L dir (directoryIndex virt)
  return w.setPte pageTable (tableIndex virt) (pteWord phys flgs)

def mapPage (phys virt flgs : Word) : Except Halt PageWords := w.mapPageIn L .kernel phys virt flgs

def unmapPage (virt : Word) : Except Halt PageWords :=
  if w.dirs .kernel (directoryIndex virt) &&& 1 = 0 then .ok w
  else do
    let pageTable ← orHalt .undefined
      (L.tableAt (w.dirs .kernel (directoryIndex virt) &&& 0xFFFFF000))
    return w.setPte pageTable (tableIndex virt) 0

def inheritKernel : PageWords :=
  { w with
    nextDirectory := w.nextDirectory + 1
    dirs := Function.update w.dirs (.process w.nextDirectory) (w.dirs .kernel) }

def createAddressSpace (b : BootStack) : Except Halt (Dir × PageWords) :=
  if w.nextDirectory ≥ 16 then kpanic "No more process address spaces: Should fix this"
  else do
    let dir := Dir.process w.nextDirectory
    let w ← b.addrs.foldlM (fun w addr => w.mapPageIn L dir addr addr 0x002) w.inheritKernel
    return (dir, w.setDir dir stackPde (w.dirs w.activeDirectory stackPde))

def switchAddressSpace (dir : Dir) : PageWords :=
  if dir = w.activeDirectory then w else { w with activeDirectory := dir }

/-- The processor's walk: the table entry of a page that is present in both levels. -/
def walk (dir : Dir) (virt : Word) : Option Word :=
  let pde := w.dirs dir (directoryIndex virt)
  if pde &&& 1 = 0 then none
  else
    (L.tableAt (pde &&& 0xFFFFF000)).bind fun pageTable =>
      let pte := w.tables pageTable (tableIndex virt)
      if pte &&& 1 = 0 then none else some pte

end Code

/-! ### Runs -/

/-- A call. -/
inductive Call where
  | mapPage (phys virt flgs : Word)
  | mapPageIn (dir : Dir) (phys virt flgs : Word)
  | unmapPage (virt : Word)
  | createAddressSpace
  | switchAddressSpace (dir : Dir)

/-- A call that returns. -/
def Step (L : TableArrays) (b : BootStack) (w : PageWords) (c : Call) (w' : PageWords) : Prop :=
  match c with
  | .mapPage phys virt flgs => w.mapPage L phys virt flgs = .ok w'
  | .mapPageIn dir phys virt flgs => w.mapPageIn L dir phys virt flgs = .ok w'
  | .unmapPage virt => w.unmapPage L virt = .ok w'
  | .createAddressSpace => (w.createAddressSpace L b).map Prod.snd = .ok w'
  | .switchAddressSpace dir => w.switchAddressSpace dir = w'

/-! ### Bits -/

section Bits

variable {a v virt phys flgs : Word}

theorem low_eq (a : Word) : (a &&& 0xFFF).toNat = a.toNat % 4096 := by
  have hmask : (0xFFF : Word).toNat = 2 ^ 12 - 1 := rfl
  rw [BitVec.toNat_and, hmask, Nat.and_two_pow_sub_one_eq_mod]

theorem aligned_iff : a &&& 0xFFF = 0 ↔ a.toNat % 4096 = 0 := by
  rw [← BitVec.toNat_inj, low_eq]
  rfl

/-- The page of a word with flags in its low bits. -/
theorem page_or_flags (ha : a &&& 0xFFF = 0) (hv : v &&& 0xFFFFF000 = 0) :
    (a ||| v) &&& 0xFFFFF000 = a := by
  have hall : (0xFFF ||| 0xFFFFF000 : Word) = BitVec.allOnes 32 := rfl
  calc (a ||| v) &&& 0xFFFFF000
      = a &&& 0xFFF ||| a &&& 0xFFFFF000 := by
        rw [BitVec.and_or_distrib_right, hv, ha]
        simp
    _ = a := by rw [← BitVec.and_or_distrib_left, hall, BitVec.and_allOnes]

theorem present_or (a : Word) (hv : v &&& 1 = 1) : (a ||| v) &&& 1 ≠ 0 := by
  rw [BitVec.and_or_distrib_right, hv]
  intro h
  exact absurd (BitVec.or_eq_zero_iff.mp h).2 (by decide)

/-- Flags below 0x1000 are the low bits. -/
theorem flags_eq_low (hflgs : flgs < 0x1000) : flgs = flgs &&& 0xFFF := by
  have hlt : flgs.toNat < 4096 := hflgs
  rw [← BitVec.toNat_inj, low_eq, Nat.mod_eq_of_lt hlt]

theorem pteWord_page (phys : Word) (hflgs : flgs < 0x1000) :
    pteWord phys flgs &&& 0xFFFFF000 = phys &&& 0xFFFFF000 := by
  have hnone : flgs &&& 0xFFFFF000 = 0 := by
    rw [flags_eq_low hflgs, BitVec.and_assoc]
    exact BitVec.and_zero
  rw [pteWord, BitVec.and_or_distrib_right, BitVec.and_or_distrib_right, hnone, BitVec.and_assoc]
  simp

theorem pteWord_flags (phys : Word) (hflgs : flgs < 0x1000) :
    pteWord phys flgs &&& 0xFFF = flgs ||| 1 := by
  rw [pteWord, BitVec.and_or_distrib_right, BitVec.and_or_distrib_right, BitVec.and_assoc,
    ← flags_eq_low hflgs]
  simp

theorem page_toNat (a : Word) : (a &&& 0xFFFFF000).toNat / 4096 = a.toNat / 4096 := by
  have hpage : (a &&& 0xFFFFF000) >>> 12 = a >>> 12 := by
    have hmask : ((0xFFFFF000 : Word) >>> 12).toNat = 2 ^ 20 - 1 := rfl
    rw [BitVec.ushiftRight_and_distrib, ← BitVec.toNat_inj, BitVec.toNat_and, hmask,
      Nat.and_two_pow_sub_one_eq_mod, BitVec.toNat_ushiftRight, Nat.shiftRight_eq_div_pow]
    omega
  have hnat := congrArg BitVec.toNat hpage
  rwa [BitVec.toNat_ushiftRight, BitVec.toNat_ushiftRight, Nat.shiftRight_eq_div_pow,
    Nat.shiftRight_eq_div_pow] at hnat

theorem pteWord_present (phys flgs : Word) : pteWord phys flgs &&& 1 ≠ 0 := present_or _ rfl

end Bits

/-! ### As tables and pages -/

section Mmu

variable {L : TableArrays} {w w' : PageWords} {t : Table} {dir : Dir} {s k : Nat}
  {v phys virt flgs : Word}

/-- The table of a directory entry. -/
def slot (L : TableArrays) (v : Word) : Option Table :=
  if v &&& 1 = 0 then none else L.tableAt (v &&& 0xFFFFF000)

/-- The page of a table entry. -/
def entry (v : Word) : Option Pte :=
  if v &&& 1 = 0 then none else some ⟨(v >>> 12).toNat, (v &&& 0xFFF).toNat⟩

def mmu (L : TableArrays) (w : PageWords) : Mmu where
  dirs d s := slot L (w.dirs d s)
  tables t k := entry (w.tables t k)
  nextPageTable := w.nextPageTable
  nextDirectory := w.nextDirectory
  activeDirectory := w.activeDirectory

/-- There are 16 tables in the pool. -/
def IsTable : Table → Prop
  | .first => True
  | .pool i => i < 16

theorem addr_aligned (L : TableArrays) (t : Table) : L.addr t &&& 0xFFF = 0 := by
  cases t with
  | first => exact L.first_aligned
  | pool i =>
      have hpool := aligned_iff.mp L.pool_aligned
      rw [TableArrays.addr, aligned_iff, BitVec.toNat_add, BitVec.toNat_ofNat]
      omega

theorem tableAt_addr (ht : IsTable t) : L.tableAt (L.addr t) = some t := by
  cases t with
  | first => exact if_pos rfl
  | pool i =>
      have hi : i < 16 := ht
      have hoff : (L.addr (.pool i) - L.pageTables).toNat = i * 4096 := by
        rw [TableArrays.addr, BitVec.add_comm, BitVec.add_sub_cancel, BitVec.toNat_ofNat]
        omega
      have hne : L.addr (.pool i) ≠ L.firstPageTable := L.apart i hi
      rw [TableArrays.tableAt, if_neg hne, hoff, if_pos (by omega),
        Nat.mul_div_cancel _ (by decide)]

theorem slot_addr (ht : IsTable t) : slot L (L.addr t ||| 3) = some t := by
  rw [slot, if_neg (present_or _ rfl), page_or_flags (addr_aligned L t) rfl, tableAt_addr ht]

theorem and_one_of_ne (hv : v &&& 1 ≠ 0) : v &&& 1 = 1 := by
  have hbit : (v &&& 1).toNat = v.toNat % 2 := by
    rw [BitVec.toNat_and]
    exact Nat.and_one_is_mod _
  refine BitVec.eq_of_toNat_eq ?_
  have hne : (v &&& 1).toNat ≠ 0 := fun h => hv (BitVec.eq_of_toNat_eq h)
  rw [hbit] at hne ⊢
  exact Nat.mod_two_ne_zero.mp hne

theorem entry_eq (hv : v &&& 1 ≠ 0) :
    entry v = some ⟨v.toNat / 4096, (v &&& 0xFFF).toNat ||| 1⟩ := by
  have hflags : v &&& 0xFFF ||| 1 = v &&& 0xFFF := by
    have hmask : (0xFFF ||| 1 : Word) = 0xFFF := rfl
    rw [← and_one_of_ne hv, ← BitVec.and_or_distrib_left, hmask]
  have hnat : (v &&& 0xFFF).toNat ||| 1 = (v &&& 0xFFF).toNat := congrArg BitVec.toNat hflags
  rw [entry, if_neg hv, hnat, BitVec.toNat_ushiftRight, Nat.shiftRight_eq_div_pow]

/-- A table entry is determined by its page and its flags. -/
theorem entry_inj {v' : Word} (hv : v &&& 1 ≠ 0) (h : entry v' = entry v) : v' = v := by
  rw [entry, entry, if_neg hv] at h
  split at h
  · cases h
  · obtain ⟨hpage, hlow⟩ := Pte.mk.inj (Option.some.inj h)
    rw [low_eq, low_eq] at hlow
    rw [BitVec.toNat_ushiftRight, BitVec.toNat_ushiftRight, Nat.shiftRight_eq_div_pow,
      Nat.shiftRight_eq_div_pow] at hpage
    refine BitVec.eq_of_toNat_eq ?_
    omega

/-- Read as something else, an array of arrays with one word set has one entry set. -/
theorem map_update {ι α : Type} [DecidableEq ι] (g : Word → α) (words : ι → Nat → Word) (i : ι)
    (k : Nat) (v : Word) :
    (fun i' k' => g (Function.update words i (Function.update (words i) k v) i' k')) =
      Function.update (fun i' k' => g (words i' k')) i
        (Function.update (fun k' => g (words i k')) k (g v)) := by
  funext i' k'
  by_cases hi : i' = i
  · subst hi
    by_cases hk : k' = k <;> simp [hk]
  · simp [hi]

theorem mmu_setDir : (w.setDir dir s v).mmu L = (w.mmu L).setDir dir s (slot L v) :=
  congrArg (fun dirs => { w.mmu L with dirs }) (map_update (slot L) w.dirs dir s v)

theorem tables_mmu_setPte : ((w.setPte t k v).mmu L).tables =
    Function.update (w.mmu L).tables t (Function.update ((w.mmu L).tables t) k (entry v)) :=
  map_update entry w.tables t k v

theorem mmu_setPte {e : Pte} (he : entry v = some e) :
    (w.setPte t k v).mmu L = (w.mmu L).setPte t k e :=
  congrArg (fun tables => { w.mmu L with tables }) (he ▸ tables_mmu_setPte)

theorem mmu_clearPte : (w.setPte t k 0).mmu L = (w.mmu L).clearPte t k :=
  congrArg (fun tables => { w.mmu L with tables }) tables_mmu_setPte

/-! ### The operations -/

/-- A directory entry that is present points to a table. -/
structure Pointing (L : TableArrays) (w : PageWords) : Prop where
  points : ∀ {d s}, w.dirs d s &&& 1 ≠ 0 → ∃ t, IsTable t ∧ w.dirs d s = L.addr t ||| 3
  pool : w.nextPageTable ≤ 16

theorem Pointing.setPte (h : Pointing L w) : Pointing L (w.setPte t k v) := ⟨h.points, h.pool⟩

theorem dirs_setDir {d : Dir} {s' : Nat} : (w.setDir dir s v).dirs d s' =
    if d = dir ∧ s' = s then v else w.dirs d s' := by
  by_cases hd : d = dir
  · subst hd
    by_cases hs : s' = s <;> simp [setDir, hs]
  · simp [setDir, hd]

theorem Pointing.setDir (h : Pointing L w)
    (hv : v &&& 1 ≠ 0 → ∃ t, IsTable t ∧ v = L.addr t ||| 3) : Pointing L (w.setDir dir s v) := by
  refine ⟨fun {d s'} hp => ?_, h.pool⟩
  rw [dirs_setDir] at hp ⊢
  split
  · next hc =>
    rw [if_pos hc] at hp
    exact hv hp
  · next hc =>
    rw [if_neg hc] at hp
    exact h.points hp

theorem mmu_newPageTable : (w.newPageTable L dir s).map (Prod.map id (mmu L)) =
    (w.mmu L).newPageTable dir s := by
  rw [newPageTable, Mmu.newPageTable]
  by_cases hfull : w.nextPageTable ≥ 16
  · rw [if_pos hfull, if_pos (show (w.mmu L).nextPageTable ≥ 16 from hfull)]
    rfl
  · have ht : IsTable (.pool w.nextPageTable) := Nat.not_le.mp hfull
    rw [if_neg hfull, if_neg (show ¬ (w.mmu L).nextPageTable ≥ 16 from hfull)]
    refine congrArg (fun mm => Except.ok (_, mm)) ?_
    rw [mmu_setDir, slot_addr ht]
    refine congrArg (fun tables => Mmu.setDir { w.mmu L with
      nextPageTable := w.nextPageTable + 1, tables } dir s (some (.pool w.nextPageTable))) ?_
    funext t' k'
    by_cases ht' : t' = .pool w.nextPageTable <;> simp [mmu, entry, ht']

theorem mmu_pageTable (h : Pointing L w) :
    (w.pageTable L dir s).map (Prod.map id (mmu L)) = (w.mmu L).pageTable dir s := by
  by_cases hp : w.dirs dir s &&& 1 = 0
  · have hnone : (w.mmu L).dirs dir s = none := if_pos hp
    rw [pageTable, if_pos hp, Mmu.pageTable, hnone]
    exact mmu_newPageTable
  · obtain ⟨t, ht, hpde⟩ := h.points hp
    have hsome : (w.mmu L).dirs dir s = some t := by
      change slot L (w.dirs dir s) = some t
      rw [hpde, slot_addr ht]
    rw [pageTable, if_neg hp, Mmu.pageTable, hsome, hpde, page_or_flags (addr_aligned L t) rfl,
      tableAt_addr ht]
    rfl

theorem Pointing.pageTable {w₁ : PageWords} (h : Pointing L w)
    (ho : w.pageTable L dir s = .ok (t, w₁)) : Pointing L w₁ := by
  rw [PageWords.pageTable] at ho
  split at ho
  · rw [newPageTable] at ho
    split at ho
    · cases ho
    · next hlt =>
      cases ho
      have ht : IsTable (.pool w.nextPageTable) := Nat.not_le.mp hlt
      exact Pointing.setDir ⟨h.points, ht⟩ fun _ => ⟨_, ht, rfl⟩
  · obtain ⟨t', -, hret⟩ := map_eq_ok.mp ho
    cases hret
    exact h

theorem Pointing.mapPageIn (h : Pointing L w) (hm : w.mapPageIn L dir phys virt flgs = .ok w') :
    Pointing L w' := by
  obtain ⟨⟨t, w₁⟩, hp, hret⟩ := bind_eq_ok.mp hm
  cases hret
  exact (h.pageTable hp).setPte

/-- What lies above the low bits of the flags goes into the page. -/
theorem mmu_mapPageIn_any (h : Pointing L w) (dir : Dir) (phys virt flgs : Word) :
    (w.mapPageIn L dir phys virt flgs).map (mmu L) = (w.mmu L).mapPageIn dir
      (pteWord phys flgs).toNat virt (pteWord phys flgs &&& 0xFFF).toNat := by
  rw [mapPageIn, Mmu.mapPageIn, ← mmu_pageTable h]
  cases w.pageTable L dir (directoryIndex virt) with
  | error e => rfl
  | ok r => exact congrArg Except.ok (mmu_setPte (entry_eq (pteWord_present phys flgs)))

theorem mmu_mapPageIn (h : Pointing L w) (hflgs : flgs < 0x1000) :
    (w.mapPageIn L dir phys virt flgs).map (mmu L) =
      (w.mmu L).mapPageIn dir phys.toNat virt flgs.toNat := by
  have hpage : (pteWord phys flgs).toNat / 4096 = phys.toNat / 4096 := by
    rw [← page_toNat, pteWord_page phys hflgs, page_toNat]
  have hflags : (pteWord phys flgs &&& 0xFFF).toNat ||| 1 = flgs.toNat ||| 1 := by
    rw [pteWord_flags phys hflgs, BitVec.toNat_or, Nat.or_assoc]
    rfl
  rw [mmu_mapPageIn_any h, Mmu.mapPageIn, Mmu.mapPageIn, hpage, hflags]

theorem Pointing.unmapPage (h : Pointing L w) (hu : w.unmapPage L virt = .ok w') :
    Pointing L w' := by
  rw [PageWords.unmapPage] at hu
  split at hu
  · cases hu
    exact h
  · obtain ⟨t, -, hret⟩ := bind_eq_ok.mp hu
    cases hret
    exact h.setPte

/-- `unmapPage` returns. -/
theorem mmu_unmapPage (h : Pointing L w) (virt : Word) :
    (w.unmapPage L virt).map (mmu L) = .ok ((w.mmu L).unmapPage virt) := by
  by_cases hp : w.dirs .kernel (directoryIndex virt) &&& 1 = 0
  · have hnone : (w.mmu L).dirs .kernel (directoryIndex virt) = none := if_pos hp
    rw [unmapPage, if_pos hp, Mmu.unmapPage, hnone]
    rfl
  · obtain ⟨t, ht, hpde⟩ := h.points hp
    have hsome : (w.mmu L).dirs .kernel (directoryIndex virt) = some t := by
      change slot L (w.dirs .kernel (directoryIndex virt)) = some t
      rw [hpde, slot_addr ht]
    rw [unmapPage, if_neg hp, Mmu.unmapPage, hsome, hpde, page_or_flags (addr_aligned L t) rfl,
      tableAt_addr ht]
    exact congrArg Except.ok mmu_clearPte

theorem Pointing.inheritKernel (h : Pointing L w) : Pointing L w.inheritKernel := by
  refine ⟨fun {d s} hp => ?_, h.pool⟩
  by_cases hd : d = .process w.nextDirectory
  · subst hd
    simp only [PageWords.inheritKernel, Function.update_self] at hp ⊢
    exact h.points hp
  · simp only [PageWords.inheritKernel, Function.update_of_ne hd] at hp ⊢
    exact h.points hp

theorem mmu_inheritKernel : w.inheritKernel.mmu L = (w.mmu L).inheritKernel := by
  have hdirs : (w.inheritKernel.mmu L).dirs = (w.mmu L).inheritKernel.dirs := by
    funext d s
    by_cases hd : d = .process w.nextDirectory
    · subst hd
      simp [mmu, inheritKernel, Mmu.inheritKernel]
    · simp [mmu, inheritKernel, Mmu.inheritKernel, hd]
  rw [Mmu.inheritKernel] at hdirs ⊢
  exact congrArg (fun dirs => { w.mmu L with nextDirectory := w.nextDirectory + 1, dirs }) hdirs

/-- The entry that is taken over for the stack slot is one that points. -/
theorem Pointing.borrowStack (h : Pointing L w) (dir d : Dir) :
    Pointing L (w.setDir dir stackPde (w.dirs d stackPde)) := h.setDir h.points

theorem Pointing.createAddressSpace {b : BootStack} (h : Pointing L w)
    (hc : w.createAddressSpace L b = .ok (dir, w')) : Pointing L w' := by
  rw [PageWords.createAddressSpace] at hc
  split at hc
  · cases hc
  · obtain ⟨w₁, hloop, hret⟩ := bind_eq_ok.mp hc
    cases hret
    exact (foldlM_inv (P := fun _ w => Pointing L w) (fun hs hm => hs.mapPageIn hm)
      h.inheritKernel hloop).borrowStack _ _

theorem mmu_mapStack (dir : Dir) (h : Pointing L w) (addrs : List Word) :
    (addrs.foldlM (fun (w : PageWords) addr => w.mapPageIn L dir addr addr 0x002) w).map (mmu L) =
      addrs.foldlM (fun mm addr => mm.mapPageIn dir addr.toNat addr Mmu.flagsWritable)
        (w.mmu L) := by
  refine foldlM_map (I := Pointing L) (fun hs hm => hs.mapPageIn hm) (fun hs => ?_) h
  exact mmu_mapPageIn hs (show (0x002 : Word) < 0x1000 by decide)

theorem mmu_createAddressSpace (h : Pointing L w) (b : BootStack) :
    (w.createAddressSpace L b).map (Prod.map id (mmu L)) = (w.mmu L).createAddressSpace b := by
  rw [createAddressSpace, Mmu.createAddressSpace]
  by_cases hfull : w.nextDirectory ≥ 16
  · rw [if_pos hfull, if_pos (show (w.mmu L).nextDirectory ≥ 16 from hfull)]
    rfl
  · have hloop := mmu_mapStack (.process w.nextDirectory) h.inheritKernel b.addrs
    rw [mmu_inheritKernel] at hloop
    rw [if_neg hfull, if_neg (show ¬ (w.mmu L).nextDirectory ≥ 16 from hfull)]
    simp only
    change _ = (b.addrs.foldlM _ (w.mmu L).inheritKernel >>= _)
    rw [show Dir.process (w.mmu L).nextDirectory = .process w.nextDirectory from rfl, ← hloop]
    cases b.addrs.foldlM (fun (w' : PageWords) addr => w'.mapPageIn L (.process w.nextDirectory)
      addr addr 0x002) w.inheritKernel with
    | error e => rfl
    | ok w₁ => exact congrArg (fun mm => Except.ok (_, mm)) mmu_setDir

/-! ### The walk -/

theorem walk_eq (L : TableArrays) (w : PageWords) (dir : Dir) (virt : Word) :
    (w.walk L dir virt).bind entry = (w.mmu L).pte dir (virt.toNat / 4096) := by
  rw [Mmu.pte, ← Mmu.directoryIndex_eq, ← Mmu.tableIndex_eq, walk]
  simp only [mmu, slot]
  split
  · rfl
  · rw [Option.bind_assoc]
    refine congrArg _ (funext fun t => ?_)
    by_cases hpte : w.tables t (tableIndex virt) &&& 1 = 0
    · rw [entry, if_pos hpte, if_pos hpte, Option.bind_none]
    · rw [if_neg hpte, Option.bind_some]

theorem present_of_walk (h : w.walk L dir virt = some v) : v &&& 1 ≠ 0 := by
  rw [walk] at h
  simp only at h
  split at h
  · cases h
  · obtain ⟨t, -, ht⟩ := Option.bind_eq_some_iff.mp h
    split at ht
    · cases ht
    · next hne =>
      cases ht
      exact hne

/-- What the walk finds is a matter of the page and its flags. -/
theorem walk_eq_iff {o : Option Word} (ho : ∀ v, o = some v → v &&& 1 ≠ 0) :
    w.walk L dir virt = o ↔ (w.mmu L).pte dir (virt.toNat / 4096) = o.bind entry := by
  rw [← walk_eq]
  refine ⟨fun h => by rw [h], fun h => ?_⟩
  cases o with
  | none =>
      cases hw : w.walk L dir virt with
      | none => rfl
      | some v =>
          rw [hw, Option.bind_some, entry_eq (present_of_walk hw)] at h
          cases h
  | some v =>
      cases hw : w.walk L dir virt with
      | none =>
          rw [hw, Option.bind_some, entry_eq (ho v rfl)] at h
          cases h
      | some v' =>
          rw [hw, Option.bind_some, Option.bind_some] at h
          rw [entry_inj (ho v rfl) h]

/-! ### Every run -/

/-- The directories point to tables, each table from one slot. -/
structure Inv (L : TableArrays) (w : PageWords) : Prop where
  pointing : Pointing L w
  slotted : (w.mmu L).Slotted

theorem inv_init (L : TableArrays) : Inv L (statics.init L) := by
  have hdirs : ∀ {d s}, (statics.init L).dirs d s &&& 1 ≠ 0 →
      d = .kernel ∧ s = 0 ∧ (statics.init L).dirs d s = L.addr .first ||| 3 := by
    intro d s hp
    simp only [init, dirs_setDir] at hp ⊢
    split at hp
    · next hc => exact ⟨hc.1, hc.2, if_pos hc⟩
    · cases d with
      | kernel => exact absurd hp (by simp)
      | process i => exact absurd hp (by simp [statics])
  have hslots : ∀ {d s t}, ((statics.init L).mmu L).dirs d s = some t → s = 0 ∧ t = .first := by
    intro d s t hd
    change slot L _ = some t at hd
    by_cases hp : (statics.init L).dirs d s &&& 1 = 0
    · rw [slot, if_pos hp] at hd
      cases hd
    · obtain ⟨-, rfl, heq⟩ := hdirs hp
      rw [heq, slot_addr (t := .first) trivial] at hd
      cases hd
      exact ⟨rfl, rfl⟩
  have hpoints : Pointing L (statics.init L) :=
    ⟨fun hp => ⟨.first, trivial, (hdirs hp).2.2⟩, Nat.zero_le 16⟩
  refine ⟨hpoints, fun h h' => ?_, fun h => ?_⟩
  · rw [(hslots h).1, (hslots h').1]
  · cases (hslots h).2

theorem inv_step {b : BootStack} {c : Call} (h : Inv L w) (hs : Step L b w c w') : Inv L w' := by
  have hmap : ∀ {dir phys virt flgs}, w.mapPageIn L dir phys virt flgs = .ok w' → Inv L w' := by
    intro dir phys virt flgs hm
    have hmm := mmu_mapPageIn_any h.pointing dir phys virt flgs
    rw [hm] at hmm
    exact ⟨h.pointing.mapPageIn hm, h.slotted.mapPageIn hmm.symm⟩
  cases c with
  | mapPage phys virt flgs => exact hmap hs
  | mapPageIn dir phys virt flgs => exact hmap hs
  | unmapPage virt =>
      have hmm := mmu_unmapPage h.pointing virt
      rw [show w.unmapPage L virt = .ok w' from hs] at hmm
      refine ⟨h.pointing.unmapPage hs, ?_⟩
      rw [Except.ok.inj hmm]
      exact h.slotted.unmapPage virt
  | createAddressSpace =>
      obtain ⟨⟨dir, w₁⟩, hc, rfl⟩ := map_eq_ok.mp hs
      have hmm := mmu_createAddressSpace h.pointing b
      rw [hc] at hmm
      exact ⟨h.pointing.createAddressSpace hc, h.slotted.createAddressSpace hmm.symm⟩
  | switchAddressSpace dir =>
      obtain rfl : w.switchAddressSpace dir = w' := hs
      rw [PageWords.switchAddressSpace]
      split
      · exact h
      · exact ⟨⟨h.pointing.points, h.pointing.pool⟩, h.slotted.slot, h.slotted.pool⟩

theorem inv_of_run {b : BootStack} {cs : List Call} (run : Run (Step L b) (statics.init L) cs w) :
    Inv L w :=
  run.inv (inv_init L) inv_step

/-- The pages of two addresses. -/
theorem page_eq_iff {v : Word} : v >>> 12 = virt >>> 12 ↔ v.toNat / 4096 = virt.toNat / 4096 := by
  rw [← BitVec.toNat_inj, BitVec.toNat_ushiftRight, BitVec.toNat_ushiftRight,
    Nat.shiftRight_eq_div_pow, Nat.shiftRight_eq_div_pow]

theorem walk_mapPageIn (h : Inv L w)
    (hm : w.mapPageIn L dir phys virt flgs = .ok w') (v : Word) :
    w'.walk L dir v = if v >>> 12 = virt >>> 12 then some (pteWord phys flgs)
      else w.walk L dir v := by
  have hmm := mmu_mapPageIn_any h.pointing dir phys virt flgs
  rw [hm] at hmm
  rw [walk_eq_iff, h.slotted.pte_mapPageIn hmm.symm]
  simp only [page_eq_iff]
  · split
    · exact (entry_eq (pteWord_present phys flgs)).symm
    · exact (walk_eq L w dir v).symm
  · intro p hp
    split at hp
    · cases hp
      exact pteWord_present phys flgs
    · exact present_of_walk hp

theorem walk_unmapPage (h : Inv L w) (hu : w.unmapPage L virt = .ok w') (v : Word) :
    w'.walk L .kernel v = if v >>> 12 = virt >>> 12 then none else w.walk L .kernel v := by
  have hmm := mmu_unmapPage h.pointing virt
  rw [hu] at hmm
  rw [walk_eq_iff, Except.ok.inj hmm, h.slotted.pte_unmapPage]
  simp only [page_eq_iff]
  · split
    · rfl
    · exact (walk_eq L w .kernel v).symm
  · intro p hp
    split at hp
    · cases hp
    · exact present_of_walk hp

/-- `mapPageIn` returns, unless the slot has no table and there is none left. -/
theorem mapPageIn_returns (h : Inv L w) (dir : Dir) (phys virt flgs : Word) :
    (16 ≤ w.nextPageTable ∧ w.dirs dir (directoryIndex virt) &&& 1 = 0 ∧
      w.mapPageIn L dir phys virt flgs = kpanic "No more page tables: Should fix this") ∨
        ∃ w', w.mapPageIn L dir phys virt flgs = .ok w' := by
  by_cases hp : w.dirs dir (directoryIndex virt) &&& 1 = 0
  · by_cases hfull : w.nextPageTable ≥ 16
    · refine .inl ⟨hfull, hp, ?_⟩
      rw [mapPageIn, pageTable, if_pos hp, newPageTable, if_pos hfull]
      rfl
    · rw [mapPageIn, pageTable, if_pos hp, newPageTable, if_neg hfull]
      exact .inr ⟨_, rfl⟩
  · obtain ⟨t, ht, hpde⟩ := h.pointing.points hp
    refine .inr ⟨w.setPte t (tableIndex virt) (pteWord phys flgs), ?_⟩
    rw [mapPageIn, pageTable, if_neg hp, hpde, page_or_flags (addr_aligned L t) rfl,
      tableAt_addr ht]
    rfl

theorem unmapPage_returns (h : Inv L w) (virt : Word) : ∃ w', w.unmapPage L virt = .ok w' := by
  obtain ⟨w', hu, -⟩ := map_eq_ok.mp (mmu_unmapPage h.pointing virt)
  exact ⟨w', hu⟩

/-- **Mapping a page changes that page.**  In every state that `init` and the other calls lead to,
`mapPageIn` makes the walk of its directory find the page it was given under the flags it was given,
and `unmapPage` makes that of the kernel's find nothing; for every other page the walk finds what it
found before. -/
theorem mapping_is_a_point_update (L : TableArrays) (b : BootStack) {cs : List Call}
    (run : Run (Step L b) (statics.init L) cs w) :
    (∀ (dir : Dir) (phys virt flgs : Word), flgs < 0x1000 →
      (16 ≤ w.nextPageTable ∧ w.dirs dir (directoryIndex virt) &&& 1 = 0 ∧
        w.mapPageIn L dir phys virt flgs = kpanic "No more page tables: Should fix this") ∨
      ∃ w' pte, w.mapPageIn L dir phys virt flgs = .ok w' ∧
        pte &&& 0xFFFFF000 = phys &&& 0xFFFFF000 ∧ pte &&& 0xFFF = flgs ||| 1 ∧
          ∀ v, w'.walk L dir v = if v >>> 12 = virt >>> 12 then some pte else w.walk L dir v) ∧
    ∀ virt : Word, ∃ w', w.unmapPage L virt = .ok w' ∧
      ∀ v, w'.walk L .kernel v = if v >>> 12 = virt >>> 12 then none else w.walk L .kernel v := by
  have h := inv_of_run run
  refine ⟨fun dir phys virt flgs hflgs => ?_, fun virt => ?_⟩
  · refine (mapPageIn_returns h dir phys virt flgs).imp_right ?_
    rintro ⟨w', hm⟩
    exact ⟨w', pteWord phys flgs, hm, pteWord_page phys hflgs, pteWord_flags phys hflgs,
      walk_mapPageIn h hm⟩
  · obtain ⟨w', hu⟩ := unmapPage_returns h virt
    exact ⟨w', hu, walk_unmapPage h hu⟩

/-- The first table and the pool one behind the other. -/
def someArrays : TableArrays := ⟨0x120000, 0x121000, rfl, rfl, by decide⟩

/-- After `init` 0xC0000000 is mapped, in a new table. -/
theorem mapping_is_a_point_update_init : ∃ w' pte,
      (statics.init someArrays).mapPageIn someArrays .kernel 0x500000 0xC0000000 3 = .ok w' ∧
      w'.walk someArrays .kernel 0xC0000123 = some pte ∧ pte &&& 0xFFF = 3 := by
  have b : BootStack := ⟨0x130000, 0x134000, by decide, by decide⟩
  rcases (mapping_is_a_point_update someArrays b .nil).1 .kernel 0x500000 0xC0000000 3 (by decide)
    with ⟨hfull, -⟩ | ⟨w', pte, hm, -, hflags, hwalk⟩
  · exact absurd hfull (by decide)
  · exact ⟨w', pte, hm, (hwalk _).trans (if_pos (by decide)), hflags⟩

end Mmu

end PageWords
end RivOS
