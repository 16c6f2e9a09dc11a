import Mathlib.Data.List.Nodup
import Mathlib.Data.Finset.Card
import RivOS.Proc.LoadImage

/-!
# Proc — The heap of a process

The `Mmap` system call, over any history of loading, starting, switching and growing processes.

* `Extends`, `Heaped`: no call takes a table from a slot but the stack's, so that below its break
  every process has tables; seventeen tables bound the break (`Heaped.brk_le`).
* `mapHeap_cases`: the loop has mapped what it went through, on frames that were free.
* `mmap_maps`: in every run, a call that returns an address has mapped what it was asked for exactly
  if rounding up to pages did not wrap around.
* `mmap_fails_iff`: a request that cannot be met leaves everything as it was exactly if there was no
  free frame at all, the same apart.
-/

namespace RivOS

open Kernel (Call mapHeap)
open Mmu (stackPde)

variable {mm mm' mm₁ : Mmu} {pfa pfa' : PhysicalFrameAllocator} {i j n pg : Nat} {d dir : Dir}
  {virt : Word} {virts : List Word} {l l' : Mapping} {b : BootStack} {file : PMem}
  {k k' : Kernel} {s s' : System} {p q : Process} {mem mem' : Mem} {hdr : ElfHeader32}
  {edi a : Word}

/-! ### Tables stay -/

/-- From `mm` to `mm'` no slot but the stack's has lost its table, and the pool is not exceeded. -/
structure Extends (mm mm' : Mmu) : Prop where
  slots : ∀ d s, s ≠ stackPde → (mm.dirs d s).isSome → (mm'.dirs d s).isSome
  pool : mm.nextPageTable ≤ 16 → mm'.nextPageTable ≤ 16

theorem Extends.refl (mm : Mmu) : Extends mm mm := ⟨fun _ _ _ h => h, id⟩

theorem Extends.trans (h : Extends mm mm₁) (h₁ : Extends mm₁ mm') : Extends mm mm' :=
  ⟨fun d s hs hd => h₁.slots d s hs (h.slots d s hs hd), fun hp => h₁.pool (h.pool hp)⟩

theorem Extends.setStack (h : Extends mm mm') (o : Option Table) :
    Extends mm (mm'.setDir dir stackPde o) where
  slots d s hs hd := by
    rw [Mmu.dirs_setDir, if_neg fun hc => hs hc.2]
    exact h.slots d s hs hd
  pool := h.pool

theorem extends_mapPageIn {phys flgs : Nat} (hm : mm.mapPageIn dir phys virt flgs = .ok mm') :
    Extends mm mm' := by
  obtain ⟨t, mm₁, hp, rfl⟩ := Mmu.mapPageIn_eq_ok.mp hm
  rcases Mmu.pageTable_cases hp with ⟨-, rfl⟩ | ⟨-, hn⟩
  · exact ⟨fun _ _ _ h => h, id⟩
  · obtain ⟨hlt, rfl, rfl⟩ := Mmu.newPageTable_eq_ok.mp hn
    refine ⟨fun d s _ hd => ?_, fun _ => hlt⟩
    rw [Mmu.dirs_setPte, Mmu.dirs_setDir]
    split
    · rfl
    · exact hd

theorem extends_enter {alloc : Nat × PhysicalFrameAllocator}
    (he : l.enter dir virt alloc = .ok l') : Extends l.mmu l'.mmu := by
  obtain ⟨mmu, hm, hl⟩ := bind_eq_ok.mp he
  cases hl
  exact extends_mapPageIn hm

theorem extends_loadHeaders {is : List Nat}
    (hm : is.foldlM (ElfExecutable.loadHeader file dir hdr) (l, mem) = .ok (l', mem')) :
    Extends l.mmu l'.mmu := by
  refine foldlM_inv (P := fun _ (s : Mapping × Mem) => Extends l.mmu s.1.mmu)
    (fun {_ _ s s'} hs hstep => ?_) (.refl _) hm
  rcases ElfExecutable.loadHeader_cases hstep with rfl | ⟨ph, -, hload⟩
  · exact hs
  · refine foldlM_inv (P := fun _ (l' : Mapping) => Extends l.mmu l'.mmu)
      (fun {virt _ l₁ l₂} hl hstep => ?_) hs (ElfExecutable.loadSegment_cases hload).1
    rw [ElfExecutable.mapPage] at hstep
    split at hstep
    · cases hstep
    · exact hl.trans (extends_enter hstep)

theorem extends_created (h : mm.Shaped) (hc : Mmu.Created mm mm') : Extends mm mm' where
  slots d s hs hd := by
    have hne : d ≠ .process mm.nextDirectory := by
      rintro rfl
      rw [h.unused (Nat.le_refl _) s] at hd
      cases hd
    rwa [hc.dirs, if_neg hne]
  pool hp := by rwa [hc.nextPageTable]

theorem extends_mapHeap {r : Bool × Mmu × PhysicalFrameAllocator}
    (hm : mapHeap dir mm pfa virts = .ok r) : Extends mm r.2.1 := by
  induction virts generalizing mm pfa with
  | nil =>
      cases hm
      exact .refl _
  | cons virt rest ih =>
      rw [mapHeap] at hm
      split at hm
      · cases hm
        exact .refl _
      · obtain ⟨mm₁, hmap, hm⟩ := bind_eq_ok.mp hm
        exact (extends_mapPageIn hmap).trans (ih hm)

/-! ### Breaks -/

/-- The pages of the heap of the `i`-th process lie in slots with tables. -/
structure Process.HeapIn (p : Process) (mm : Mmu) (i : Nat) : Prop where
  aligned : p.heapBrk.toNat % 4096 = 0
  base : 0x50000000 ≤ p.heapBrk.toNat
  tables : ∀ pg, 0x50000 ≤ pg → pg < p.heapBrk.toNat / 4096 →
    (mm.dirs (.process i) (pg / 1024)).isSome

/-- What every run keeps. -/
structure Heaped (k : Kernel) : Prop where
  settled : Settled k
  pool : k.mmu.nextPageTable ≤ 16
  heap : ∀ (i : Nat) (p : Process), k.processes[i]? = some p → p.HeapIn k.mmu i

/-- The tables there are once the pool of `n` is used up. -/
def tablesUpTo (n : Nat) : Finset Table :=
  insert .first ((Finset.range n).image .pool)

theorem card_tablesUpTo_le (n : Nat) : (tablesUpTo n).card ≤ n + 1 := by
  have himage := Finset.card_image_le (s := Finset.range n) (f := Table.pool)
  rw [Finset.card_range] at himage
  exact Nat.le_trans (Finset.card_insert_le _ _) (Nat.succ_le_succ himage)

theorem Mmu.Shaped.mem_tablesUpTo (h : mm.Shaped) (hpool : mm.nextPageTable ≤ n)
    (ht : mm.dirs d i = some t) : t ∈ tablesUpTo n := by
  rw [tablesUpTo, Finset.mem_insert]
  cases t with
  | first => exact .inl rfl
  | pool j =>
    have hj : j < n := Nat.lt_of_lt_of_le (h.pool ht) hpool
    exact .inr (Finset.mem_image_of_mem _ (Finset.mem_range.mpr hj))

/-- Each slot has a table of its own, the first one or one of the sixteen of the pool. -/
theorem Mmu.Shaped.slots_le (h : mm.Shaped) (hpool : mm.nextPageTable ≤ 16) (first : Nat)
    (hall : ∀ s < n, (mm.dirs d (first + s)).isSome) : n ≤ 17 := by
  have htable : ∀ s < n, ∃ t, mm.dirs d (first + s) = some t :=
    fun s hs => Option.isSome_iff_exists.mp (hall s hs)
  have hcard := Finset.card_le_card_of_injOn (s := Finset.range n) (t := tablesUpTo 16)
    (fun s => (mm.dirs d (first + s)).getD .first) (fun s hs => ?_) fun s hs s' hs' heq => ?_
  · rw [Finset.card_range] at hcard
    exact Nat.le_trans hcard (card_tablesUpTo_le 16)
  · obtain ⟨t, ht⟩ := htable s (Finset.mem_range.mp hs)
    simp only [ht, Option.getD_some]
    exact h.mem_tablesUpTo hpool ht
  · obtain ⟨t, ht⟩ := htable s (Finset.mem_range.mp hs)
    obtain ⟨t', ht'⟩ := htable s' (Finset.mem_range.mp hs')
    simp only [ht, ht', Option.getD_some] at heq
    rw [← heq] at ht'
    exact Nat.add_left_cancel (h.slot ht ht')

/-- Seventeen slots from the bottom of the heap on are all that can have tables. -/
theorem Mmu.Shaped.top_le (h : mm.Shaped) (hpool : mm.nextPageTable ≤ 16) (top : Nat)
    (hall : ∀ pg, 0x50000 ≤ pg → pg < top → (mm.dirs d (pg / 1024)).isSome) :
    top ≤ 0x50000 + 17 * 1024 := by
  by_contra hlt
  have := h.slots_le (n := 18) (d := d) hpool 320 fun s hs => by
    have hpage := hall ((320 + s) * 1024) (by omega) (by omega)
    rwa [Nat.mul_div_cancel _ (by decide)] at hpage
  omega

theorem Heaped.brk_le (hk : Heaped k) (hp : k.processes[i]? = some p) :
    p.heapBrk.toNat / 4096 ≤ 0x50000 + 17 * 1024 :=
  hk.settled.shaped.top_le hk.pool _ (hk.heap i p hp).tables

/-- A heap stays in slots with tables. -/
theorem Process.HeapIn.mono (h : p.HeapIn mm i) (he : Extends mm mm')
    (hbrk : p.heapBrk.toNat / 4096 ≤ 0x50000 + 17 * 1024) (hq : q.heapBrk = p.heapBrk) :
    q.HeapIn mm' i := by
  rw [← hq] at hbrk
  refine ⟨hq ▸ h.aligned, hq ▸ h.base, fun pg hlo hhi => ?_⟩
  have hne : pg / 1024 ≠ stackPde := by
    have hpde : stackPde = 767 := by decide
    omega
  rw [hq] at hhi
  exact he.slots _ _ hne (h.tables pg hlo hhi)

/-- Any call but one that moves a break. -/
theorem Heaped.extend (hk : Heaped k) (hs : Settled k') (he : Extends k.mmu k'.mmu)
    (hprocs : ∀ (j : Nat) (q : Process), k'.processes[j]? = some q →
      (∃ q₀, k.processes[j]? = some q₀ ∧ q.heapBrk = q₀.heapBrk) ∨ q.heapBrk = 0x50000000) :
    Heaped k' where
  settled := hs
  pool := he.pool hk.pool
  heap j q hq := by
    rcases hprocs j q hq with ⟨q₀, hq₀, hbrk⟩ | hnew
    · exact (hk.heap j q₀ hq₀).mono he (hk.brk_le hq₀) hbrk
    · have hbase : q.heapBrk.toNat = 0x50000000 := by rw [hnew]; rfl
      exact ⟨by rw [hbase], by rw [hbase], fun pg hlo hhi => by omega⟩

/-! ### The loop -/

/-- The loop over the pages `vs`, from `l₀` to `l`: frames that were free, and entries that are
present and writable. -/
structure Served (i : Nat) (l₀ : Mapping) (vs : List Word) (l : Mapping) : Prop where
  mapped : Mapped i l₀ vs l
  entries : ∀ v ∈ vs, ∃ f, l.mmu.pte (.process i) (v.toNat / 4096) = some ⟨f, 3⟩
  others : ∀ pg, (∀ v ∈ vs, v.toNat / 4096 ≠ pg) →
    l.mmu.pte (.process i) pg = l₀.mmu.pte (.process i) pg

theorem Served.nil (i : Nat) (l : Mapping) : Served i l [] l :=
  ⟨.nil i l, fun _ hv => absurd hv List.not_mem_nil, fun _ _ => rfl⟩

theorem Served.concat {l₀ : Mapping} {vs : List Word} (hv : Served i l₀ vs l)
    (hs : l.mmu.Shaped) (hne : l.frames.allocFrame.1 ≠ 0)
    (he : l.enter (.process i) virt l.frames.allocFrame = .ok l') :
    Served i l₀ (vs ++ [virt]) l' := by
  obtain ⟨mmu, hm, hl⟩ := bind_eq_ok.mp he
  cases hl
  obtain ⟨f, -, hfree, hphys, hpfa⟩ := PhysicalFrameAllocator.allocFrame_of_ne_zero hne
  have hpte := Mmu.pte_mapPageIn hs hm
  have hpages := Mmu.pageMap_mapPageIn hs hm
  have hframe : l.frames.allocFrame.1 / 4096 = f := by
    rw [hphys]
    exact Nat.mul_div_cancel _ (by decide)
  rw [hframe] at hpages hpte
  have hused : l.frames.allocFrame.2.isUsed f = true := by
    rw [hpfa]
    exact PhysicalFrameAllocator.isUsed_markUsed_self
  refine ⟨hv.mapped.concat hfree hused (fun _ => PhysicalFrameAllocator.isUsed_allocFrame) hpages,
    fun v hmem => ?_, fun pg hpg => ?_⟩
  · rw [hpte]
    split
    · exact ⟨f, rfl⟩
    · rename_i hother
      exact hv.entries v (mem_of_page_ne hmem hother)
  · rw [hpte, if_neg fun heq => hpg virt (by simp) heq.symm]
    exact hv.others pg fun v hmem => hpg v (List.mem_append_left _ hmem)

/-- The frame of a page that was mapped was free before. -/
theorem Served.backed {l₀ : Mapping} {vs : List Word} (hv : Served i l₀ vs l) (hmem : virt ∈ vs) :
    ∃ f, l.mmu.pte (.process i) (virt.toNat / 4096) = some ⟨f, 3⟩ ∧
      l₀.frames.isUsed f = false := by
  obtain ⟨f, hf⟩ := hv.entries virt hmem
  obtain ⟨f', hf', hfree, -⟩ := hv.mapped.fresh virt hmem
  rw [Mmu.pageMap_eq, hf] at hf'
  cases hf'
  exact ⟨f, hf, hfree⟩

theorem Served.distinct {l₀ : Mapping} {vs : List Word} {v w : Word} {e e' : Pte}
    (hv : Served i l₀ vs l) (hmem : v ∈ vs) (hmem' : w ∈ vs)
    (he : l.mmu.pte (.process i) (v.toNat / 4096) = some e)
    (he' : l.mmu.pte (.process i) (w.toNat / 4096) = some e') (heq : e.frame = e'.frame) :
    v.toNat / 4096 = w.toNat / 4096 := by
  refine hv.mapped.inj v hmem w hmem' e.frame ?_ ?_
  · rw [Mmu.pageMap_eq, he]
    rfl
  · rw [Mmu.pageMap_eq, he', heq]
    rfl

/-- The loop as a pass over a `Mapping`. -/
theorem mapHeap_cons {r : Bool × Mmu × PhysicalFrameAllocator} {rest : List Word}
    (h : mapHeap dir l.mmu l.frames (virt :: rest) = .ok r) :
    (l.frames.allocFrame.1 = 0 ∧ r = (false, l.mmu, l.frames.allocFrame.2)) ∨
      (l.frames.allocFrame.1 ≠ 0 ∧ ∃ l', l.enter dir virt l.frames.allocFrame = .ok l' ∧
        mapHeap dir l'.mmu l'.frames rest = .ok r) := by
  rw [mapHeap] at h
  split at h
  · rename_i hnull
    cases h
    exact .inl ⟨hnull, rfl⟩
  · rename_i hne
    obtain ⟨mmu, hm, h⟩ := bind_eq_ok.mp h
    exact .inr ⟨hne, _, bind_eq_ok.mpr ⟨mmu, hm, rfl⟩, h⟩

/-- A loop that went through has mapped all. -/
theorem mapHeap_cases {l₀ : Mapping} {vs : List Word} (hv : Served i l₀ vs l)
    (ht : Tidy n l.mmu l.frames) (hi : i < n)
    (h : mapHeap (.process i) l.mmu l.frames virts = .ok (true, mm', pfa')) :
    Served i l₀ (vs ++ virts) ⟨mm', pfa', []⟩ := by
  induction virts generalizing vs l with
  | nil =>
      cases h
      rw [List.append_nil]
      exact ⟨⟨hv.mapped.used, hv.mapped.fresh, hv.mapped.inj, hv.mapped.other⟩, hv.entries,
        hv.others⟩
  | cons virt rest ih =>
      rcases mapHeap_cons h with ⟨-, hr⟩ | ⟨hne, l', he, h⟩
      · cases hr
      · have hall := ih (hv.concat ht.shaped hne he) (ht.enter hi he) h
        rwa [List.append_assoc] at hall

/-- Frames in use stay so. -/
theorem used_of_mapHeap {r : Bool × Mmu × PhysicalFrameAllocator} {f : Nat}
    (h : mapHeap dir l.mmu l.frames virts = .ok r) (hf : l.frames.isUsed f = true) :
    r.2.2.isUsed f = true := by
  induction virts generalizing l with
  | nil =>
      cases h
      exact hf
  | cons virt rest ih =>
      rcases mapHeap_cons h with ⟨-, rfl⟩ | ⟨hne, l', he, h⟩
      · exact PhysicalFrameAllocator.isUsed_allocFrame hf
      · obtain ⟨mmu, -, hl⟩ := bind_eq_ok.mp he
        cases hl
        exact ih h (PhysicalFrameAllocator.isUsed_allocFrame hf)

/-! ### One call -/

/-- The number of bytes asked for, rounded up to pages as the code does. -/
def mmapSize (edi : Word) : Word := (edi + 4095) &&& ~~~4095

/-- The addresses of `n` pages from a break on. -/
def heapPages (brk : Word) (n : Nat) : List Word :=
  (List.range n).map fun j => brk + BitVec.ofNat 32 (j * 4096)

theorem toNat_pageMask : (4095 : Word).toNat = 4095 := rfl

theorem toNat_mmapSize_of_le (h : edi.toNat ≤ 0xFFFFF000) :
    (mmapSize edi).toNat = (edi.toNat + 4095) / 4096 * 4096 := by
  have hsum : (edi + 4095).toNat = edi.toNat + 4095 := by
    rw [BitVec.toNat_add, toNat_pageMask]
    exact Nat.mod_eq_of_lt (by omega)
  rw [mmapSize, show (4095 : Word) = 0xFFF from rfl, ProgramHeader.toNat_and_page,
    show (0xFFF : Word) = 4095 from rfl, hsum]

theorem mmapSize_aligned (edi : Word) : (mmapSize edi).toNat % 4096 = 0 := by
  rw [mmapSize, show (4095 : Word) = 0xFFF from rfl, ProgramHeader.toNat_and_page]
  exact Nat.mul_mod_left ..

/-- Close below 4 GiB the sum wraps around, and nothing is left. -/
theorem toNat_mmapSize_of_gt (h : 0xFFFFF000 < edi.toNat) : (mmapSize edi).toNat = 0 := by
  have hsum : (edi + 4095).toNat = edi.toNat + 4095 - 2 ^ 32 := by
    have := edi.isLt
    rw [BitVec.toNat_add, toNat_pageMask]
    omega
  have := edi.isLt
  rw [mmapSize, show (4095 : Word) = 0xFFF from rfl, ProgramHeader.toNat_and_page,
    show (0xFFF : Word) = 4095 from rfl, hsum]
  omega

theorem page_heapPages {brk : Word} (ha : brk.toNat % 4096 = 0)
    (hj : brk.toNat / 4096 + j < 2 ^ 20) :
    (brk + BitVec.ofNat 32 (j * 4096)).toNat / 4096 = brk.toNat / 4096 + j := by
  rw [BitVec.toNat_add, BitVec.toNat_ofNat]
  omega

/-- The pages in the list, while it does not wrap around. -/
theorem mem_heapPages_iff {brk : Word} (ha : brk.toNat % 4096 = 0)
    (hn : brk.toNat / 4096 + n ≤ 2 ^ 20) :
    (∃ v ∈ heapPages brk n, v.toNat / 4096 = pg) ↔
      brk.toNat / 4096 ≤ pg ∧ pg < brk.toNat / 4096 + n := by
  constructor
  · rintro ⟨v, hv, rfl⟩
    obtain ⟨j, hj, rfl⟩ := List.mem_map.mp hv
    rw [List.mem_range] at hj
    rw [page_heapPages ha (by omega)]
    omega
  · rintro ⟨hlo, hhi⟩
    have hj : pg - brk.toNat / 4096 ∈ List.range n := List.mem_range.mpr (by omega)
    refine ⟨_, List.mem_map_of_mem hj, ?_⟩
    rw [page_heapPages ha (by omega)]
    omega

/-- A call that gives an address: the loop went through for the active process. -/
structure Grown (k k' : Kernel) (edi : Word) (i : Nat) (p : Process) : Prop where
  active : k.activeIndex = some i
  process : k.processes[i]? = some p
  served : Served i ⟨k.mmu, k.frames, []⟩ (heapPages p.heapBrk ((mmapSize edi).toNat / 4096))
    ⟨k'.mmu, k'.frames, []⟩
  tables : Extends k.mmu k'.mmu
  processes : k'.processes =
    k.processes.set i { p with heapBrk := p.heapBrk + mmapSize edi }

theorem mmap_cases (hk : Settled k) (h : k.mmap edi = .ok (k', a)) :
    (a = 0 ∧ Extends k.mmu k'.mmu ∧ k'.processes = k.processes) ∨
      ∃ i p, Grown k k' edi i p ∧ a = p.heapBrk := by
  obtain ⟨-, rfl, rfl⟩ | ⟨i, p, all, mmu, frames, hi, hp, hmap, hret⟩ := Kernel.mmap_cases h
  · exact .inl ⟨rfl, .refl _, rfl⟩
  · rw [hk.directory i p hp] at hmap
    have htables := extends_mapHeap hmap
    obtain ⟨rfl, rfl, rfl⟩ | ⟨-, rfl, rfl⟩ := hret
    · refine .inr ⟨i, p, ⟨hi, hp, ?_, htables, rfl⟩, rfl⟩
      exact mapHeap_cases (l := ⟨k.mmu, k.frames, []⟩) (.nil i _) ⟨hk.shaped, hk.null, rfl⟩
        (hk.lt hp) hmap
    · exact .inl ⟨rfl, htables, rfl⟩

/-- Every page mapped has a table, so the new break is bounded like the old one. -/
theorem Grown.top_le (hg : Grown k k' edi i p) (hk : Heaped k) (hk' : Settled k') :
    p.heapBrk.toNat / 4096 + (mmapSize edi).toNat / 4096 ≤ 0x50000 + 17 * 1024 ∧
      ∀ pg, 0x50000 ≤ pg → pg < p.heapBrk.toNat / 4096 + (mmapSize edi).toNat / 4096 →
        (k'.mmu.dirs (.process i) (pg / 1024)).isSome := by
  have hheap := hk.heap i p hg.process
  have hbrk := hk.brk_le hg.process
  have hmono := hheap.mono hg.tables hbrk rfl
  have htable : ∀ pg, 0x50000 ≤ pg → pg < 2 ^ 20 →
      pg < p.heapBrk.toNat / 4096 + (mmapSize edi).toNat / 4096 →
        (k'.mmu.dirs (.process i) (pg / 1024)).isSome := by
    intro pg hlo hlt hhi
    by_cases hold : pg < p.heapBrk.toNat / 4096
    · exact hmono.tables pg hlo hold
    · have hpage := page_heapPages (j := pg - p.heapBrk.toNat / 4096) hheap.aligned (by omega)
      have hj : pg - p.heapBrk.toNat / 4096 ∈ List.range ((mmapSize edi).toNat / 4096) :=
        List.mem_range.mpr (by omega)
      obtain ⟨f, hf⟩ := hg.served.entries _ (List.mem_map_of_mem hj)
      rw [hpage, Nat.add_sub_cancel' (Nat.not_lt.mp hold)] at hf
      obtain ⟨t, ht, -⟩ := Option.bind_eq_some_iff.mp hf
      simp only at ht
      rw [ht]
      rfl
  -- were there more pages, the first eighteen slots of them would all have tables
  have htop : p.heapBrk.toNat / 4096 + (mmapSize edi).toNat / 4096 ≤ 0x50000 + 17 * 1024 := by
    have hmin := hk'.shaped.top_le (d := .process i) (hg.tables.pool hk.pool)
      (min (p.heapBrk.toNat / 4096 + (mmapSize edi).toNat / 4096) (0x50000 + 18 * 1024))
      fun pg hlo hhi => htable pg hlo (by omega) (by omega)
    omega
  exact ⟨htop, fun pg hlo hhi => htable pg hlo (by omega) hhi⟩

theorem Grown.toNat_brk (hg : Grown k k' edi i p) (hk : Heaped k) (hk' : Settled k') :
    (p.heapBrk + mmapSize edi).toNat = p.heapBrk.toNat + (mmapSize edi).toNat := by
  have htop := (hg.top_le hk hk').1
  rw [BitVec.toNat_add]
  omega

/-- No break is ever lowered. -/
def Climbs (k k' : Kernel) : Prop :=
  ∀ (j : Nat) (q : Process), k.processes[j]? = some q →
    ∃ q', k'.processes[j]? = some q' ∧ q.heapBrk.toNat ≤ q'.heapBrk.toNat

theorem climbs_set {p' : Process} (hp : k.processes[i]? = some p)
    (hprocs : k'.processes = k.processes.set i p') (hle : p.heapBrk.toNat ≤ p'.heapBrk.toNat) :
    Climbs k k' := by
  intro j q hq
  rw [hprocs, List.getElem?_set]
  split
  · rename_i hij
    subst hij
    cases hp.symm.trans hq
    exact ⟨p', if_pos (List.getElem?_eq_some_iff.mp hp).1, hle⟩
  · exact ⟨q, hq, Nat.le_refl _⟩

theorem Heaped.mmap (hk : Heaped k) (h : k.mmap edi = .ok (k', a)) : Heaped k' ∧ Climbs k k' := by
  have hk' := hk.settled.mmap h
  rcases mmap_cases hk.settled h with ⟨-, htables, hprocs⟩ | ⟨i, p, hg, -⟩
  · refine ⟨hk.extend hk' htables fun j q hq => .inl ⟨q, hprocs ▸ hq, rfl⟩, fun j q hq => ?_⟩
    exact ⟨q, hprocs ▸ hq, Nat.le_refl _⟩
  · have hbrk := hg.toNat_brk hk hk'
    have hheap := hk.heap i p hg.process
    obtain ⟨htop, htables⟩ := hg.top_le hk hk'
    refine ⟨⟨hk', hg.tables.pool hk.pool, fun j q hq => ?_⟩,
      climbs_set hg.process hg.processes (by rw [hbrk]; exact Nat.le_add_right ..)⟩
    rw [hg.processes, List.getElem?_set] at hq
    split at hq
    · rename_i hij
      subst hij
      split at hq
      · cases hq
        have hsize := mmapSize_aligned edi
        refine ⟨?_, ?_, fun pg hlo hhi => htables pg hlo ?_⟩
        · rw [hbrk]
          have := hheap.aligned
          omega
        · rw [hbrk]
          exact Nat.le_add_right_of_le hheap.base
        · rw [hbrk] at hhi
          omega
      · cases hq
    · exact (hk.heap j q hq).mono hg.tables (hk.brk_le hq) rfl

theorem heapBrk_load {priveledge : ProcessPriveledgeLevel}
    (h : ElfExecutable.load file b priveledge k mem = .ok (p, k', mem')) :
    p.heapBrk = 0x50000000 := by
  obtain ⟨_, -, h⟩ := bind_eq_ok.mp h
  obtain ⟨_, -, h⟩ := bind_eq_ok.mp h
  obtain ⟨_, -, h⟩ := bind_eq_ok.mp h
  cases h
  rfl

theorem Heaped.load {priveledge : ProcessPriveledgeLevel} (hk : Heaped k)
    (h : ElfExecutable.load file b priveledge k mem = .ok (p, k', mem')) :
    Heaped k' ∧ Climbs k k' := by
  obtain ⟨mmu, hdr, l, hcreate, -, hloop, -, hmmu, -, hprocs, -⟩ :=
    ElfExecutable.load_cases h
  obtain ⟨mmu', hcreate', hcreated⟩ :=
    hk.settled.shaped.createAddressSpace b (Mmu.createAddressSpace_lt hcreate)
  obtain ⟨-, rfl⟩ : Dir.process k.mmu.nextDirectory = p.pageDirectory ∧ mmu' = mmu := by
    simpa using hcreate'.symm.trans hcreate
  have htables := (extends_created hk.settled.shaped hcreated).trans (extends_loadHeaders hloop)
  rw [← hmmu] at htables
  refine ⟨hk.extend (hk.settled.load h) htables fun j q hq => ?_, fun j q hq => ⟨q, ?_, le_rfl⟩⟩
  · rw [hprocs, List.getElem?_append] at hq
    split at hq
    · exact .inl ⟨q, hq, rfl⟩
    · obtain ⟨hj, rfl⟩ := List.getElem?_eq_some_iff.mp hq
      rw [List.length_singleton] at hj
      rw [List.getElem_singleton]
      exact .inr (heapBrk_load h)
  · rw [hprocs, List.getElem?_append_left (List.getElem?_eq_some_iff.mp hq).1, hq]

theorem Heaped.run (hk : Heaped k) (h : k.run i = .ok k') : Heaped k' ∧ Climbs k k' := by
  have hk' := hk.settled.run h
  obtain ⟨p, l, hp, hloop, rfl⟩ := Kernel.run_cases h
  have htables : Extends k.mmu l.mmu :=
    foldlM_inv (P := fun _ (l : Mapping) => Extends k.mmu l.mmu)
      (fun hl hstep => hl.trans (extends_enter hstep)) ((Extends.refl _).setStack none) hloop
  refine ⟨hk.extend hk' ⟨htables.slots, htables.pool⟩ fun j q hq => ?_, climbs_set hp rfl le_rfl⟩
  simp only [List.getElem?_set] at hq
  split at hq
  · rename_i hij
    subst hij
    split at hq
    · cases hq
      exact .inl ⟨p, hp, rfl⟩
    · cases hq
  · exact .inl ⟨q, hq, rfl⟩

theorem Heaped.ctxtSwitch (hk : Heaped k) (hp : k.processes[i]? = some p)
    (h : k.ctxtSwitch p = .ok k') : Heaped k' ∧ Climbs k k' := by
  have hk' := hk.settled.ctxtSwitch hp h
  obtain rfl := Kernel.ctxtSwitch_eq_ok h
  exact ⟨hk.extend hk' ⟨fun _ _ _ h => h, id⟩ fun j q hq => .inl ⟨q, hq, rfl⟩,
    fun j q hq => ⟨q, hq, le_rfl⟩⟩

theorem Heaped.step {c : Call} (hk : Heaped s.kernel) (h : s.Step b c s') :
    Heaped s'.kernel ∧ Climbs s.kernel s'.kernel := by
  obtain ⟨_, _, _, _, _, _, rfl, hload, rfl⟩ | ⟨_, _, rfl, hrun, rfl⟩ |
    ⟨_, _, _, rfl, hp, hswitch, rfl⟩ | ⟨_, _, _, rfl, hmap, rfl⟩ := System.step_cases h
  · exact hk.load hload
  · exact hk.run hrun
  · exact hk.ctxtSwitch hp hswitch
  · exact hk.mmap hmap

theorem heaped_booted (hb : k.Booted) (hpool : k.mmu.nextPageTable ≤ 16) : Heaped k where
  settled := settled_booted hb
  pool := hpool
  heap i p hp := by
    rw [hb.processes] at hp
    cases hp

theorem heaped_of_run {cs : List Call} (hb : k.Booted) (hpool : k.mmu.nextPageTable ≤ 16)
    (r : Run (System.Step b) ⟨k, []⟩ cs s) : Heaped s.kernel :=
  r.inv (I := fun s => Heaped s.kernel) (heaped_booted hb hpool) fun hk h => (hk.step h).1

/-! ### What calls hand out -/

/-- `len` bytes from `addr` on, handed out to a process. -/
structure Grant where
  process : Nat
  addr : Word
  len : Word

def Grant.Has (g : Grant) (x : Nat) : Prop := g.addr.toNat ≤ x ∧ x < g.addr.toNat + g.len.toNat

/-- The page overlaps the range. -/
def Grant.HasPage (g : Grant) (pg : Nat) : Prop := ∃ x, g.Has x ∧ x / 4096 = pg

/-- From `k` to `k'` the range has been mapped in the directory: its pages, and no others, on frames
that were free, each its own; and it meets no range that the process had before. -/
structure Maps (dir : Dir) (k k' : Kernel) (earlier : List Grant) (g : Grant) : Prop where
  backed : ∀ pg, g.HasPage pg → ∃ e, k'.mmu.pte dir pg = some e ∧
    e.flags &&& 3 = Mmu.flagsPresent ||| Mmu.flagsWritable ∧ k.frames.isUsed e.frame = false
  distinct : ∀ pg pg' e e', g.HasPage pg → g.HasPage pg' → k'.mmu.pte dir pg = some e →
    k'.mmu.pte dir pg' = some e' → e.frame = e'.frame → pg = pg'
  disjoint : ∀ g' ∈ earlier, g'.process = g.process → ∀ x, g.Has x → ¬ g'.Has x
  others : ∀ pg, ¬ g.HasPage pg → k'.mmu.pte dir pg = k.mmu.pte dir pg

namespace System

/-- What a call hands out, if it is an `Mmap` that returns an address. -/
def grant (s : System) : Call → Option Grant
  | .mmap edi =>
      match s.kernel.activeIndex, s.kernel.mmap edi with
      | some i, .ok (_, a) => if a = 0 then none else some ⟨i, a, edi⟩
      | _, _ => none
  | _ => none

/-- A call, with what it hands out. -/
def Granting (b : BootStack) (s : System) (e : Call × Option Grant) (t : System) : Prop :=
  s.Step b e.1 t ∧ e.2 = s.grant e.1

def grants (es : List (Call × Option Grant)) : List Grant := es.filterMap Prod.snd

/-- No size is asked for that does not survive rounding up. -/
def Rounds (_ : System) (e : Call × Option Grant) : Prop :=
  ∀ edi, e.1 = .mmap edi → edi.toNat ≤ 0xFFFFF000

variable {es : List (Call × Option Grant)} {e : Call × Option Grant} {g : Grant}

theorem grant_eq_some {c : Call} (h : s.grant c = some g) : ∃ edi k', c = .mmap edi ∧
    s.kernel.activeIndex = some g.process ∧ s.kernel.mmap edi = .ok (k', g.addr) ∧
      g.addr ≠ 0 ∧ g.len = edi := by
  cases c with
  | mmap edi =>
      rw [grant] at h
      split at h
      · rename_i i k' a hi hm
        split at h
        · cases h
        · rename_i ha
          cases h
          exact ⟨edi, k', rfl, hi, hm, ha, rfl⟩
      · cases h
  | load | run | ctxtSwitch => cases h

/-- Everything handed out lies below the break. -/
structure Below (es : List (Call × Option Grant)) (s : System) : Prop where
  heaped : Heaped s.kernel
  below : ∀ g ∈ grants es, ∃ p, s.kernel.processes[g.process]? = some p ∧
    g.addr.toNat + g.len.toNat ≤ p.heapBrk.toNat

theorem Below.step (hi : Below es s) (hsize : Rounds s e) (h : Granting b s e s') :
    Below (es ++ [e]) s' := by
  obtain ⟨hstep, hgrant⟩ := h
  obtain ⟨hheaped, hclimbs⟩ := hi.heaped.step hstep
  refine ⟨hheaped, fun g hg => ?_⟩
  rw [grants, List.filterMap_append, List.mem_append] at hg
  rcases hg with hg | hg
  · obtain ⟨p, hp, hle⟩ := hi.below g hg
    obtain ⟨q, hq, hbrk⟩ := hclimbs _ p hp
    exact ⟨q, hq, Nat.le_trans hle hbrk⟩
  · -- the new range ends at the new break, or before
    have hg : s.grant e.1 = some g := by
      rw [← hgrant]
      simpa using hg
    obtain ⟨edi, k', hc, hactive, hm, ha, rfl⟩ := grant_eq_some hg
    rw [hc] at hstep
    obtain ⟨⟨k'', a⟩, hm', hs'⟩ := bind_eq_ok.mp hstep
    cases hs'
    cases hm.symm.trans hm'
    rcases mmap_cases hi.heaped.settled hm with ⟨h₀, -⟩ | ⟨i, p, hgrown, haddr⟩
    · exact absurd h₀ ha
    · cases hgrown.active.symm.trans hactive
      have hlt : g.process < s.kernel.processes.length :=
        (List.getElem?_eq_some_iff.mp hgrown.process).1
      refine ⟨{ p with heapBrk := p.heapBrk + mmapSize g.len }, ?_, ?_⟩
      · show k'.processes[g.process]? = _
        rw [hgrown.processes, List.getElem?_set_self hlt]
      · have hbrk := hgrown.toNat_brk hi.heaped hheaped.settled
        have hround := toNat_mmapSize_of_le (hsize _ hc)
        rw [haddr]
        simp only [hbrk]
        omega

theorem below_of_run (hb : k.Booted) (hpool : k.mmu.nextPageTable ≤ 16)
    (r : Run (Guarded Rounds (Granting b)) ⟨k, []⟩ es s) : Below es s :=
  r.invHist ⟨heaped_booted hb hpool, by simp [grants]⟩ fun _ hi h => hi.step h.1 h.2

/-- The pages of what is handed out are those that the loop went over. -/
theorem hasPage_iff (hg : Grown k k' edi i p) (hk : Heaped k) (hk' : Settled k')
    (hround : edi.toNat ≤ 0xFFFFF000) (pg : Nat) :
    Grant.HasPage ⟨i, p.heapBrk, edi⟩ pg ↔
      ∃ v ∈ heapPages p.heapBrk ((mmapSize edi).toNat / 4096), v.toNat / 4096 = pg := by
  have htop := (hg.top_le hk hk').1
  have haligned := (hk.heap i p hg.process).aligned
  rw [mem_heapPages_iff haligned (by omega), toNat_mmapSize_of_le hround,
    Nat.mul_div_cancel _ (by decide)]
  constructor
  · rintro ⟨x, ⟨hlo, hhi⟩, rfl⟩
    simp only at hlo hhi
    omega
  · rintro ⟨hlo, hhi⟩
    refine ⟨pg * 4096, ⟨?_, ?_⟩, Nat.mul_div_cancel _ (by decide)⟩
    · simp only
      omega
    · simp only
      omega

theorem maps_of_rounds (hi : Below es s) (hg : Grown s.kernel k' edi i p) (hk' : Settled k')
    (hround : edi.toNat ≤ 0xFFFFF000) :
    Maps p.pageDirectory s.kernel k' (grants es) ⟨i, p.heapBrk, edi⟩ := by
  rw [hi.heaped.settled.directory i p hg.process]
  have hpages := hasPage_iff hg hi.heaped hk' hround
  refine ⟨fun pg hpg => ?_, fun pg pg' e e' hpg hpg' he he' heq => ?_,
    fun g' hg' hproc x hx hx' => ?_, fun pg hpg => ?_⟩
  · obtain ⟨v, hv, rfl⟩ := (hpages pg).mp hpg
    obtain ⟨f, hf, hfree⟩ := hg.served.backed hv
    have hflags : 3 &&& 3 = Mmu.flagsPresent ||| Mmu.flagsWritable := by decide
    exact ⟨_, hf, hflags, hfree⟩
  · obtain ⟨v, hv, rfl⟩ := (hpages pg).mp hpg
    obtain ⟨v', hv', rfl⟩ := (hpages pg').mp hpg'
    exact hg.served.distinct hv hv' he he' heq
  · -- what was handed out before ends at the break
    obtain ⟨q, hq, hle⟩ := hi.below g' hg'
    rw [hproc] at hq
    cases hq.symm.trans hg.process
    exact absurd (Nat.lt_of_lt_of_le hx'.2 hle) (Nat.not_lt.mpr hx.1)
  · exact hg.served.others pg fun v hv hvpg => hpg ((hpages pg).mpr ⟨v, hv, hvpg⟩)

/-- No directory has tables for so many pages. -/
theorem not_maps_of_wrap (hk : Heaped k) (hg : Grown k k' edi i p) (hk' : Settled k')
    (hwrap : 0xFFFFF000 < edi.toNat) (earlier : List Grant) :
    ¬ Maps p.pageDirectory k k' earlier ⟨i, p.heapBrk, edi⟩ := by
  intro hm
  have hbrk := hk.brk_le hg.process
  have hbase := (hk.heap i p hg.process).base
  have := hk'.shaped.slots_le (d := p.pageDirectory) (n := 18) (hg.tables.pool hk.pool) 340
    fun s hs => by
      have hpage : Grant.HasPage ⟨i, p.heapBrk, edi⟩ ((340 + s) * 1024) := by
        refine ⟨(340 + s) * 1024 * 4096, ⟨?_, ?_⟩, Nat.mul_div_cancel _ (by decide)⟩
        · simp only
          omega
        · simp only
          omega
      obtain ⟨e, he, -⟩ := hm.backed _ hpage
      obtain ⟨t, ht, -⟩ := Option.bind_eq_some_iff.mp he
      rw [Nat.mul_div_cancel _ (by decide)] at ht
      rw [ht]
      rfl
  omega

/-- A call that returns an address has mapped what it was asked for exactly if the size could be
rounded up to pages. -/
theorem mmap_maps (hb : k.Booted) (hpool : k.mmu.nextPageTable ≤ 16)
    (r : Run (Guarded Rounds (Granting b)) ⟨k, []⟩ es s) (h : s.kernel.mmap edi = .ok (k', a))
    (ha : a ≠ 0) :
    ∃ i p, s.kernel.activeIndex = some i ∧ s.kernel.processes[i]? = some p ∧
      (Maps p.pageDirectory s.kernel k' (grants es) ⟨i, a, edi⟩ ↔ edi.toNat ≤ 0xFFFFF000) := by
  have hi := below_of_run hb hpool r
  have hk' := hi.heaped.settled.mmap h
  rcases mmap_cases hi.heaped.settled h with ⟨h₀, -⟩ | ⟨i, p, hg, rfl⟩
  · exact absurd h₀ ha
  · refine ⟨i, p, hg.active, hg.process, fun hm => ?_, maps_of_rounds hi hg hk'⟩
    by_contra hwrap
    exact not_maps_of_wrap hi.heaped hg hk' (Nat.not_le.mp hwrap) _ hm

/-- Calls that are not all `Mmap`s of sizes that can be rounded up, and what they hand out. -/
theorem exists_granting {G : System → Call → Prop} {cs : List Call}
    (hG : ∀ {s edi}, G s (.mmap edi) → edi.toNat ≤ 0xFFFFF000)
    (r : Run (Guarded G (Step b)) s cs s') :
    ∃ es, Run (Guarded Rounds (Granting b)) s es s' := by
  induction r with
  | nil => exact ⟨[], .nil⟩
  | @snoc cs t u c _ h ih =>
      obtain ⟨es, r⟩ := ih
      refine ⟨es ++ [(c, t.grant c)], r.snoc ⟨?_, h.2, rfl⟩⟩
      rintro edi rfl
      exact hG h.1

/-- A process that runs, with frames to spare. -/
def oneRuns : List Call := [.load (bareFile[·]?) .Kernel fun _ => 0, .run 0]

/-- Anything but `Mmap`. -/
def noMmap (_ : System) : Call → Bool
  | .mmap _ => false
  | _ => true

/-- After these calls, `Mmap` of `edi` bytes gives the address. -/
theorem exists_oneRuns (total : Nat) (edi : Word) (hrun : ((oneRuns.foldlM (checked bootStack noMmap)
    ⟨freshKernel 16 total, []⟩).bind fun s => (s.kernel.mmap edi).map Prod.snd) = .ok a) :
    ∃ es s k', Run (Guarded Rounds (Granting bootStack)) ⟨freshKernel 16 total, []⟩ es s ∧
      s.kernel.mmap edi = .ok (k', a) := by
  obtain ⟨s, hs, h⟩ := bind_eq_ok.mp hrun
  obtain ⟨⟨k', a⟩, hm, rfl⟩ := map_eq_ok.mp h
  obtain ⟨es, r⟩ := exists_granting (fun hG => by cases hG) (run_of_foldlM hs)
  exact ⟨es, s, k', r, hm⟩

theorem mmap_maps_two_pages : ∃ es s k' i, ∃ p : Process,
    Run (Guarded Rounds (Granting bootStack)) ⟨freshKernel 16 64, []⟩ es s ∧
      s.kernel.mmap 8192 = .ok (k', 0x50000000) ∧ s.kernel.activeIndex = some i ∧
        Maps p.pageDirectory s.kernel k' (grants es) ⟨i, 0x50000000, 8192⟩ := by
  obtain ⟨es, s, k', r, hm⟩ : ∃ es s k', Run (Guarded Rounds (Granting bootStack))
      ⟨freshKernel 16 64, []⟩ es s ∧ s.kernel.mmap 8192 = .ok (k', 0x50000000) :=
    exists_oneRuns 64 8192 (by decide +kernel)
  obtain ⟨i, p, hi, -, hmaps⟩ :=
    mmap_maps (booted_freshKernel (by decide)) (by decide) r hm (by decide)
  exact ⟨es, s, k', i, p, r, hm, hi, hmaps.mpr (by decide)⟩

/-- Asked for 4 GiB less a byte, `Mmap` gives an address and maps nothing. -/
theorem mmap_maps_nothing : ∃ es s k' i, ∃ p : Process,
    Run (Guarded Rounds (Granting bootStack)) ⟨freshKernel 16 64, []⟩ es s ∧
      s.kernel.mmap 0xFFFFFFFF = .ok (k', 0x50000000) ∧ s.kernel.activeIndex = some i ∧
        s.kernel.processes[i]? = some p ∧
          ¬ Maps p.pageDirectory s.kernel k' (grants es) ⟨i, 0x50000000, 0xFFFFFFFF⟩ := by
  obtain ⟨es, s, k', r, hm⟩ : ∃ es s k', Run (Guarded Rounds (Granting bootStack))
      ⟨freshKernel 16 64, []⟩ es s ∧ s.kernel.mmap 0xFFFFFFFF = .ok (k', 0x50000000) :=
    exists_oneRuns 64 0xFFFFFFFF (by decide +kernel)
  have hi := below_of_run (booted_freshKernel (by decide)) (by decide) r
  have hk' := hi.heaped.settled.mmap hm
  rcases mmap_cases hi.heaped.settled hm with ⟨h₀, -⟩ | ⟨i, p, hg, haddr⟩
  · cases h₀
  · refine ⟨es, s, k', i, p, r, hm, hg.active, hg.process, ?_⟩
    rw [haddr]
    exact not_maps_of_wrap hi.heaped hg hk' (by decide) _

/-! ### Requests that cannot be met -/

/-- The pages that `edi` bytes take. -/
def pagesNeeded (edi : Word) : Nat := (edi.toNat + 4095) / 4096

/-- The directory slots of `n` pages from a break on. -/
def slotsNeeded (brk : Word) (n : Nat) : List Nat :=
  (List.range' (brk.toNat / 4096) n).map (· / 1024) |>.dedup

/-- There are too few frames, or no tables left for the slots that lack one. -/
def TooMuch (k : Kernel) (p : Process) (edi : Word) : Prop :=
  k.frames.freeFrames < pagesNeeded edi ∨ 16 < k.mmu.nextPageTable +
    k.mmu.missing p.pageDirectory (slotsNeeded p.heapBrk (pagesNeeded edi))

/-- The frames in use, the directories, the tables and the breaks are as they were. -/
structure Unchanged (k k' : Kernel) : Prop where
  used : ∀ f, k'.frames.isUsed f = k.frames.isUsed f
  dirs : k'.mmu.dirs = k.mmu.dirs
  tables : k'.mmu.tables = k.mmu.tables
  breaks : k'.processes.map Process.heapBrk = k.processes.map Process.heapBrk

theorem pagesNeeded_pos (hpool : k.mmu.nextPageTable ≤ 16) (h : TooMuch k p edi) :
    0 < pagesNeeded edi := by
  by_contra hzero
  have hzero : pagesNeeded edi = 0 := by omega
  rw [TooMuch, hzero] at h
  rcases h with h | h
  · exact absurd h (Nat.not_lt_zero _)
  · have hnone : k.mmu.missing p.pageDirectory (slotsNeeded p.heapBrk 0) = 0 := rfl
    omega

/-- Without a frame nothing happens. -/
theorem mmap_of_no_frame (hi : k.activeIndex = some i) (hp : k.processes[i]? = some p)
    (hfree : k.frames.freeFrames = 0) (hpages : 0 < (mmapSize edi).toNat / 4096) :
    k.mmap edi = .ok (k, 0) := by
  obtain ⟨n, hn⟩ := Nat.exists_eq_succ_of_ne_zero (Nat.ne_of_gt hpages)
  have hnull := PhysicalFrameAllocator.allocFrame_of_none hfree
  have hloop : mapHeap p.pageDirectory k.mmu k.frames
      (heapPages p.heapBrk ((mmapSize edi).toNat / 4096)) = .ok (false, k.mmu, k.frames) := by
    rw [hn, heapPages, List.range_succ_eq_map, List.map_cons, mapHeap, hnull]
    rfl
  rw [Kernel.mmap, hi]
  simp only [hp, orHalt, ok_bind]
  exact bind_eq_ok.mpr ⟨_, hloop, rfl⟩

/-- The loop keeps the first frame that it gets. -/
theorem exists_used_of_mapHeap {r : Bool × Mmu × PhysicalFrameAllocator} {brk : Word}
    (hne : pfa.allocFrame.1 ≠ 0) (hpages : 0 < n)
    (h : mapHeap dir mm pfa (heapPages brk n) = .ok r) :
    ∃ f, pfa.isUsed f = false ∧ r.2.2.isUsed f = true := by
  obtain ⟨f, -, hf, -, hpfa⟩ := PhysicalFrameAllocator.allocFrame_of_ne_zero hne
  have hused : pfa.allocFrame.2.isUsed f = true := by
    rw [hpfa]
    exact PhysicalFrameAllocator.isUsed_markUsed_self
  obtain ⟨n, rfl⟩ := Nat.exists_eq_succ_of_ne_zero (Nat.ne_of_gt hpages)
  rw [heapPages, List.range_succ_eq_map, List.map_cons] at h
  rcases mapHeap_cons (l := ⟨mm, pfa, []⟩) h with ⟨hnull, -⟩ | ⟨-, l', he, h⟩
  · exact absurd hnull hne
  · obtain ⟨mmu', -, hl⟩ := bind_eq_ok.mp he
    cases hl
    exact ⟨f, hf, used_of_mapHeap (l := ⟨mmu', _, _⟩) h hused⟩

/-- The loop of a call for a process that is there. -/
theorem mmap_loop (hi : k.activeIndex = some i) (hp : k.processes[i]? = some p)
    (h : k.mmap edi = .ok (k', a)) : ∃ all mmu,
      mapHeap p.pageDirectory k.mmu k.frames
          (heapPages p.heapBrk ((mmapSize edi).toNat / 4096)) = .ok (all, mmu, k'.frames) ∧
        a = if all then p.heapBrk else 0 := by
  rw [Kernel.mmap, hi] at h
  simp only [hp, orHalt, ok_bind] at h
  obtain ⟨⟨all, mmu, frames⟩, hloop, h⟩ := bind_eq_ok.mp h
  cases all <;> cases h <;> exact ⟨_, mmu, hloop, rfl⟩

/-- With a frame left, a call that comes to its end has taken it. -/
theorem used_of_mmap (hk : Settled k) (hi : k.activeIndex = some i)
    (hp : k.processes[i]? = some p) (hfree : 0 < k.frames.freeFrames)
    (hpages : 0 < (mmapSize edi).toNat / 4096) (h : k.mmap edi = .ok (k', a)) :
    ∃ f, k.frames.isUsed f = false ∧ k'.frames.isUsed f = true := by
  obtain ⟨all, mmu, hloop, -⟩ := mmap_loop hi hp h
  have hne := PhysicalFrameAllocator.allocFrame_of_free hk.null hfree
  exact exists_used_of_mapHeap hne hpages hloop

/-- A request that cannot be met is refused, and nothing is changed, exactly if there is no free
frame at all and its size could be rounded up to pages. -/
theorem mmap_fails_iff {cs : List Call} (hb : k.Booted) (hpool : k.mmu.nextPageTable ≤ 16)
    (r : Run (Step b) ⟨k, []⟩ cs s) (hi : s.kernel.activeIndex = some i)
    (hp : s.kernel.processes[i]? = some p) (hmuch : TooMuch s.kernel p edi) :
    (∃ k', s.kernel.mmap edi = .ok (k', 0) ∧ Unchanged s.kernel k') ↔
      s.kernel.frames.freeFrames = 0 ∧ edi.toNat ≤ 0xFFFFF000 := by
  have hk := heaped_of_run hb hpool r
  have hneed := pagesNeeded_pos hk.pool hmuch
  have hsize : edi.toNat ≤ 0xFFFFF000 → 0 < (mmapSize edi).toNat / 4096 := by
    intro hround
    rw [toNat_mmapSize_of_le hround, Nat.mul_div_cancel _ (by decide)]
    exact hneed
  constructor
  · rintro ⟨k', h, hsame⟩
    have hround : edi.toNat ≤ 0xFFFFF000 := by
      -- a size that wraps around is no size at all, and the break is returned
      by_contra hwrap
      obtain ⟨all, mmu, hloop, hbrk⟩ := mmap_loop hi hp h
      rw [toNat_mmapSize_of_gt (Nat.not_le.mp hwrap)] at hloop
      obtain rfl : true = all := congrArg Prod.fst (Except.ok.inj hloop)
      have hbase := (hk.heap i p hp).base
      rw [← show 0 = p.heapBrk from hbrk] at hbase
      exact absurd hbase (by decide)
    refine ⟨Nat.eq_zero_of_not_pos fun hfree => ?_, hround⟩
    obtain ⟨f, hf, hused⟩ := used_of_mmap hk.settled hi hp hfree (hsize hround) h
    rw [hsame.used, hf] at hused
    cases hused
  · rintro ⟨hfree, hround⟩
    exact ⟨s.kernel, mmap_of_no_frame hi hp hfree (hsize hround), ⟨fun _ => rfl, rfl, rfl, rfl⟩⟩

/-- After `oneRuns` the process is active, with so many frames to spare. -/
theorem exists_oneRuns_free (total free : Nat)
    (hrun : ((oneRuns.foldlM (checked bootStack noMmap) ⟨freshKernel 16 total, []⟩).map fun s =>
      (s.kernel.frames.freeFrames, s.kernel.activeIndex, s.kernel.processes.length)) =
        .ok (free, some 0, 1)) :
    ∃ s, ∃ p : Process, Run (Step bootStack) ⟨freshKernel 16 total, []⟩ oneRuns s ∧
      s.kernel.frames.freeFrames = free ∧ s.kernel.activeIndex = some 0 ∧
        s.kernel.processes[0]? = some p := by
  obtain ⟨s, hs, h⟩ := map_eq_ok.mp hrun
  obtain ⟨hfree, hactive, hlength⟩ : s.kernel.frames.freeFrames = free ∧
      s.kernel.activeIndex = some 0 ∧ s.kernel.processes.length = 1 := by
    simpa using h
  have hlt : 0 < s.kernel.processes.length := by rw [hlength]; decide
  exact ⟨s, _, (run_of_foldlM hs).mono fun h => h.2, hfree, hactive, List.getElem?_eq_getElem hlt⟩

theorem mmap_fails_no_frame : ∃ s k', Run (Step bootStack) ⟨freshKernel 16 32, []⟩ oneRuns s ∧
    s.kernel.mmap 8192 = .ok (k', 0) ∧ Unchanged s.kernel k' := by
  obtain ⟨s, p, r, hfree, hi, hp⟩ := exists_oneRuns_free 32 0 (by decide +kernel)
  have hmuch : TooMuch s.kernel p 8192 := by
    refine .inl ?_
    rw [hfree]
    decide
  obtain ⟨k', h, hsame⟩ := (mmap_fails_iff (booted_freshKernel (by decide))
    (by decide) r hi hp hmuch).mpr ⟨hfree, by decide⟩
  exact ⟨s, k', r, h, hsame⟩

/-- With one frame left for two pages, the frame is gone however the call ends. -/
theorem mmap_takes_frame : ∃ s, ∃ p : Process,
    Run (Step bootStack) ⟨freshKernel 16 33, []⟩ oneRuns s ∧
      s.kernel.activeIndex = some 0 ∧ s.kernel.processes[0]? = some p ∧
        TooMuch s.kernel p 8192 ∧
          ¬ ∃ k', s.kernel.mmap 8192 = .ok (k', 0) ∧ Unchanged s.kernel k' := by
  obtain ⟨s, p, r, hfree, hi, hp⟩ := exists_oneRuns_free 33 1 (by decide +kernel)
  have hmuch : TooMuch s.kernel p 8192 := by
    refine .inl ?_
    rw [hfree]
    decide
  refine ⟨s, p, r, hi, hp, hmuch, ?_⟩
  rintro ⟨k', h, hsame⟩
  have hk := heaped_of_run (booted_freshKernel (by decide)) (by decide) r
  obtain ⟨f, hf, hused⟩ := used_of_mmap hk.settled hi hp (by rw [hfree]; decide) (by decide) h
  rw [hsame.used, hf] at hused
  cases hused

end System

end RivOS
