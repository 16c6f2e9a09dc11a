import RivOS.Proc.Loader

/-!
# Proc — One segment

The pages and the bytes of a segment, and what mapping and copying one does.

* `hasPage_iff`: the loop maps the pages from the start of the segment to its last byte.
* `mapSegment_ok`: with frames and tables enough, every page of the segment gets a frame that was
  free, and the other pages of the directory are as they were.
* `copySegment_ok`: through an address space that maps the segment, its bytes become those of the
  file and zeros, and nothing else changes.
-/

namespace RivOS

open ElfExecutable (mapPage mapSegment copySegment)

variable {mm mm' : Mmu} {pfa : PhysicalFrameAllocator} {i : Nat} {dir : Dir} {virt v : Word}
  {ph : ProgramHeader} {file : PMem} {l l' l₀ : Mapping} {mem mem' : Mem} {pm : PageMap}
  {vs : List Word} {slots : List Nat}

namespace ProgramHeader

/-! ### Bytes and pages -/

/-- `v` is the address of a byte of the segment. -/
def HasByte (ph : ProgramHeader) (v : Word) : Prop :=
  (v - ph.virtualAddrStart).toNat < ph.memSize.toNat

instance : Decidable (ph.HasByte v) := inferInstanceAs (Decidable (_ < _))

/-- The loop maps the page `pg`. -/
def HasPage (ph : ProgramHeader) (pg : Nat) : Prop :=
  ∃ j < ph.pageCount, (ph.page j).toNat / 4096 = pg

instance {pg : Nat} : Decidable (ph.HasPage pg) := inferInstanceAs (Decidable (∃ j < _, _))

/-- The segment does not wrap the address space, and is not on its first page. -/
structure Fits (ph : ProgramHeader) : Prop where
  nowrap : ph.virtualAddrStart.toNat + ph.memSize.toNat ≤ 2 ^ 32
  low : 4096 ≤ ph.virtualAddrStart.toNat

theorem toNat_and_page (v : Word) : (v &&& ~~~(0xFFF : Word)).toNat = v.toNat / 4096 * 4096 := by
  have hmask : (~~~(0xFFF : Word)).toNat = (2 ^ 20 - 1) <<< 12 := by decide
  have hshift : v.toNat / 4096 * 4096 = (v.toNat >>> 12) <<< 12 := by
    rw [Nat.shiftLeft_eq, Nat.shiftRight_eq_div_pow]
  rw [BitVec.toNat_and, hmask, hshift]
  refine Nat.eq_of_testBit_eq fun i => ?_
  rw [Nat.testBit_and, Nat.testBit_shiftLeft, Nat.testBit_two_pow_sub_one, Nat.testBit_shiftLeft,
    Nat.testBit_shiftRight]
  by_cases hi : 12 ≤ i
  · have hsum : 12 + (i - 12) = i := by omega
    by_cases hlt : i < 32
    · have hmask : i - 12 < 20 := by omega
      simp [hi, hsum, hmask]
    · -- a 32-bit number has no such bit
      have hv : v.toNat.testBit i = false := Nat.testBit_lt_two_pow
        (Nat.lt_of_lt_of_le v.isLt (Nat.pow_le_pow_right (by decide) (by omega)))
      simp [hi, hsum, hv]
  · simp [hi]

theorem toNat_vaddrBase : ph.vaddrBase.toNat = ph.virtualAddrStart.toNat / 4096 * 4096 :=
  toNat_and_page _

/-- One past the last page of the segment. -/
def endPage (ph : ProgramHeader) : Nat := (ph.virtualAddrStart.toNat + ph.memSize.toNat + 4095) / 4096

theorem Fits.pageCount_eq (h : ph.Fits) :
    ph.pageCount = ph.endPage - ph.virtualAddrStart.toNat / 4096 := by
  obtain ⟨hwrap, hlow⟩ := h
  have hend : ph.vaddrEnd.toNat =
      (ph.virtualAddrStart.toNat + ph.memSize.toNat + 4095) % 2 ^ 32 / 4096 * 4096 := by
    rw [vaddrEnd, toNat_and_page, BitVec.toNat_add, BitVec.toNat_add, Nat.mod_add_mod]
    rfl
  rw [pageCount, BitVec.toNat_sub, hend, toNat_vaddrBase, endPage]
  omega

theorem Fits.toNat_page (h : ph.Fits) {j : Nat} (hj : j < ph.pageCount) :
    (ph.page j).toNat / 4096 = ph.virtualAddrStart.toNat / 4096 + j := by
  rw [h.pageCount_eq, endPage] at hj
  obtain ⟨hwrap, hlow⟩ := h
  rw [page, BitVec.toNat_add, toNat_vaddrBase, BitVec.toNat_ofNat]
  omega

/-- The loop maps the pages from the start of the segment to its last byte. -/
theorem Fits.hasPage_iff (h : ph.Fits) {pg : Nat} :
    ph.HasPage pg ↔ ph.virtualAddrStart.toNat / 4096 ≤ pg ∧ pg < ph.endPage := by
  constructor
  · rintro ⟨j, hj, rfl⟩
    rw [h.toNat_page hj]
    rw [h.pageCount_eq] at hj
    omega
  · rintro ⟨hlo, hhi⟩
    have hj : pg - ph.virtualAddrStart.toNat / 4096 < ph.pageCount := by
      rw [h.pageCount_eq]
      omega
    exact ⟨_, hj, by rw [h.toNat_page hj]; omega⟩

theorem Fits.hasByte_iff (h : ph.Fits) : ph.HasByte v ↔
    ph.virtualAddrStart.toNat ≤ v.toNat ∧
      v.toNat < ph.virtualAddrStart.toNat + ph.memSize.toNat := by
  obtain ⟨hwrap, -⟩ := h
  have hv := v.isLt
  have hs := ph.virtualAddrStart.isLt
  rw [HasByte, BitVec.toNat_sub]
  omega

theorem Fits.hasPage_of_hasByte (h : ph.Fits) (hv : ph.HasByte v) : ph.HasPage (v.toNat / 4096) := by
  rw [h.hasByte_iff] at hv
  rw [h.hasPage_iff, endPage]
  omega

end ProgramHeader

theorem PageMap.phys_div {x : Nat} (h : pm.phys v = some x) :
    pm (v.toNat / 4096) = some (x / 4096) := by
  obtain ⟨f, hf, rfl⟩ := phys_eq_some.mp h
  rw [hf]
  congr 1
  omega

/-! ### Mapping -/

/-- Page tables and frames are enough for `need` pages in the slots `slots`. -/
structure Ready (i : Nat) (slots : List Nat) (need : Nat) (l : Mapping) : Prop where
  shaped : l.mmu.Shaped
  lt : i < l.mmu.nextDirectory
  null : l.frames.isUsed 0 = true
  frames : need ≤ l.frames.freeFrames
  tables : l.mmu.nextPageTable + l.mmu.missing (.process i) slots ≤ 16

/-- From `l₀` to `l` the pages of the addresses `vs` have got frames that were free, each its own,
and nothing else has happened to the `i`-th directory. -/
structure Mapped (i : Nat) (l₀ : Mapping) (vs : List Word) (l : Mapping) : Prop where
  used : ∀ f, l₀.frames.isUsed f = true → l.frames.isUsed f = true
  fresh : ∀ v ∈ vs, ∃ f, l.mmu.pageMap (.process i) (v.toNat / 4096) = some f ∧
    l₀.frames.isUsed f = false ∧ l.frames.isUsed f = true
  inj : ∀ v ∈ vs, ∀ w ∈ vs, ∀ f, l.mmu.pageMap (.process i) (v.toNat / 4096) = some f →
    l.mmu.pageMap (.process i) (w.toNat / 4096) = some f → v.toNat / 4096 = w.toNat / 4096
  other : ∀ pg, (∀ v ∈ vs, v.toNat / 4096 ≠ pg) →
    l.mmu.pageMap (.process i) pg = l₀.mmu.pageMap (.process i) pg

theorem Mapped.nil (i : Nat) (l : Mapping) : Mapped i l [] l :=
  ⟨fun _ h => h, fun _ hv => absurd hv List.not_mem_nil, fun _ hv => absurd hv List.not_mem_nil,
    fun _ _ => rfl⟩

theorem mem_of_page_ne (hv : v ∈ vs ++ [virt]) (hne : v.toNat / 4096 ≠ virt.toNat / 4096) :
    v ∈ vs := by
  rcases List.mem_append.mp hv with hv | hv
  · exact hv
  · rw [List.mem_singleton.mp hv] at hne
    exact absurd rfl hne

/-- One page more, on a frame that was free. -/
theorem Mapped.concat {f : Nat} (hm : Mapped i l₀ vs l) (hfree : l.frames.isUsed f = false)
    (hused : l'.frames.isUsed f = true)
    (hkeep : ∀ g, l.frames.isUsed g = true → l'.frames.isUsed g = true)
    (hpages : ∀ pg, l'.mmu.pageMap (.process i) pg =
      if pg = virt.toNat / 4096 then some f else l.mmu.pageMap (.process i) pg) :
    Mapped i l₀ (vs ++ [virt]) l' := by
  -- the new frame was free, those of the pages before are in use
  have hold : ∀ {v}, v ∈ vs → l.mmu.pageMap (.process i) (v.toNat / 4096) ≠ some f := by
    intro v hv hf
    obtain ⟨g, hg, -, hgu⟩ := hm.fresh v hv
    obtain rfl : f = g := Option.some.inj (hf.symm.trans hg)
    rw [hfree] at hgu
    cases hgu
  refine ⟨fun g hg => hkeep g (hm.used g hg), ?_, ?_, ?_⟩
  · intro v hv
    rw [hpages]
    split
    · refine ⟨f, rfl, Bool.eq_false_iff.mpr fun hu => ?_, hused⟩
      rw [hm.used f hu] at hfree
      cases hfree
    · rename_i hne
      obtain ⟨g, hg, hg₀, hgu⟩ := hm.fresh v (mem_of_page_ne hv hne)
      exact ⟨g, hg, hg₀, hkeep g hgu⟩
  · intro v hv w hw g hg hg'
    rw [hpages] at hg hg'
    split at hg <;> split at hg'
    · rename_i h₁ h₂
      exact h₁.trans h₂.symm
    · rename_i h₂
      cases hg
      exact absurd hg' (hold (mem_of_page_ne hw h₂))
    · rename_i h₁ _
      cases hg'
      exact absurd hg (hold (mem_of_page_ne hv h₁))
    · rename_i h₁ h₂
      exact hm.inj v (mem_of_page_ne hv h₁) w (mem_of_page_ne hw h₂) g hg hg'
  · intro pg hpg
    rw [hpages, if_neg fun heq => hpg virt (by simp) heq.symm]
    exact hm.other pg fun v hv => hpg v (List.mem_append_left _ hv)

/-- A slot without a table is one of the missing ones, and the pool has one for it. -/
theorem Ready.table {need : Nat} (hr : Ready i slots need l)
    (hslot : Mmu.directoryIndex virt ∈ slots) :
    (l.mmu.dirs (.process i) (Mmu.directoryIndex virt)).isSome ∨ l.mmu.nextPageTable < 16 := by
  by_cases hs : (l.mmu.dirs (.process i) (Mmu.directoryIndex virt)).isSome
  · exact .inl hs
  · have hmissing : 0 < l.mmu.missing (.process i) slots :=
      List.countP_pos_iff.mpr ⟨_, hslot, by simpa using hs⟩
    have := hr.tables
    exact .inr (by omega)

/-- There is a frame for one page more, and a table. -/
theorem Ready.mapPageIn {need : Nat} (hr : Ready i slots (need + 1) l)
    (hslot : Mmu.directoryIndex virt ∈ slots) (pages : List PhysToVirt) :
    l.frames.allocFrame.1 ≠ 0 ∧ ∃ mmu, l.mmu.mapPageIn (.process i) l.frames.allocFrame.1 virt
        (Mmu.flagsPresent ||| Mmu.flagsWritable) = .ok mmu ∧
      Ready i slots need ⟨mmu, l.frames.allocFrame.2, pages⟩ := by
  have hne := PhysicalFrameAllocator.allocFrame_of_free hr.null
    (Nat.lt_of_lt_of_le (Nat.succ_pos need) hr.frames)
  obtain ⟨mmu, hmap⟩ : ∃ mmu, l.mmu.mapPageIn (.process i) l.frames.allocFrame.1 virt
      (Mmu.flagsPresent ||| Mmu.flagsWritable) = .ok mmu := Mmu.mapPageIn_ok (hr.table hslot)
  have hnext : mmu.nextDirectory = l.mmu.nextDirectory := Mmu.nextDirectory_mapPageIn hmap
  have hfrees := PhysicalFrameAllocator.freeFrames_allocFrame hne
  exact ⟨hne, mmu, hmap, hr.shaped.mapPageIn hr.lt hmap, hnext ▸ hr.lt,
    PhysicalFrameAllocator.isUsed_allocFrame hr.null,
    Nat.le_of_succ_le_succ (Nat.le_trans hr.frames hfrees),
    Nat.le_trans (Mmu.missing_mapPageIn hslot hmap) hr.tables⟩

/-- One page more. -/
theorem mapPage_ok {need : Nat} (hr : Ready i slots (need + 1) l) (hm : Mapped i l₀ vs l)
    (hslot : Mmu.directoryIndex virt ∈ slots) :
    ∃ l', mapPage (.process i) l virt = .ok l' ∧ Ready i slots need l' ∧
      Mapped i l₀ (vs ++ [virt]) l' := by
  obtain ⟨hne, mmu, hmap, hready⟩ :=
    hr.mapPageIn hslot (l.pages ++ [⟨l.frames.allocFrame.1, virt⟩])
  obtain ⟨f, -, hfree, hphys, hpfa⟩ := PhysicalFrameAllocator.allocFrame_of_ne_zero hne
  have hframe : l.frames.allocFrame.1 / 4096 = f := by
    rw [hphys]
    exact Nat.mul_div_cancel _ (by decide)
  have hused : l.frames.allocFrame.2.isUsed f = true := by
    rw [hpfa]
    exact PhysicalFrameAllocator.isUsed_markUsed_self
  have hpages := Mmu.pageMap_mapPageIn hr.shaped hmap
  rw [hframe] at hpages
  refine ⟨_, ?_, hready,
    hm.concat hfree hused (fun _ => PhysicalFrameAllocator.isUsed_allocFrame) hpages⟩
  rw [mapPage, if_neg hne]
  exact bind_eq_ok.mpr ⟨mmu, hmap, rfl⟩

theorem mapSegment_ok {need : Nat} (hr : Ready i slots (ph.pageCount + need) l)
    (hslot : ∀ pg, ph.HasPage pg → pg / 1024 ∈ slots) :
    ∃ l', mapSegment (.process i) ph l = .ok l' ∧ Ready i slots need l' ∧
      Mapped i l ((List.range ph.pageCount).map ph.page) l' := by
  obtain ⟨l', hloop, hready, vs, hvs, hmapped⟩ := foldlM_ok
    (f := mapPage (.process i))
    (P := fun rest l' => Ready i slots (rest.length + need) l' ∧
      ∃ vs, vs ++ rest = (List.range ph.pageCount).map ph.page ∧ Mapped i l vs l')
    (l := (List.range ph.pageCount).map ph.page) (s := l)
    (by
      rintro virt rest l₁ ⟨hready, vs, hvs, hmapped⟩
      rw [List.length_cons, Nat.add_right_comm] at hready
      have hvirt : virt ∈ (List.range ph.pageCount).map ph.page := by
        rw [← hvs]
        simp
      obtain ⟨j, hj, rfl⟩ := List.mem_map.mp hvirt
      have hpage : Mmu.directoryIndex (ph.page j) ∈ slots := by
        rw [Mmu.directoryIndex_eq]
        exact hslot _ ⟨j, List.mem_range.mp hj, rfl⟩
      obtain ⟨l₂, hstep, hready, hmapped⟩ := mapPage_ok hready hmapped hpage
      exact ⟨l₂, hstep, hready, vs ++ [ph.page j], by rw [← hvs]; simp, hmapped⟩)
    ⟨by rwa [List.length_map, List.length_range], [], rfl, .nil i l⟩
  rw [List.append_nil] at hvs
  rw [List.length_nil, Nat.zero_add] at hready
  exact ⟨l', hloop, hready, hvs ▸ hmapped⟩

/-! ### The pages of a mapped segment -/

section Pages

variable (hm : Mapped i l ((List.range ph.pageCount).map ph.page) l')

include hm

theorem Mapped.page_fresh {pg : Nat} (hpg : ph.HasPage pg) :
    ∃ f, l'.mmu.pageMap (.process i) pg = some f ∧ l.frames.isUsed f = false ∧
      l'.frames.isUsed f = true := by
  obtain ⟨j, hj, rfl⟩ := hpg
  exact hm.fresh _ (List.mem_map_of_mem (List.mem_range.mpr hj))

theorem Mapped.page_new {pg f : Nat} (hpg : ph.HasPage pg)
    (hf : l'.mmu.pageMap (.process i) pg = some f) :
    l.frames.isUsed f = false ∧ l'.frames.isUsed f = true := by
  obtain ⟨g, hg, hfree, hused⟩ := hm.page_fresh hpg
  obtain rfl : g = f := Option.some.inj (hg.symm.trans hf)
  exact ⟨hfree, hused⟩

theorem Mapped.page_inj {pg pg' f : Nat} (hpg : ph.HasPage pg) (hpg' : ph.HasPage pg')
    (hf : l'.mmu.pageMap (.process i) pg = some f)
    (hf' : l'.mmu.pageMap (.process i) pg' = some f) : pg = pg' := by
  obtain ⟨j, hj, rfl⟩ := hpg
  obtain ⟨j', hj', rfl⟩ := hpg'
  exact hm.inj _ (List.mem_map_of_mem (List.mem_range.mpr hj)) _
    (List.mem_map_of_mem (List.mem_range.mpr hj')) f hf hf'

theorem Mapped.page_other {pg : Nat} (hpg : ¬ ph.HasPage pg) :
    l'.mmu.pageMap (.process i) pg = l.mmu.pageMap (.process i) pg := by
  refine hm.other pg fun v hv hvpg => hpg ?_
  obtain ⟨j, hj, rfl⟩ := List.mem_map.mp hv
  exact ⟨j, List.mem_range.mp hj, hvpg⟩

theorem Mapped.byte_mapped (h : ph.Fits) (hv : ph.HasByte v) :
    ∃ x, (l'.mmu.pageMap (.process i)).phys v = some x := by
  obtain ⟨f, hf, -, -⟩ := hm.page_fresh (h.hasPage_of_hasByte hv)
  exact ⟨_, PageMap.phys_eq_some.mpr ⟨f, hf, rfl⟩⟩

/-- Two addresses of the pages of the segment have two places. -/
theorem Mapped.phys_inj {w : Word} {x : Nat} (hv : ph.HasPage (v.toNat / 4096))
    (hw : ph.HasPage (w.toNat / 4096)) (hvx : (l'.mmu.pageMap (.process i)).phys v = some x)
    (hwx : (l'.mmu.pageMap (.process i)).phys w = some x) : v = w := by
  have hpage := hm.page_inj hv hw (PageMap.phys_div hvx) (PageMap.phys_div hwx)
  obtain ⟨f, -, hf⟩ := PageMap.phys_eq_some.mp hvx
  obtain ⟨g, -, hg⟩ := PageMap.phys_eq_some.mp hwx
  exact BitVec.eq_of_toNat_eq (by omega)

/-- The places of its bytes are in frames that were free and are in use now. -/
theorem Mapped.not_byte {x : Nat} (h : ph.Fits)
    (hx : l.frames.isUsed (x / 4096) = true ∨ l'.frames.isUsed (x / 4096) = false)
    (hv : ph.HasByte v) : (l'.mmu.pageMap (.process i)).phys v ≠ some x := by
  intro hvx
  obtain ⟨hfree, hused⟩ := hm.page_new (h.hasPage_of_hasByte hv) (PageMap.phys_div hvx)
  rcases hx with hx | hx
  · rw [hfree] at hx
    cases hx
  · rw [hused] at hx
    cases hx

end Pages

/-! ### Copying -/

namespace ProgramHeader

/-- What the file says of the byte of the segment at `v`. -/
def byteAt (ph : ProgramHeader) (file : PMem) (v : Word) : Option UInt8 :=
  let off := (v - ph.virtualAddrStart).toNat
  if off < ph.segmentFilesize.toNat then file (ph.contentsOffset + off) else some 0

theorem offset_sub (ph : ProgramHeader) {i : Nat} (hi : i < 2 ^ 32) :
    (ph.virtualAddrStart + BitVec.ofNat 32 i - ph.virtualAddrStart).toNat = i := by
  have hs := ph.virtualAddrStart.isLt
  rw [BitVec.toNat_sub, BitVec.toNat_add, BitVec.toNat_ofNat]
  omega

theorem add_offset (ph : ProgramHeader) (v : Word) :
    ph.virtualAddrStart + BitVec.ofNat 32 (v - ph.virtualAddrStart).toNat = v := by
  rw [BitVec.ofNat_toNat, BitVec.setWidth_eq, BitVec.add_comm, BitVec.sub_add_cancel]

theorem hasByte_add {i : Nat} (hi : i < ph.memSize.toNat) :
    ph.HasByte (ph.virtualAddrStart + BitVec.ofNat 32 i) := by
  rwa [HasByte, ph.offset_sub (Nat.lt_trans hi ph.memSize.isLt)]

/-- The zeros start where the bytes of the file end. -/
theorem fileEnd_add (ph : ProgramHeader) (i : Nat) :
    ph.virtualAddrStart + ph.segmentFilesize + BitVec.ofNat 32 i =
      ph.virtualAddrStart + BitVec.ofNat 32 (ph.segmentFilesize.toNat + i) := by
  have hfile : ph.segmentFilesize = BitVec.ofNat 32 ph.segmentFilesize.toNat := by
    rw [BitVec.ofNat_toNat, BitVec.setWidth_eq]
  rw [BitVec.ofNat_add, ← hfile, BitVec.add_assoc]

theorem toNat_zeros (hsize : ph.segmentFilesize.toNat ≤ ph.memSize.toNat) :
    (ph.memSize - ph.segmentFilesize).toNat = ph.memSize.toNat - ph.segmentFilesize.toNat := by
  have := ph.memSize.isLt
  rw [BitVec.toNat_sub]
  omega

end ProgramHeader

/-- Through a map that has every byte of the segment, each on a place of its own. -/
theorem copySegment_ok {contents : List UInt8} (mem : Mem)
    (hc : peek file ph.contentsOffset ph.segmentFilesize.toNat = some contents)
    (hsize : ph.segmentFilesize.toNat ≤ ph.memSize.toNat)
    (hmapped : ∀ v, ph.HasByte v → ∃ x, pm.phys v = some x)
    (hinj : ∀ v w x, ph.HasByte v → ph.HasByte w → pm.phys v = some x → pm.phys w = some x → v = w) :
    ∃ mem', copySegment file ph pm mem = .ok mem' ∧
      (∀ v, ph.HasByte v → byteV pm mem' v = ph.byteAt file v) ∧
      ∀ x, (∀ v, ph.HasByte v → pm.phys v ≠ some x) → mem' x = mem x := by
  obtain ⟨hlen, hget⟩ := peek_eq_some hc
  have hmem := ph.memSize.isLt
  have hplace : ∀ {i j x}, i < ph.memSize.toNat → j < ph.memSize.toNat →
      pm.phys (ph.virtualAddrStart + BitVec.ofNat 32 i) = some x →
      pm.phys (ph.virtualAddrStart + BitVec.ofNat 32 j) = some x → i = j := by
    intro i j x hi hj hxi hxj
    have h := hinj _ _ x (ProgramHeader.hasByte_add hi) (ProgramHeader.hasByte_add hj) hxi hxj
    rw [← ph.offset_sub (i := i) (by omega), h, ph.offset_sub (by omega)]
  have hrest := ProgramHeader.toNat_zeros hsize
  obtain ⟨mem₁, hmem₁⟩ : ∃ mem₁, storeV pm mem ph.virtualAddrStart contents = some mem₁ :=
    storeV_ok fun i hi => hmapped _ (ProgramHeader.hasByte_add (by omega))
  obtain ⟨mem₂, hmem₂⟩ : ∃ mem₂, storeV pm mem₁ (ph.virtualAddrStart + ph.segmentFilesize)
      (List.replicate (ph.memSize - ph.segmentFilesize).toNat 0) = some mem₂ :=
    storeV_ok fun i hi => by
      rw [List.length_replicate] at hi
      rw [ph.fileEnd_add]
      exact hmapped _ (ProgramHeader.hasByte_add (by omega))
  refine ⟨mem₂, ?_, fun v hv => ?_, fun x hx => ?_⟩
  · rw [copySegment, hc]
    refine bind_eq_ok.mpr ⟨contents, rfl, bind_eq_ok.mpr ⟨mem₁, ?_, ?_⟩⟩
    · rw [hmem₁]
      rfl
    · rw [hmem₂]
      rfl
  · -- below the file size from the first store, which the second does not touch
    obtain ⟨i, hi, rfl⟩ : ∃ i, i < ph.memSize.toNat ∧
        v = ph.virtualAddrStart + BitVec.ofNat 32 i := ⟨_, hv, (ph.add_offset v).symm⟩
    rw [ProgramHeader.byteAt, ph.offset_sub (by omega)]
    by_cases hif : i < ph.segmentFilesize.toNat
    · have hi' : i < contents.length := by omega
      have hfirst := byteV_storeV hmem₁ (fun i hi j hj x hxi hxj =>
        hplace (by omega) (by omega) hxi hxj) hi'
      rw [if_pos hif, hget i hi', ← hfirst]
      obtain ⟨x, hx⟩ := hmapped _ (ProgramHeader.hasByte_add hi)
      rw [byteV, byteV, hx, Option.map_some, Option.map_some,
        storeV_of_not_mem hmem₂ fun j hj hxj => ?_]
      rw [List.length_replicate] at hj
      rw [ph.fileEnd_add] at hxj
      have := hplace hi (by omega) hx hxj
      omega
    · have hj : i - ph.segmentFilesize.toNat <
          (List.replicate (ph.memSize - ph.segmentFilesize).toNat (0 : UInt8)).length := by
        rw [List.length_replicate]
        omega
      have hsecond := byteV_storeV hmem₂ (fun i hi j hj x hxi hxj => by
        rw [List.length_replicate] at hi hj
        rw [ph.fileEnd_add] at hxi hxj
        have := hplace (by omega) (by omega) hxi hxj
        omega) hj
      have hsum : ph.segmentFilesize.toNat + (i - ph.segmentFilesize.toNat) = i := by omega
      rw [ph.fileEnd_add, hsum, List.getElem_replicate] at hsecond
      rw [if_neg hif, hsecond]
  · rw [storeV_of_not_mem hmem₂ fun j hj hxj => ?_, storeV_of_not_mem hmem₁ fun j hj hxj => ?_]
    · exact hx _ (ProgramHeader.hasByte_add (i := j) (by omega)) hxj
    · rw [List.length_replicate] at hj
      rw [ph.fileEnd_add] at hxj
      exact hx _ (ProgramHeader.hasByte_add (by omega)) hxj

end RivOS
