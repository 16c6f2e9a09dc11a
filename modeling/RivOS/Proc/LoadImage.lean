import Mathlib.Algebra.GroupWithZero.Nat
import Mathlib.Data.List.Dedup
import RivOS.Proc.Isolation
import RivOS.Proc.Segments

/-!
# Proc — The image of a file

* `Settled`: what every run of calls keeps of the kernel, one lemma for each call.
* `lastOn`: the last segment that maps a page, whose frame the page has in the end.
* `Laid`: what holds after some of the segments, kept by loading one more (`Laid.loadSegment`).
* `image_iff`: the file's image is in memory after every load of it exactly if no segment maps a page
  on which an earlier one has a byte.
* `image_fails`: of two segments on one page, the first is lost.
-/

namespace RivOS

open ElfExecutable (mapSegment loadSegment loadHeader)
open Kernel (Call)

variable {i n : Nat} {virt v : Word} {virts : List Word} {l l' : Mapping} {b : BootStack}
  {file : PMem} {k k' : Kernel} {s s' : System} {p : Process} {mem mem' mem₀ : Mem}
  {hdr : ElfHeader32} {ph : ProgramHeader} {segs done rest : List ProgramHeader} {pg : Nat}
  {slots : List Nat} {pfa : PhysicalFrameAllocator} {mm : Mmu}

/-! ### Between calls -/

structure Settled (k : Kernel) : Prop where
  shaped : k.mmu.Shaped
  null : k.frames.isUsed 0 = true
  length : k.processes.length = k.mmu.nextDirectory
  directory : ∀ (i : Nat) (p : Process), k.processes[i]? = some p → p.pageDirectory = .process i

/-- What a loop that maps pages keeps when `n` directories are taken. -/
structure Tidy (n : Nat) (mm : Mmu) (pfa : PhysicalFrameAllocator) : Prop where
  shaped : mm.Shaped
  null : pfa.isUsed 0 = true
  next : mm.nextDirectory = n

theorem Tidy.mapPageIn {mm' : Mmu} {phys flgs : Nat} (h : Tidy n mm pfa) (hi : i < n)
    (hm : mm.mapPageIn (.process i) phys virt flgs = .ok mm') : Tidy n mm' pfa.allocFrame.2 :=
  ⟨h.shaped.mapPageIn (h.next ▸ hi) hm, PhysicalFrameAllocator.isUsed_allocFrame h.null,
    (Mmu.nextDirectory_mapPageIn hm).trans h.next⟩

theorem Tidy.enter (h : Tidy n l.mmu l.frames) (hi : i < n)
    (he : l.enter (.process i) virt l.frames.allocFrame = .ok l') : Tidy n l'.mmu l'.frames := by
  obtain ⟨mmu, hm, hl⟩ := bind_eq_ok.mp he
  cases hl
  exact h.mapPageIn hi hm

theorem Tidy.loadHeaders {is : List Nat} (h : Tidy n l.mmu l.frames) (hi : i < n)
    (hm : is.foldlM (loadHeader file (.process i) hdr) (l, mem) = .ok (l', mem')) :
    Tidy n l'.mmu l'.frames := by
  refine foldlM_inv (P := fun _ (s : Mapping × Mem) => Tidy n s.1.mmu s.1.frames)
    (fun {_ _ s s'} hs hstep => ?_) h hm
  rcases ElfExecutable.loadHeader_cases hstep with rfl | ⟨ph, -, hload⟩
  · exact hs
  · refine foldlM_inv (P := fun _ (l : Mapping) => Tidy n l.mmu l.frames)
      (fun {virt _ l l'} hl hstep => ?_) hs (ElfExecutable.loadSegment_cases hload).1
    rw [ElfExecutable.mapPage] at hstep
    split at hstep
    · cases hstep
    · exact hl.enter hi hstep

theorem Tidy.mapHeap {r : Bool × Mmu × PhysicalFrameAllocator} (h : Tidy n mm pfa) (hi : i < n)
    (hm : Kernel.mapHeap (.process i) mm pfa virts = .ok r) : Tidy n r.2.1 r.2.2 := by
  induction virts generalizing mm pfa with
  | nil =>
      cases hm
      exact h
  | cons virt rest ih =>
      rw [Kernel.mapHeap] at hm
      split at hm
      · cases hm
        exact ⟨h.shaped, PhysicalFrameAllocator.isUsed_allocFrame h.null, h.next⟩
      · obtain ⟨mm', hmap, hm⟩ := bind_eq_ok.mp hm
        exact ih (h.mapPageIn hi hmap) hm

theorem Settled.lt (hk : Settled k) (hp : k.processes[i]? = some p) : i < k.mmu.nextDirectory := by
  rw [← hk.length]
  exact (List.getElem?_eq_some_iff.mp hp).1

/-- A kernel with the same processes in the same directories. -/
theorem Settled.of_tidy (hk : Settled k) (ht : Tidy k.mmu.nextDirectory k'.mmu k'.frames)
    (hlen : k'.processes.length = k.processes.length)
    (hprocs : ∀ (j : Nat) (q : Process), k'.processes[j]? = some q →
      ∃ q₀, k.processes[j]? = some q₀ ∧ q.pageDirectory = q₀.pageDirectory) : Settled k' where
  shaped := ht.shaped
  null := ht.null
  length := hlen.trans (hk.length.trans ht.next.symm)
  directory j q hq := by
    obtain ⟨q₀, hq₀, hdir⟩ := hprocs j q hq
    exact hdir.trans (hk.directory j q₀ hq₀)

theorem Settled.load {priveledge : ProcessPriveledgeLevel} (hk : Settled k)
    (h : ElfExecutable.load file b priveledge k mem = .ok (p, k', mem')) : Settled k' := by
  obtain ⟨mmu, hdr, l, hcreate, -, hloop, -, hmmu, hframes, hprocs, -⟩ :=
    ElfExecutable.load_cases h
  obtain ⟨mmu', hcreate', hcreated⟩ :=
    hk.shaped.createAddressSpace b (Mmu.createAddressSpace_lt hcreate)
  obtain ⟨hdir, rfl⟩ : Dir.process k.mmu.nextDirectory = p.pageDirectory ∧ mmu' = mmu := by
    simpa using hcreate'.symm.trans hcreate
  rw [← hdir] at hloop
  have htidy : Tidy (k.mmu.nextDirectory + 1) l.mmu l.frames :=
    Tidy.loadHeaders ⟨hcreated.shaped, hk.null, hcreated.nextDirectory⟩ (Nat.lt_succ_self _) hloop
  refine ⟨hmmu ▸ htidy.shaped, hframes ▸ htidy.null, ?_, fun j q hq => ?_⟩
  · rw [hprocs, hmmu, htidy.next, List.length_append, List.length_singleton, hk.length]
  · rw [hprocs, List.getElem?_append] at hq
    split at hq
    · exact hk.directory j q hq
    · -- the new process
      obtain ⟨hj, rfl⟩ := List.getElem?_eq_some_iff.mp hq
      rw [List.length_singleton] at hj
      rw [List.getElem_singleton, ← hdir, ← hk.length]
      congr 1
      omega

theorem Settled.run (hk : Settled k) (h : k.run i = .ok k') : Settled k' := by
  obtain ⟨p, l, hp, hloop, rfl⟩ := Kernel.run_cases h
  have hlt := hk.lt hp
  have hdir := hk.directory i p hp
  rw [hdir] at hloop
  have htidy : Tidy k.mmu.nextDirectory l.mmu l.frames :=
    foldlM_inv (P := fun _ (l : Mapping) => Tidy k.mmu.nextDirectory l.mmu l.frames)
      (fun hl hstep => hl.enter hlt hstep) ⟨hk.shaped.clearStack hlt, hk.null, rfl⟩ hloop
  refine hk.of_tidy ⟨?_, htidy.null, htidy.next⟩ List.length_set (System.getElem?_set_directory hp rfl)
  rw [hdir]
  exact htidy.shaped.setActive (htidy.next ▸ hlt)

theorem Settled.ctxtSwitch (hk : Settled k) (hp : k.processes[i]? = some p)
    (h : k.ctxtSwitch p = .ok k') : Settled k' := by
  obtain rfl := Kernel.ctxtSwitch_eq_ok h
  refine hk.of_tidy ⟨?_, hk.null, rfl⟩ rfl fun j q hq => ⟨q, hq, rfl⟩
  rw [hk.directory i p hp]
  exact hk.shaped.setActive (hk.lt hp)

theorem Settled.mmap {edi eax : Word} (hk : Settled k) (h : k.mmap edi = .ok (k', eax)) :
    Settled k' := by
  obtain ⟨-, rfl, -⟩ | ⟨i, p, all, mmu, frames, -, hp, hmap, hret⟩ := Kernel.mmap_cases h
  · exact hk
  · rw [hk.directory i p hp] at hmap
    have htidy := Tidy.mapHeap ⟨hk.shaped, hk.null, rfl⟩ (hk.lt hp) hmap
    obtain ⟨-, -, rfl⟩ | ⟨-, -, rfl⟩ := hret
    · exact hk.of_tidy htidy List.length_set (System.getElem?_set_directory hp rfl)
    · exact hk.of_tidy htidy rfl fun j q hq => ⟨q, hq, rfl⟩

theorem Settled.step {c : Call} (hs : Settled s.kernel) (h : System.Step b s c s') :
    Settled s'.kernel := by
  obtain ⟨_, _, _, _, _, _, rfl, hload, rfl⟩ | ⟨_, _, rfl, hrun, rfl⟩ |
    ⟨_, _, _, rfl, hp, hswitch, rfl⟩ | ⟨_, _, _, rfl, hmap, rfl⟩ := System.step_cases h
  · exact hs.load hload
  · exact hs.run hrun
  · exact hs.ctxtSwitch hp hswitch
  · exact hs.mmap hmap

theorem settled_booted (hb : k.Booted) : Settled k :=
  have hinv := System.inv_booted hb
  ⟨hinv.order.1.toShaped, hinv.order.2, hinv.length, hinv.directory⟩

theorem settled {cs : List Call} (hb : k.Booted) (r : Run (System.Step b) ⟨k, []⟩ cs s) :
    Settled s.kernel :=
  r.inv (I := fun s => Settled s.kernel) (settled_booted hb) Settled.step

/-! ### Segments, one after the other -/

/-- The segments of a file, in the order of their headers; `none` where a header cannot be read. -/
def segments (file : PMem) (hdr : ElfHeader32) : Option (List ProgramHeader) :=
  ((List.range hdr.programHeaderTableSize).mapM fun i => ProgramHeader.read file
    (hdr.programHeaderTableOffset + i * hdr.programHeaderEntrySize)).map (List.filterMap id)

/-- The pass over the headers is one over the segments. -/
theorem foldlM_loadHeader {dir : Dir} (h : segments file hdr = some segs) (s : Mapping × Mem) :
    (List.range hdr.programHeaderTableSize).foldlM (loadHeader file dir hdr) s =
      segs.foldlM (fun s ph => loadSegment file dir ph s) s := by
  obtain ⟨phs, hphs, rfl⟩ := Option.map_eq_some_iff.mp h
  clear h
  generalize List.range hdr.programHeaderTableSize = is at hphs
  induction is generalizing phs s with
  | nil =>
      cases hphs
      rfl
  | cons i is ih =>
      rw [List.mapM_cons] at hphs
      obtain ⟨ph, hph, hphs⟩ := Option.bind_eq_some_iff.mp hphs
      obtain ⟨phs, hrest, hphs⟩ := Option.bind_eq_some_iff.mp hphs
      cases hphs
      rw [List.foldlM_cons, loadHeader, hph]
      cases ph with
      | none => exact ih s phs hrest
      | some ph => exact bind_congr fun s => ih s phs hrest

/-- The last of the segments that maps the page. -/
def lastOn (segs : List ProgramHeader) (pg : Nat) : Option ProgramHeader :=
  segs.foldl (fun o ph => if ph.HasPage pg then some ph else o) none

theorem lastOn_concat : lastOn (segs ++ [ph]) pg =
    if ph.HasPage pg then some ph else lastOn segs pg := by
  rw [lastOn, List.foldl_append]
  rfl

/-- Segments that do not map the page do not matter. -/
theorem lastOn_append (h : ∀ ph ∈ rest, ¬ ph.HasPage pg) :
    lastOn (segs ++ rest) pg = lastOn segs pg := by
  induction rest using List.reverseRecOn with
  | nil => rw [List.append_nil]
  | append_singleton rest ph ih =>
      rw [← List.append_assoc, lastOn_concat, if_neg (h ph (by simp)),
        ih fun ph hph => h ph (List.mem_append_left _ hph)]

/-- From a segment that maps the page, it is the last one or comes before it. -/
theorem lastOn_append_cons (segs rest : List ProgramHeader) (h : ph.HasPage pg) :
    ∃ last ∈ ph :: rest, last.HasPage pg ∧ lastOn (segs ++ ph :: rest) pg = some last := by
  induction rest using List.reverseRecOn with
  | nil => exact ⟨ph, by simp, h, by rw [lastOn_concat, if_pos h]⟩
  | append_singleton rest ph' ih =>
      rw [← List.cons_append, ← List.append_assoc, lastOn_concat]
      by_cases h' : ph'.HasPage pg
      · exact ⟨ph', by simp, h', if_pos h'⟩
      · obtain ⟨last, hmem, hlast, heq⟩ := ih
        exact ⟨last, List.mem_append_left _ hmem, hlast, by rw [if_neg h', heq]⟩

/-- After the segments `done`, with `rest` to come: the pages of `done` have frames of their own, in
use, and the bytes of the last segment on them; where that has none, and in the frames still free,
the memory is what it was. -/
structure Laid (file : PMem) (i : Nat) (slots : List Nat) (mem₀ : Mem)
    (done rest : List ProgramHeader) (s : Mapping × Mem) : Prop where
  ready : Ready i slots (rest.map ProgramHeader.pageCount).sum s.1
  inUse : ∀ pg f, (lastOn done pg).isSome → s.1.mmu.pageMap (.process i) pg = some f →
    s.1.frames.isUsed f = true
  inj : ∀ pg pg' f, (lastOn done pg).isSome → (lastOn done pg').isSome →
    s.1.mmu.pageMap (.process i) pg = some f → s.1.mmu.pageMap (.process i) pg' = some f → pg = pg'
  free : ∀ x, s.1.frames.isUsed (x / 4096) = false → s.2 x = mem₀ x
  bytes : ∀ v last, lastOn done (v.toNat / 4096) = some last →
    ∃ x, (s.1.mmu.pageMap (.process i)).phys v = some x ∧
      some (s.2 x) = if last.HasByte v then last.byteAt file v else some (mem₀ x)

/-- What the loader asks of a segment. -/
structure Sane (file : PMem) (slots : List Nat) (ph : ProgramHeader) : Prop where
  fits : ph.Fits
  contents : (peek file ph.contentsOffset ph.segmentFilesize.toNat).isSome
  size : ph.segmentFilesize.toNat ≤ ph.memSize.toNat
  slot : ∀ pg, ph.HasPage pg → pg / 1024 ∈ slots

/-- The frames that a segment has got are none of the pages before. -/
theorem Laid.page_kept {l : Mapping} (h : Laid file i slots mem₀ done rest (l, mem)) {pg pg' f : Nat}
    (hm : Mapped i l ((List.range ph.pageCount).map ph.page) l') (hpg : ph.HasPage pg)
    (hf : l'.mmu.pageMap (.process i) pg = some f) (hlast : (lastOn done pg').isSome) :
    l.mmu.pageMap (.process i) pg' ≠ some f := by
  intro hf'
  have hfree := (hm.page_new hpg hf).1
  rw [h.inUse pg' f hlast hf'] at hfree
  cases hfree

theorem Laid.loadSegment {l : Mapping} (h : Laid file i slots mem₀ done (ph :: rest) (l, mem))
    (hs : Sane file slots ph) :
    ∃ r, ElfExecutable.loadSegment file (.process i) ph (l, mem) = .ok r ∧
      Laid file i slots mem₀ (done ++ [ph]) rest r := by
  obtain ⟨contents, hcontents⟩ := Option.isSome_iff_exists.mp hs.contents
  obtain ⟨l', hmap, hready, hm⟩ := mapSegment_ok
    (by simpa only [List.map_cons, List.sum_cons] using h.ready) hs.slot
  have hpageOf : ∀ {v}, ph.HasByte v → ph.HasPage (v.toNat / 4096) := hs.fits.hasPage_of_hasByte
  obtain ⟨mem', hcopy, hbytes, hkeep⟩ := copySegment_ok mem hcontents hs.size
    (fun v hv => hm.byte_mapped hs.fits hv)
    (fun v w x hv hw hvx hwx => hm.phys_inj (hpageOf hv) (hpageOf hw) hvx hwx)
  -- a frame that was in use, or still is free, is not written to
  have hkept : ∀ x, (l.frames.isUsed (x / 4096) = true ∨ l'.frames.isUsed (x / 4096) = false) →
      mem' x = mem x := fun x hx => hkeep x fun v hv => hm.not_byte hs.fits hx hv
  have hold : ∀ {pg}, (lastOn (done ++ [ph]) pg).isSome → ¬ ph.HasPage pg →
      (lastOn done pg).isSome := by
    intro pg hlast hpg
    rwa [lastOn_concat, if_neg hpg] at hlast
  refine ⟨(l', mem'), ?_, hready, fun pg f hlast hf => ?_, fun pg pg' f hlast hlast' hf hf' => ?_,
    fun x hx => ?_, fun v last hlast => ?_⟩
  · exact bind_eq_ok.mpr ⟨l', hmap, bind_eq_ok.mpr ⟨mem', by simpa using hcopy,
      by rw [Mmu.switchAddressSpace_back]; rfl⟩⟩
  · by_cases hpg : ph.HasPage pg
    · exact (hm.page_new hpg hf).2
    · rw [hm.page_other hpg] at hf
      exact hm.used f (h.inUse pg f (hold hlast hpg) hf)
  · by_cases hpg : ph.HasPage pg <;> by_cases hpg' : ph.HasPage pg'
    · exact hm.page_inj hpg hpg' hf hf'
    · rw [hm.page_other hpg'] at hf'
      exact absurd hf' (h.page_kept hm hpg hf (hold hlast' hpg'))
    · rw [hm.page_other hpg] at hf
      exact absurd hf (h.page_kept hm hpg' hf' (hold hlast hpg))
    · rw [hm.page_other hpg] at hf
      rw [hm.page_other hpg'] at hf'
      exact h.inj pg pg' f (hold hlast hpg) (hold hlast' hpg') hf hf'
  · have hfree : l.frames.isUsed (x / 4096) = false := by
      refine Bool.eq_false_iff.mpr fun hu => ?_
      rw [hm.used _ hu] at hx
      cases hx
    exact (hkept x (.inr hx)).trans (h.free x hfree)
  · rw [lastOn_concat] at hlast
    split at hlast
    · rename_i hpg
      obtain rfl := Option.some.inj hlast
      obtain ⟨f, hf, hfree, -⟩ := hm.page_fresh hpg
      have hx : (l'.mmu.pageMap (.process i)).phys v = some (f * 4096 + v.toNat % 4096) :=
        PageMap.phys_eq_some.mpr ⟨f, hf, rfl⟩
      refine ⟨_, hx, ?_⟩
      by_cases hv : ph.HasByte v
      · rw [if_pos hv, ← hbytes v hv, byteV, hx, Option.map_some]
      · -- a byte of the page that the segment does not have
        have hdiv : (f * 4096 + v.toNat % 4096) / 4096 = f := by omega
        rw [if_neg hv]
        refine congrArg some ((hkeep _ fun w hw hwx => ?_).trans
          (h.free _ (by rw [hdiv]; exact hfree)))
        obtain rfl := hm.phys_inj (hpageOf hw) hpg hwx hx
        exact hv hw
    · rename_i hpg
      obtain ⟨x, hx, hbyte⟩ := h.bytes v last hlast
      have hused := h.inUse _ _ (by rw [hlast]; rfl) (PageMap.phys_div hx)
      refine ⟨x, ?_, (congrArg some (hkept x (.inl hused))).trans hbyte⟩
      rw [PageMap.phys, hm.page_other hpg]
      exact hx

/-- All the segments. -/
theorem Laid.loadSegments (h : Laid file i slots mem₀ [] segs (l, mem))
    (hs : ∀ ph ∈ segs, Sane file slots ph) :
    ∃ r, segs.foldlM (fun s ph => ElfExecutable.loadSegment file (.process i) ph s) (l, mem) = .ok r ∧
      Laid file i slots mem₀ segs [] r := by
  obtain ⟨r, hr, done, hdone, hlaid⟩ := foldlM_ok
    (f := fun s ph => ElfExecutable.loadSegment file (.process i) ph s)
    (P := fun rest r => ∃ done, done ++ rest = segs ∧ Laid file i slots mem₀ done rest r)
    (l := segs) (s := (l, mem))
    (by
      rintro ph rest ⟨l, mem⟩ ⟨done, rfl, hlaid⟩
      obtain ⟨r, hr, hlaid⟩ := hlaid.loadSegment (hs ph (by simp))
      exact ⟨r, hr, done ++ [ph], by simp, hlaid⟩)
    ⟨[], rfl, h⟩
  rw [List.append_nil] at hdone
  exact ⟨r, hr, hdone ▸ hlaid⟩

/-! ### Every file -/

/-- No byte of `a` is on a page that `b` maps. -/
def ProgramHeader.Apart (a b : ProgramHeader) : Prop := ∀ v, a.HasByte v → ¬ b.HasPage (v.toNat / 4096)

/-- The slots of the pages of all segments. -/
def pageSlots (segs : List ProgramHeader) : List Nat :=
  (segs.flatMap fun ph => (List.range ph.pageCount).map fun j =>
    Mmu.directoryIndex (ph.page j)).dedup

/-- A file the loader accepts, with everything it points to inside it, for an address space in which
there is room for it, and enough of all that is needed. -/
structure Loadable (file : PMem) (k : Kernel) (hdr : ElfHeader32) (segs : List ProgramHeader) :
    Prop where
  header : ElfHeader32.read file = some hdr
  valid : ElfExecutable.isValid hdr = true
  segments : segments file hdr = some segs
  contents : ∀ ph ∈ segs, (peek file ph.contentsOffset ph.segmentFilesize.toNat).isSome
  size : ∀ ph ∈ segs, ph.segmentFilesize.toNat ≤ ph.memSize.toNat
  nowrap : ∀ ph ∈ segs, ph.virtualAddrStart.toNat + ph.memSize.toNat ≤ 2 ^ 32
  disjoint : segs.Pairwise fun a b => ∀ v, a.HasByte v → ¬ b.HasByte v
  slots : ∀ ph ∈ segs, ∀ v, v = ph.virtualAddrStart ∨ ph.HasByte v →
    k.mmu.dirs .kernel (Mmu.directoryIndex v) = none
  frames : (segs.map ProgramHeader.pageCount).sum ≤ k.frames.freeFrames
  directories : k.mmu.nextDirectory < 16
  tables : k.mmu.nextPageTable + (pageSlots segs).length ≤ 16

/-- The load comes to its end, with the bytes of all segments in the new address space. -/
def LoadsImage (b : BootStack) (file : PMem) (priveledge : ProcessPriveledgeLevel) (k : Kernel)
    (segs : List ProgramHeader) (mem : Mem) : Prop :=
  ∃ p k' mem', ElfExecutable.load file b priveledge k mem = .ok (p, k', mem') ∧
    ∀ ph ∈ segs, ∀ v, ph.HasByte v →
      byteV (k'.mmu.pageMap p.pageDirectory) mem' v = ph.byteAt file v

theorem Loadable.sane (h : Loadable file k hdr segs) (hk : Settled k) (hph : ph ∈ segs) :
    Sane file (pageSlots segs) ph where
  fits :=
    ⟨h.nowrap ph hph, by
      -- the first page is in a slot of the kernel's
      by_contra hlow
      have hslot := h.slots ph hph _ (.inl rfl)
      have hzero : Mmu.directoryIndex ph.virtualAddrStart = 0 := by
        rw [Mmu.directoryIndex_eq]
        omega
      have hfirst := hk.shaped.first
      rw [hzero] at hslot
      rw [hslot] at hfirst
      cases hfirst⟩
  contents := h.contents ph hph
  size := h.size ph hph
  slot := by
    rintro _ ⟨j, hj, rfl⟩
    rw [← Mmu.directoryIndex_eq, pageSlots, List.mem_dedup, List.mem_flatMap]
    exact ⟨ph, hph, List.mem_map_of_mem (List.mem_range.mpr hj)⟩

/-- The load of such a file, and whose bytes are in memory then. -/
theorem Loadable.load (h : Loadable file k hdr segs) (hk : Settled k) (b : BootStack)
    (priveledge : ProcessPriveledgeLevel) (mem : Mem) :
    ∃ p k' mem', ElfExecutable.load file b priveledge k mem = .ok (p, k', mem') ∧
      ∀ v last, lastOn segs (v.toNat / 4096) = some last →
        ∃ x, (k'.mmu.pageMap p.pageDirectory).phys v = some x ∧
          some (mem' x) = if last.HasByte v then last.byteAt file v else some (mem x) := by
  obtain ⟨mmu, hcreate, hcreated⟩ := hk.shaped.createAddressSpace b h.directories
  have htables : mmu.nextPageTable + mmu.missing (.process k.mmu.nextDirectory) (pageSlots segs) ≤
      16 := by
    rw [hcreated.nextPageTable]
    exact Nat.le_trans (Nat.add_le_add_left List.countP_le_length _) h.tables
  have hready : Ready k.mmu.nextDirectory (pageSlots segs)
      (segs.map ProgramHeader.pageCount).sum ⟨mmu, k.frames, []⟩ :=
    ⟨hcreated.shaped, by rw [hcreated.nextDirectory]; exact Nat.lt_succ_self _, hk.null, h.frames,
      htables⟩
  have hnone : Laid file k.mmu.nextDirectory (pageSlots segs) mem [] segs (⟨mmu, k.frames, []⟩, mem) :=
    ⟨hready, fun _ _ hlast => (by cases hlast), fun _ _ _ hlast => (by cases hlast),
      fun _ _ => rfl, fun _ _ hlast => (by cases hlast)⟩
  obtain ⟨⟨l, mem'⟩, hloop, hlaid⟩ := hnone.loadSegments fun ph hph => h.sane hk hph
  rw [← foldlM_loadHeader h.segments] at hloop
  refine ⟨_, _, mem', bind_eq_ok.mpr ⟨_, hcreate, bind_eq_ok.mpr ⟨hdr, ?_,
    bind_eq_ok.mpr ⟨_, hloop, rfl⟩⟩⟩, hlaid.bytes⟩
  rw [h.header]
  rfl

/-- Loading a file builds the image it describes, whatever was in memory, exactly if no segment maps
a page on which an earlier one has a byte. -/
theorem image_iff {priveledge : ProcessPriveledgeLevel} {cs : List Call} (hb : k.Booted)
    (r : Run (System.Step b) ⟨k, []⟩ cs s) (h : Loadable file s.kernel hdr segs) :
    (∀ mem, LoadsImage b file priveledge s.kernel segs mem) ↔
      segs.Pairwise ProgramHeader.Apart := by
  have hk := settled hb r
  constructor
  · intro himage
    refine List.pairwise_iff_getElem.mpr fun i j hi hj hij v hv hpage => ?_
    -- with another byte everywhere beforehand, that byte would still be there
    obtain ⟨c, hc⟩ : ∃ c, segs[i].byteAt file v ≠ some c := by
      cases segs[i].byteAt file v with
      | none => exact ⟨0, by simp⟩
      | some c => exact ⟨c + 1, by simp⟩
    obtain ⟨p, k', mem', hload, hbytes⟩ := himage fun _ => c
    obtain ⟨p', k'', mem'', hload', hlast⟩ := h.load hk b priveledge fun _ => c
    cases hload.symm.trans hload'
    have hsplit : segs = segs.take j ++ segs[j] :: segs.drop (j + 1) := by simp
    obtain ⟨last, hmem, -, heq⟩ := lastOn_append_cons (segs.take j) (segs.drop (j + 1)) hpage
    rw [← hsplit] at heq
    have hdisjoint : ¬ last.HasByte v := by
      obtain ⟨m, hm, rfl⟩ : ∃ m, ∃ hm : j + m < segs.length, segs[j + m] = last := by
        rw [List.getElem_cons_drop, List.mem_iff_getElem] at hmem
        obtain ⟨m, hm, rfl⟩ := hmem
        rw [List.length_drop] at hm
        exact ⟨m, by omega, by rw [List.getElem_drop]⟩
      exact List.pairwise_iff_getElem.mp h.disjoint i (j + m) hi hm (by omega) v hv
    obtain ⟨x, hx, hmem'⟩ := hlast v last heq
    rw [if_neg hdisjoint] at hmem'
    have hbyte := hbytes _ (List.getElem_mem hi) v hv
    rw [byteV, hx, Option.map_some, hmem'] at hbyte
    exact hc hbyte.symm
  · intro hapart mem
    obtain ⟨p, k', mem', hload, hlast⟩ := h.load hk b priveledge mem
    refine ⟨p, k', mem', hload, fun ph hph v hv => ?_⟩
    obtain ⟨i, hi, rfl⟩ := List.getElem_of_mem hph
    have hsplit : segs = segs.take i ++ [segs[i]] ++ segs.drop (i + 1) := by simp
    have heq : lastOn (segs.take i ++ [segs[i]] ++ segs.drop (i + 1)) (v.toNat / 4096) =
        some segs[i] := by
      rw [lastOn_append fun ph hph => ?_, lastOn_concat,
        if_pos ((h.sane hk hph).fits.hasPage_of_hasByte hv)]
      obtain ⟨m, hm, rfl⟩ := List.getElem_of_mem hph
      rw [List.length_drop] at hm
      rw [List.getElem_drop]
      exact List.pairwise_iff_getElem.mp hapart i (i + 1 + m) hi (by omega) (by omega) v hv
    rw [← hsplit] at heq
    obtain ⟨x, hx, hbyte⟩ := hlast v _ heq
    rw [if_pos hv] at hbyte
    rw [byteV, hx, Option.map_some, hbyte]

/-! ### Two files -/

open RivOS.System (freshKernel booted_freshKernel bootStack)

/-- An executable with these segments, its contents after the headers. -/
def imageFile (phs : List ProgramHeader) (contents : List UInt8) : List UInt8 :=
  [0x7F, 0x45, 0x4C, 0x46, 1, 1, 1, 0, 0] ++ List.replicate 7 0 ++ [2, 0, 3, 0, 1, 0, 0, 0] ++
    toLE 4 0x08048000 ++ toLE 4 52 ++ List.replicate 10 0 ++ toLE 2 32 ++ toLE 2 phs.length ++
    List.replicate 6 0 ++
    phs.flatMap (fun ph => toLE 4 ProgramHeader.segmentTypeLoad ++ toLE 4 ph.contentsOffset ++
      toLE 4 ph.virtualAddrStart.toNat ++ List.replicate 4 0 ++ toLE 4 ph.segmentFilesize.toNat ++
      toLE 4 ph.memSize.toNat ++ List.replicate 8 0) ++ contents

def imageHeader (phs : List ProgramHeader) : ElfHeader32 where
  magic := ElfExecutable.elfMagic
  bitness := 1
  endianness := 1
  osAbi := 0
  abiVersion := 0
  type := 2
  instructionSet := 3
  version := 1
  programEntry := 0x08048000
  programHeaderTableOffset := 52
  programHeaderEntrySize := 32
  programHeaderTableSize := phs.length

/-- Above the kernel's heap, a fresh kernel has no tables. -/
theorem dirs_freshKernel_of_fits {used totalFrames : Nat} (h : ph.Fits)
    (hs : 0x02400000 ≤ ph.virtualAddrStart.toNat) (hv : v = ph.virtualAddrStart ∨ ph.HasByte v) :
    (freshKernel used totalFrames).mmu.dirs .kernel (Mmu.directoryIndex v) = none := by
  rw [h.hasByte_iff] at hv
  have hlow : ph.virtualAddrStart.toNat ≤ v.toNat := by
    rcases hv with rfl | hv
    · exact Nat.le_refl _
    · exact hv.1
  have hzero : v.toNat / 4096 / 1024 ≠ 0 := by omega
  have hheap : ¬ v.toNat / 4096 / 1024 ≤ 8 := by omega
  rw [Mmu.directoryIndex_eq]
  simp only [freshKernel, if_neg hzero, if_neg hheap]

/-- Two bytes of code and two zeros. -/
def codeSegment : ProgramHeader := ⟨84, 0x08048000, 2, 4⟩

theorem image_iff_code : LoadsImage bootStack ((imageFile [codeSegment] [0xEB, 0xFE])[·]?) .User
    (freshKernel 16 64) [codeSegment] fun _ => 0xCC := by
  have hload : Loadable ((imageFile [codeSegment] [0xEB, 0xFE])[·]?) (freshKernel 16 64)
      (imageHeader [codeSegment]) [codeSegment] :=
    { header := by rfl
      valid := by decide
      segments := by decide
      contents := by decide
      size := by decide
      nowrap := by decide
      disjoint := List.pairwise_singleton ..
      slots := fun ph hph v hv => by
        obtain rfl := List.mem_singleton.mp hph
        exact dirs_freshKernel_of_fits ⟨by decide, by decide⟩ (by decide) hv
      frames := by decide
      directories := by decide
      tables := by decide }
  exact (image_iff (booted_freshKernel (by decide)) .nil hload).mpr (List.pairwise_singleton ..) _

/-- A byte each, the second right after the first. -/
def firstSegment : ProgramHeader := ⟨116, 0x08048000, 1, 1⟩
def secondSegment : ProgramHeader := ⟨117, 0x08048001, 1, 1⟩

/-- Of two segments on one page the second maps the page anew, and the first is lost. -/
theorem image_fails : Loadable ((imageFile [firstSegment, secondSegment] [0x90, 0xF4])[·]?)
      (freshKernel 16 64) (imageHeader [firstSegment, secondSegment])
      [firstSegment, secondSegment] ∧
    ¬ LoadsImage bootStack ((imageFile [firstSegment, secondSegment] [0x90, 0xF4])[·]?) .User
      (freshKernel 16 64) [firstSegment, secondSegment] fun _ => 0 := by
  constructor
  · exact
      { header := by rfl
        valid := by decide
        segments := by decide
        contents := by decide
        size := by decide
        nowrap := by decide
        disjoint := by
          refine List.pairwise_pair.mpr fun v hv hv' => ?_
          rw [ProgramHeader.Fits.hasByte_iff ⟨by decide, by decide⟩] at hv hv'
          simp only [firstSegment, secondSegment] at hv hv'
          bv_omega
        slots := fun ph hph v hv => by
          rcases List.mem_pair.mp hph with rfl | rfl
          · exact dirs_freshKernel_of_fits ⟨by decide, by decide⟩ (by decide) hv
          · exact dirs_freshKernel_of_fits ⟨by decide, by decide⟩ (by decide) hv
        frames := by decide
        directories := by decide
        tables := by decide }
  · rintro ⟨p, k', mem', hload, hbytes⟩
    have hbyte := hbytes firstSegment (by simp) 0x08048000 (by decide)
    have hfinal : (ElfExecutable.load ((imageFile [firstSegment, secondSegment] [0x90, 0xF4])[·]?)
        bootStack .User (freshKernel 16 64) fun _ => 0).map (fun r =>
          byteV (r.2.1.mmu.pageMap r.1.pageDirectory) r.2.2 0x08048000) = .ok (some 0) := by
      decide +kernel
    rw [hload] at hfinal
    exact absurd ((Except.ok.inj hfinal).symm.trans hbyte) (by decide)

end RivOS
