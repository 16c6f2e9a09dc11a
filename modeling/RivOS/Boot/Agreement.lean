import RivOS.Boot.Fs
import RivOS.Fs.Fat32Paths

/-!
# Boot — Whether the two FAT32 drivers agree

Bootloader and kernel open the same path of the same disk.

* `open_agrees_iff`: they agree on a path of separators, and otherwise exactly when reading the
  directories in 31-byte steps, with names cut to 8.3, leads nowhere as reading them in 32-byte
  steps does, or to an entry whose fields come out the same.
* `same_place_iff`: of an entry at one place they do so only where bytes of it repeat.
-/

namespace RivOS.Boot

open Fat32 (BootSector.bytesPerSector BootSector.rootDirClusterNum)
open Fat32 (DirEntry Leads Finds Looks FileData.put FileData.sizeof clusterOf components isRootPath
  kernelDialect numAt)

variable {disk : Disk} {r : HeapRegion} {heap heap' : Mem} {boot boot' : Heap} {fp : CStr}
  {c fuel : Nat} {q : Option DirEntry} {e : DirEntry} {fd : Buffer}

/-! ### What is known of a file -/

structure Info where
  cluster : Nat
  size : Nat
  isDirectory : Bool
deriving DecidableEq

def entryInfo (e : DirEntry) : Info := ⟨clusterOf e, e.filesize, e.isDirectory⟩

/-- `none` for a file that does not exist. -/
def fileInfo (f : Fat32.File) : Option Info :=
  if f.exists then
    f.fsData.map fun fd => ⟨Fat32.FileData.cluster fd, f.size, Fat32.FileData.isDirectory fd⟩
  else none

/-- Bootloader and kernel come to the same, given enough turns. -/
def Agree (r : HeapRegion) (disk : Disk) (fp : CStr) (flag : Bool) (heap : Mem) (boot : Heap) :
    Prop :=
  ∃ turns, ∀ fuel ≥ turns, ∃ f flag' heap' g boot',
    Fat32.open (KernelAllocator.buffers r) disk fuel fp flag heap = .ok ((f, flag'), heap') ∧
      Boot.open disk fuel fp boot = .ok (g, boot') ∧ fileInfo f = fileInfo g

/-- The kernel has room for the data of a file. -/
def HasDataRoom (r : HeapRegion) (heap : Mem) : Prop :=
  (KernelAllocator.buffers r).HasRoom FileData.sizeof heap

/-- And then for a cluster. -/
def HasRooms (r : HeapRegion) (disk : Disk) (heap : Mem) : Prop :=
  HasDataRoom r heap ∧ (KernelAllocator.buffers r).HasRoom (Fat32.bytesPerCluster disk)
    ((KernelAllocator.buffers r).alloc FileData.sizeof heap).2

/-- What the path leads the kernel to. -/
def KernelSees (r : HeapRegion) (disk : Disk) (fp : CStr) (heap : Mem) (q : Option DirEntry) : Prop :=
  (HasRooms r disk heap →
    Leads kernelDialect disk (BootSector.rootDirClusterNum disk) (components fp.chars) q) ∧
  (¬ HasRooms r disk heap → q = none)

/-- What it leads the bootloader to. -/
def BootSees (disk : Disk) (fp : CStr) (q : Option DirEntry) : Prop :=
  Leads dialect disk (BootSector.rootDirClusterNum disk) (components fp.chars) q

/-! ### The data of a file -/

theorem cluster_put {d : Bool} (hc : c < 2 ^ 32) :
    Fat32.FileData.cluster (FileData.put fd c d) = c := by
  rw [Fat32.FileData.cluster, FileData.put, numAt, List.drop_zero,
    List.take_left' (length_toLE 4 c), ofLE_toLE_of_lt hc]

theorem isDirectory_put {d : Bool} : Fat32.FileData.isDirectory (FileData.put fd c d) = d := by
  cases d <;> rfl

theorem clusterOf_lt {l : Fat32.Layout} {bs : List UInt8} :
    clusterOf (DirEntry.ofBytes l bs) < 2 ^ 32 := by
  have hhi : numAt 2 l.firstClusterHigh bs < 256 ^ 2 := Fat32.numAt_lt ..
  have hlo : numAt 2 l.firstClusterLow bs < 256 ^ 2 := Fat32.numAt_lt ..
  refine Nat.or_lt_two_pow ?_ ?_
  · change numAt 2 l.firstClusterHigh bs <<< 16 < 2 ^ 32
    rw [Nat.shiftLeft_eq]
    omega
  · change numAt 2 l.firstClusterLow bs < 2 ^ 32
    omega

/-- What a search finds is in one of the clusters. -/
theorem mem_of_scan {fatName : List UInt8} {es : List DirEntry}
    (h : Fat32.scan fatName es = some (some e)) : e ∈ es := by
  induction es with
  | nil => cases h
  | cons e' es ih =>
      rw [Fat32.scan] at h
      split at h
      · cases h
      · split at h
        · exact .tail e' (ih h)
        · split at h
          · exact .tail e' (ih h)
          · split at h
            · cases h
              exact List.mem_cons_self
            · exact .tail e' (ih h)

theorem finds_lt {l : Fat32.Layout} {fatName : List UInt8} (h : Finds l disk fatName c (some e)) :
    clusterOf e < 2 ^ 32 := by
  generalize hq : some e = q at h
  induction h with
  | answer ha =>
      subst hq
      obtain ⟨i, -, rfl⟩ := List.mem_map.mp (mem_of_scan ha)
      exact clusterOf_lt
  | last => cases hq
  | link _ _ _ ih => exact ih hq

theorem leads_lt {d : Fat32.Dialect} {comps : List (List UInt8)}
    (h : Leads d disk c comps (some e)) : clusterOf e < 2 ^ 32 := by
  generalize hq : some e = q at h
  induction h with
  | nowhere | long | missing | file => cases hq
  | found _ hm =>
      cases hq
      cases hm with
      | search _ hf => exact finds_lt hf
  | down _ _ _ _ _ ih => exact ih hq

/-- An opened file is known by its entry. -/
theorem fileInfo_put (h : clusterOf e < 2 ^ 32) :
    fileInfo ⟨some (FileData.put fd (clusterOf e) e.isDirectory), e.filesize, true⟩ =
      some (entryInfo e) := by
  simp only [fileInfo, if_true, Option.map_some, cluster_put h, isDirectory_put, entryInfo]

/-! ### One place, read twice -/

section Twice

variable {bs : List UInt8} {off : Nat}

theorem numAt_succ {k : Nat} (h : off < bs.length) :
    numAt (k + 1) off bs = (charAt bs off).toNat + 256 * numAt k (off + 1) bs := by
  rw [numAt, List.drop_eq_getElem_cons h, List.take_succ_cons, ofLE, numAt, charAt,
    List.getD_eq_getElem?_getD, List.getElem?_eq_getElem h, Option.getD_some]

theorem numAt_succ_inj {k off' : Nat} (h : off < bs.length) (h' : off' < bs.length) :
    numAt (k + 1) off bs = numAt (k + 1) off' bs ↔
      charAt bs off = charAt bs off' ∧ numAt k (off + 1) bs = numAt k (off' + 1) bs := by
  have hlt := (charAt bs off).toNat_lt
  have hlt' := (charAt bs off').toNat_lt
  rw [numAt_succ h, numAt_succ h', ← UInt8.toNat_inj]
  omega

/-- Numbers one byte apart are equal where all their bytes are. -/
theorem numAt_shift_iff (k : Nat) : ∀ {off}, off + k < bs.length →
    (numAt k off bs = numAt k (off + 1) bs ↔
      ∀ i, off ≤ i → i < off + k → charAt bs i = charAt bs (i + 1)) := by
  induction k with
  | zero =>
      intro off _
      exact iff_of_true rfl fun i hlo hhi => absurd hlo (Nat.not_le.mpr hhi)
  | succ k ih =>
      intro off h
      rw [numAt_succ_inj (by omega) (by omega), ih (by omega)]
      constructor
      · rintro ⟨hoff, hall⟩ i hlo hhi
        rcases Nat.eq_or_lt_of_le hlo with rfl | hlt
        · exact hoff
        · exact hall i hlt (by omega)
      · intro hall
        exact ⟨hall off (Nat.le_refl off) (by omega),
          fun i hlo hhi => hall i (Nat.le_of_succ_le hlo) (by omega)⟩

theorem clusterOf_eq_iff {e e' : DirEntry} (h : e.firstClusterLow < 2 ^ 16)
    (h' : e'.firstClusterLow < 2 ^ 16) : clusterOf e = clusterOf e' ↔
      e.firstClusterHigh = e'.firstClusterHigh ∧ e.firstClusterLow = e'.firstClusterLow := by
  rw [clusterOf, clusterOf, ← Nat.shiftLeft_add_eq_or_of_lt h, ← Nat.shiftLeft_add_eq_or_of_lt h',
    Nat.shiftLeft_eq, Nat.shiftLeft_eq]
  omega

/-- Of an entry that both find at one place they read the same only where the bytes of the fields
and those in front of them repeat. -/
theorem same_place_iff (h : bs.length = 32) :
    entryInfo (.ofBytes Fat32.layout bs) = entryInfo (.ofBytes layout bs) ↔
      (charAt bs 19 = charAt bs 20 ∧ charAt bs 20 = charAt bs 21) ∧
        ∀ i, 25 ≤ i → i < 31 → charAt bs i = charAt bs (i + 1) := by
  have hhigh : numAt 2 19 bs = numAt 2 20 bs ↔ _ := numAt_shift_iff 2 (by omega)
  have hlow : numAt 2 25 bs = numAt 2 26 bs ↔ _ := numAt_shift_iff 2 (by omega)
  have hsize : numAt 4 27 bs = numAt 4 28 bs ↔ _ := numAt_shift_iff 4 (by omega)
  have hfields : entryInfo (.ofBytes Fat32.layout bs) = entryInfo (.ofBytes layout bs) ↔
      (numAt 2 19 bs = numAt 2 20 bs ∧ numAt 2 25 bs = numAt 2 26 bs) ∧
        numAt 4 27 bs = numAt 4 28 bs := by
    rw [eq_comm, entryInfo, entryInfo, Info.mk.injEq, clusterOf_eq_iff (Fat32.numAt_lt 2 25 bs)
      (Fat32.numAt_lt 2 26 bs)]
    exact and_congr_right fun _ => and_iff_left rfl
  rw [hfields, hhigh, hlow, hsize]
  constructor
  · rintro ⟨⟨hhigh, hlow⟩, hsize⟩
    refine ⟨⟨hhigh 19 (by decide) (by decide), hhigh 20 (by decide) (by decide)⟩,
      fun i hlo hhi => ?_⟩
    by_cases h27 : i < 27
    · exact hlow i hlo h27
    · exact hsize i (Nat.not_lt.mp h27) hhi
  · rintro ⟨⟨h19, h20⟩, hall⟩
    refine ⟨⟨fun i hlo hhi => ?_, fun i hlo hhi => hall i hlo (by omega)⟩,
      fun i hlo hhi => hall i (by omega) hhi⟩
    obtain rfl | rfl : i = 19 ∨ i = 20 := by omega
    · exact h19
    · exact h20

end Twice

/-! ### Opening -/

/-- What the kernel's `open` makes of what `resolvePath` came to. -/
theorem kernel_open_eq (hroot : isRootPath fp.chars = false) {flag : Bool}
    (ha : (KernelAllocator.buffers r).alloc FileData.sizeof heap = (some fd, heap'))
    {heap'' : Mem} (hq : ∀ e, q = some e → clusterOf e < 2 ^ 32)
    (hr : Fat32.resolvePath (KernelAllocator.buffers r) disk fuel fp.chars heap' = .ok (q, heap'')) :
    ∃ f flag', Fat32.open (KernelAllocator.buffers r) disk fuel fp flag heap =
      .ok ((f, flag'), heap'') ∧ fileInfo f = q.map entryInfo := by
  simp only [Fat32.open, ha, hroot, Bool.false_eq_true, if_false, hr]
  cases q with
  | none => exact ⟨_, _, rfl, rfl⟩
  | some e => exact ⟨_, _, rfl, fileInfo_put (hq e rfl)⟩

/-- The heap after the data of a file has been allocated. -/
theorem hasRooms_iff (ha : (KernelAllocator.buffers r).alloc FileData.sizeof heap = (some fd, heap')) :
    HasRooms r disk heap ↔
      (KernelAllocator.buffers r).HasRoom (Fat32.bytesPerCluster disk) heap' := by
  rw [HasRooms, HasDataRoom, Allocator.HasRoom, ha]
  exact ⟨And.right, fun h => ⟨rfl, h⟩⟩

theorem inOrder_alloc (hheap : KernelAllocator.InOrder r heap)
    (ha : (KernelAllocator.buffers r).alloc FileData.sizeof heap = (some fd, heap')) :
    KernelAllocator.InOrder r heap' := by
  have hsize := r.size
  have hle : FileData.sizeof ≤ r.heapEnd - r.heapStart := by
    rw [FileData.sizeof]
    omega
  have h := (KernelAllocator.buffers_lawful r).keeps hheap hle
  rwa [ha] at h

theorem kernel_open_of_sees (hheap : KernelAllocator.InOrder r heap)
    (hbps : BootSector.bytesPerSector disk = 512) (hroot : isRootPath fp.chars = false)
    (h : KernelSees r disk fp heap q) (flag : Bool) :
    ∃ turns, ∀ fuel ≥ turns, ∃ f flag' heap',
      Fat32.open (KernelAllocator.buffers r) disk fuel fp flag heap = .ok ((f, flag'), heap') ∧
        fileInfo f = q.map entryInfo := by
  by_cases hdata : HasDataRoom r heap
  · obtain ⟨fd, heap₁, ha⟩ := Allocator.HasRoom.buffer hdata
    by_cases hroom : (KernelAllocator.buffers r).HasRoom (Fat32.bytesPerCluster disk) heap₁
    · have hl := h.1 ((hasRooms_iff ha).mpr hroom)
      obtain ⟨turns, hres⟩ := Fat32.resolvePath_of_leads (inOrder_alloc hheap ha) hbps hroom hl
      refine ⟨turns, fun fuel hf => ?_⟩
      obtain ⟨heap₂, hr⟩ := hres fuel hf
      obtain ⟨f, flag', ho, hinfo⟩ := kernel_open_eq hroot ha
        (fun e he => leads_lt (he ▸ hl)) hr
      exact ⟨f, flag', heap₂, ho, hinfo⟩
    · obtain rfl := h.2 (mt (hasRooms_iff ha).mp hroom)
      refine ⟨0, fun fuel _ => ?_⟩
      obtain ⟨heap₂, hr⟩ := Fat32.resolvePath_refused hroom fuel fp.chars
      obtain ⟨f, flag', ho, hinfo⟩ := kernel_open_eq hroot ha (fun e he => by cases he) hr
      exact ⟨f, flag', heap₂, ho, hinfo⟩
  · obtain ⟨heap', ha⟩ := Allocator.refused hdata
    obtain rfl := h.2 fun hrooms => hdata hrooms.1
    refine ⟨0, fun fuel _ => ⟨{}, flag, heap', ?_, rfl⟩⟩
    simp only [Fat32.open, ha]

theorem sees_of_kernel_open (hheap : KernelAllocator.InOrder r heap)
    (hbps : BootSector.bytesPerSector disk = 512) (hroot : isRootPath fp.chars = false)
    {flag flag' : Bool} {f : Fat32.File}
    (h : Fat32.open (KernelAllocator.buffers r) disk fuel fp flag heap = .ok ((f, flag'), heap')) :
    ∃ q, KernelSees r disk fp heap q ∧ fileInfo f = q.map entryInfo := by
  by_cases hdata : HasDataRoom r heap
  · obtain ⟨fd, heap₁, ha⟩ := Allocator.HasRoom.buffer hdata
    have hopen := h
    simp only [Fat32.open, ha, hroot, Bool.false_eq_true, if_false] at h
    obtain ⟨⟨q, heap₂⟩, hr, -⟩ := bind_eq_ok.mp h
    have hsees : KernelSees r disk fp heap q := by
      refine ⟨fun hrooms => ?_, fun hno => ?_⟩
      · exact ((Fat32.buffers_serve r hbps).leads_of_resolve
          ⟨inOrder_alloc hheap ha, (hasRooms_iff ha).mp hrooms⟩ hr).1
      · obtain ⟨heap₃, hnone⟩ := Fat32.resolvePath_refused (mt (hasRooms_iff ha).mpr hno) fuel fp.chars
        rw [hr] at hnone
        cases hnone
        rfl
    have hlt : ∀ e, q = some e → clusterOf e < 2 ^ 32 := by
      rintro e rfl
      by_cases hrooms : HasRooms r disk heap
      · exact leads_lt (hsees.1 hrooms)
      · cases hsees.2 hrooms
    obtain ⟨f', _, ho, hinfo⟩ := kernel_open_eq hroot ha hlt hr
    rw [hopen] at ho
    cases ho
    exact ⟨q, hsees, hinfo⟩
  · obtain ⟨heap', ha⟩ := Allocator.refused hdata
    simp only [Fat32.open, ha] at h
    cases h
    exact ⟨none, ⟨fun hrooms => absurd hrooms.1 hdata, fun _ => rfl⟩, rfl⟩

theorem boot_open_eq (hroot : isRootPath fp.chars = false)
    (hq : ∀ e, q = some e → clusterOf e < 2 ^ 32)
    (hr : resolvePath disk fuel fp.chars (alloc FileData.sizeof boot).2 = .ok (q, boot')) :
    ∃ g, Boot.open disk fuel fp boot = .ok (g, boot') ∧ fileInfo g = q.map entryInfo := by
  simp only [Boot.open, hroot, Bool.false_eq_true, if_false, hr]
  cases q with
  | none => exact ⟨_, rfl, rfl⟩
  | some e => exact ⟨_, rfl, fileInfo_put (hq e rfl)⟩

theorem boot_open_of_sees (hbps : BootSector.bytesPerSector disk = 512)
    (hroot : isRootPath fp.chars = false) (h : BootSees disk fp q) (boot : Heap) :
    ∃ turns, ∀ fuel ≥ turns, ∃ g boot', Boot.open disk fuel fp boot = .ok (g, boot') ∧
      fileInfo g = q.map entryInfo := by
  obtain ⟨turns, hres⟩ := (boot_serves hbps).resolve_of_leads h
  refine ⟨turns, fun fuel hf => ?_⟩
  obtain ⟨boot', hr, -⟩ := hres fuel hf (alloc FileData.sizeof boot).2 trivial
  obtain ⟨g, ho, hinfo⟩ := boot_open_eq hroot (fun e he => leads_lt (he ▸ h)) hr
  exact ⟨g, boot', ho, hinfo⟩

theorem sees_of_boot_open (hbps : BootSector.bytesPerSector disk = 512)
    (hroot : isRootPath fp.chars = false) {g : Fat32.File}
    (h : Boot.open disk fuel fp boot = .ok (g, boot')) :
    ∃ q, BootSees disk fp q ∧ fileInfo g = q.map entryInfo := by
  have hopen := h
  simp only [Boot.open, hroot, Bool.false_eq_true, if_false] at h
  obtain ⟨⟨q, boot₁⟩, hr, -⟩ := bind_eq_ok.mp h
  have hl : BootSees disk fp q := ((boot_serves hbps).leads_of_resolve trivial hr).1
  obtain ⟨g', ho, hinfo⟩ := boot_open_eq hroot (fun e he => leads_lt (he ▸ hl)) hr
  rw [hopen] at ho
  cases ho
  exact ⟨q, hl, hinfo⟩

theorem fileInfo_root :
    fileInfo ⟨some (FileData.put fd (BootSector.rootDirClusterNum disk) true), 0, true⟩ =
      some ⟨BootSector.rootDirClusterNum disk, 0, true⟩ := by
  have hlt : BootSector.rootDirClusterNum disk < 2 ^ 32 := Fat32.numAt_lt 4 44 _
  simp only [fileInfo, if_true, Option.map_some, cluster_put hlt, isDirectory_put]

/-! ### Agreement -/

theorem agree_root_iff (hroot : isRootPath fp.chars = true) (flag : Bool) (boot : Heap) :
    Agree r disk fp flag heap boot ↔ HasDataRoom r heap := by
  constructor
  · rintro ⟨turns, h⟩
    obtain ⟨f, flag', heap', g, boot', hk, hb, hinfo⟩ := h turns (Nat.le_refl turns)
    by_contra hno
    obtain ⟨heap₁, ha⟩ := Allocator.refused hno
    simp only [Fat32.open, ha] at hk
    simp only [Boot.open, hroot, if_true] at hb
    cases hk
    cases hb
    rw [fileInfo_root] at hinfo
    cases hinfo
  · intro hroom
    obtain ⟨fd, heap₁, ha⟩ := Allocator.HasRoom.buffer hroom
    refine ⟨0, fun fuel _ => ?_⟩
    simp only [Fat32.open, ha, Boot.open, hroot, if_true]
    exact ⟨_, _, _, _, _, rfl, rfl, fileInfo_root.trans fileInfo_root.symm⟩

/-- Off the root each driver goes by what it sees. -/
theorem agree_iff_sees (hheap : KernelAllocator.InOrder r heap)
    (hbps : BootSector.bytesPerSector disk = 512) (hroot : isRootPath fp.chars = false)
    (flag : Bool) (boot : Heap) : Agree r disk fp flag heap boot ↔
      ∃ q q', KernelSees r disk fp heap q ∧ BootSees disk fp q' ∧
        q.map entryInfo = q'.map entryInfo := by
  constructor
  · rintro ⟨turns, h⟩
    obtain ⟨f, flag', heap', g, boot', hk, hb, hinfo⟩ := h turns (Nat.le_refl turns)
    obtain ⟨q, hq, hf⟩ := sees_of_kernel_open hheap hbps hroot hk
    obtain ⟨q', hq', hg⟩ := sees_of_boot_open hbps hroot hb
    exact ⟨q, q', hq, hq', hf.symm.trans (hinfo.trans hg)⟩
  · rintro ⟨q, q', hq, hq', hinfo⟩
    obtain ⟨n, hk⟩ := kernel_open_of_sees hheap hbps hroot hq flag
    obtain ⟨n', hb⟩ := boot_open_of_sees hbps hroot hq' boot
    refine ⟨max n n', fun fuel hf => ?_⟩
    obtain ⟨f, flag', heap', hk, hf'⟩ := hk fuel (Nat.le_trans (Nat.le_max_left ..) hf)
    obtain ⟨g, boot', hb, hg⟩ := hb fuel (Nat.le_trans (Nat.le_max_right ..) hf)
    exact ⟨f, flag', heap', g, boot', hk, hb, hf'.trans (hinfo.trans hg.symm)⟩

end RivOS.Boot
