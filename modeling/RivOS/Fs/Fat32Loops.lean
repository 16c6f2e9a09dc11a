import Mathlib.Data.Set.Finite.Basic
import RivOS.Fs.Fat32Lookup

/-!
# Fs — Directories whose clusters go round

`findDirEntryInDir` (`drivers/fs/FAT32/fat.hpp`) follows the links of the FAT with neither a counter
nor a set of the clusters it has been to, so it comes to its end only by an entry that answers, the
end marker of the directory, or the end mark of the chain.

* `Hangs`: a path enters a directory whose clusters go round before any of that.
* `open_terminates_iff`: `open` comes to its end exactly where the path enters no such directory;
  the root path, and a heap without room, keep it from entering any.
-/

namespace RivOS.Fat32

open BootSector

/-- The signature in the boot sector, at byte 66. -/
def BootSector.signature (disk : Disk) : Nat := numAt 1 66 (Storage.readSector disk 0)

/-- Whether the driver takes the disk, where the heap has given it a block for the boot sector. -/
def getPriority (disk : Disk) : Bool := signature disk = 0x28 || signature disk = 0x29

variable {d : Dialect} {disk : Disk} {c : Nat} {comp : List UInt8} {comps : List (List UInt8)}

/-- The path enters a directory in which the search for a component does not end. -/
inductive Hangs (d : Dialect) (disk : Disk) : Nat → List (List UInt8) → Prop
  | here {c : Nat} {comp fatName : List UInt8} {comps : List (List UInt8)} :
      ¬ 63 < comp.length → d.fatName comp = some fatName →
      GoesRound (fatEntry disk) EndMark (answer d.layout disk fatName) c →
      Hangs d disk c (comp :: comps)
  | down {c : Nat} {comp : List UInt8} {comps : List (List UInt8)} {e : DirEntry} :
      ¬ 63 < comp.length → Looks d disk c comp (some e) → comps ≠ [] → e.isDirectory = true →
      Hangs d disk (clusterOf e) comps → Hangs d disk c (comp :: comps)

/-- A link has 28 bits. -/
theorem range_fatEntry (disk : Disk) : (Set.range (fatEntry disk)).Finite := by
  refine (Set.finite_lt_nat (2 ^ 28)).subset ?_
  rintro _ ⟨c, rfl⟩
  exact Nat.and_lt_two_pow _ (by decide)

theorem finds_iff {l : Layout} {fatName : List UInt8} :
    (∃ r, Finds l disk fatName c r) ↔
      ¬ GoesRound (fatEntry disk) EndMark (answer l disk fatName) c :=
  visits_iff_not_goesRound (range_fatEntry disk)

/-- A path either leads to something or nothing, or hangs. -/
theorem leads_or_hangs (d : Dialect) (disk : Disk) (c : Nat) (comps : List (List UInt8)) :
    (∃ r, Leads d disk c comps r) ∨ Hangs d disk c comps := by
  induction comps generalizing c with
  | nil => exact .inl ⟨none, .nowhere⟩
  | cons comp comps ih =>
      by_cases hlen : 63 < comp.length
      · exact .inl ⟨none, .long hlen⟩
      cases hname : d.fatName comp with
      | none => exact .inl ⟨none, .missing hlen (.refused hname)⟩
      | some fatName =>
          by_cases hround : GoesRound (fatEntry disk) EndMark (answer d.layout disk fatName) c
          · exact .inr (.here hlen hname hround)
          obtain ⟨r, hr⟩ := finds_iff.mpr hround
          have hlook : Looks d disk c comp r := .search hname hr
          cases r with
          | none => exact .inl ⟨none, .missing hlen hlook⟩
          | some e =>
              by_cases hlast : comps = []
              · subst hlast
                exact .inl ⟨some e, .found hlen hlook⟩
              cases hdir : e.isDirectory with
              | false => exact .inl ⟨none, .file hlen hlook hlast hdir⟩
              | true =>
                  rcases ih (clusterOf e) with ⟨r, hr⟩ | h
                  · exact .inl ⟨r, .down hlen hlook hlast hdir hr⟩
                  · exact .inr (.down hlen hlook hlast hdir h)

/-- Where the search does not end the directory has neither an entry nor the lack of one. -/
theorem not_looks {fatName : List UInt8} {r : Option DirEntry} (hname : d.fatName comp = some fatName)
    (hround : GoesRound (fatEntry disk) EndMark (answer d.layout disk fatName) c) :
    ¬ Looks d disk c comp r := by
  intro h
  cases h with
  | refused hnone =>
      rw [hnone] at hname
      cases hname
  | search hname' hf =>
      obtain rfl := Option.some.inj (hname.symm.trans hname')
      exact finds_iff.mp ⟨r, hf⟩ hround

/-- But not both. -/
theorem Hangs.not_leads {r : Option DirEntry} (h : Hangs d disk c comps) :
    ¬ Leads d disk c comps r := by
  intro hl
  induction h generalizing r with
  | here hlen hname hround =>
      cases hl with
      | long hlong => exact hlen hlong
      | missing _ hlook | found _ hlook | file _ hlook | down _ hlook =>
          exact not_looks hname hround hlook
  | down hlen hlook hne hdir _ ih =>
      cases hl with
      | long hlong => exact hlen hlong
      | missing _ hnone => cases hlook.unique hnone
      | found => exact hne rfl
      | file _ hlook' _ hdir' =>
          cases hlook.unique hlook'
          simp [hdir] at hdir'
      | down _ hlook' _ _ hl =>
          cases hlook.unique hlook'
          exact ih hl

/-! ### `open` -/

section Kernel

variable {r : HeapRegion} {heap heap' : Mem} {fp : CStr} {flag : Bool} {fd : Buffer}

/-- `open` comes to its end, however many turns are allowed beyond some number. -/
def Opens (r : HeapRegion) (disk : Disk) (fp : CStr) (flag : Bool) (heap : Mem) : Prop :=
  ∃ turns, ∀ fuel ≥ turns, ∃ out,
    «open» (KernelAllocator.buffers r) disk fuel fp flag heap = .ok out

/-- The heap has room for the data of a file, and then for a cluster. -/
def Room (r : HeapRegion) (disk : Disk) (heap : Mem) : Prop :=
  (KernelAllocator.buffers r).HasRoom FileData.sizeof heap ∧
    (KernelAllocator.buffers r).HasRoom (bytesPerCluster disk)
      ((KernelAllocator.buffers r).alloc FileData.sizeof heap).2

instance : Decidable (Room r disk heap) := inferInstanceAs (Decidable (_ ∧ _))

theorem open_refused (h : ¬ (KernelAllocator.buffers r).HasRoom FileData.sizeof heap) :
    Opens r disk fp flag heap := by
  obtain ⟨t, ha⟩ := Allocator.refused h
  exact ⟨0, fun fuel _ => ⟨_, by rw [«open», ha]⟩⟩

theorem open_root (h : isRootPath fp.chars = true) : Opens r disk fp flag heap := by
  refine ⟨0, fun fuel _ => ?_⟩
  rw [«open»]
  split
  · exact ⟨_, rfl⟩
  · exact ⟨_, if_pos h⟩

/-- `open` of a path that is not the root ends with the walk of `resolvePath`. -/
theorem opens_iff_resolves (hroot : isRootPath fp.chars = false)
    (ha : (KernelAllocator.buffers r).alloc FileData.sizeof heap = (some fd, heap')) :
    Opens r disk fp flag heap ↔ ∃ turns, ∀ fuel ≥ turns, ∃ out,
      resolvePath (KernelAllocator.buffers r) disk fuel fp.chars heap' = .ok out := by
  refine exists_congr fun turns => forall₂_congr fun fuel _ => ?_
  rw [«open», ha]
  simp only [hroot, Bool.false_eq_true, if_false]
  constructor
  · rintro ⟨out, h⟩
    obtain ⟨res, hres, -⟩ := bind_eq_ok.mp h
    exact ⟨res, hres⟩
  · rintro ⟨⟨q, t⟩, hres⟩
    rw [hres, ok_bind]
    cases q <;> exact ⟨_, rfl⟩

/-- The data of a file is had from a heap that stays in order. -/
theorem alloc_inOrder (hheap : KernelAllocator.InOrder r heap)
    (ha : (KernelAllocator.buffers r).alloc FileData.sizeof heap = (some fd, heap')) :
    KernelAllocator.InOrder r heap' := by
  have hsmall : FileData.sizeof ≤ r.heapEnd - r.heapStart := by
    have := r.size
    rw [FileData.sizeof]
    omega
  have := (KernelAllocator.buffers_lawful r).keeps hheap hsmall
  rwa [ha] at this

theorem Hangs.not_opens (hheap : KernelAllocator.InOrder r heap) (hbps : bytesPerSector disk = 512)
    (hroot : isRootPath fp.chars = false) (hroom : Room r disk heap)
    (h : Hangs kernelDialect disk (rootDirClusterNum disk) (components fp.chars)) :
    ¬ Opens r disk fp flag heap := by
  obtain ⟨hfd, hcluster⟩ := hroom
  obtain ⟨fd, heap', ha⟩ := hfd.buffer
  rw [ha] at hcluster
  rw [opens_iff_resolves hroot ha]
  rintro ⟨turns, hres⟩
  obtain ⟨⟨q, heap''⟩, hres⟩ := hres turns (Nat.le_refl turns)
  have hstate := And.intro (alloc_inOrder hheap ha) hcluster
  exact h.not_leads ((buffers_serve r hbps).leads_of_resolve hstate hres).1

theorem opens_of_leads {q : Option DirEntry} (hheap : KernelAllocator.InOrder r heap)
    (hbps : bytesPerSector disk = 512)
    (hq : Leads kernelDialect disk (rootDirClusterNum disk) (components fp.chars) q) :
    Opens r disk fp flag heap := by
  by_cases hroot : isRootPath fp.chars = true
  · exact open_root hroot
  by_cases hfd : (KernelAllocator.buffers r).HasRoom FileData.sizeof heap
  · obtain ⟨fd, heap', ha⟩ := hfd.buffer
    rw [opens_iff_resolves (by simpa using hroot) ha]
    by_cases hcluster : (KernelAllocator.buffers r).HasRoom (bytesPerCluster disk) heap'
    · obtain ⟨turns, h⟩ := resolvePath_of_leads (alloc_inOrder hheap ha) hbps hcluster hq
      refine ⟨turns, fun fuel hf => ?_⟩
      obtain ⟨heap'', hres⟩ := h fuel hf
      exact ⟨(q, heap''), hres⟩
    · refine ⟨0, fun fuel _ => ?_⟩
      obtain ⟨heap'', hres⟩ := resolvePath_refused hcluster fuel fp.chars
      exact ⟨(none, heap''), hres⟩
  · exact open_refused hfd

/-- Without room for a cluster no directory is read. -/
theorem opens_of_no_room (h : ¬ Room r disk heap) : Opens r disk fp flag heap := by
  by_cases hroot : isRootPath fp.chars = true
  · exact open_root hroot
  by_cases hfd : (KernelAllocator.buffers r).HasRoom FileData.sizeof heap
  · obtain ⟨fd, heap', ha⟩ := hfd.buffer
    rw [opens_iff_resolves (by simpa using hroot) ha]
    refine ⟨0, fun fuel _ => ?_⟩
    have hcluster : ¬ (KernelAllocator.buffers r).HasRoom (bytesPerCluster disk) heap' :=
      fun hc => h ⟨hfd, by rw [ha]; exact hc⟩
    obtain ⟨heap'', hres⟩ := resolvePath_refused hcluster fuel fp.chars
    exact ⟨(none, heap''), hres⟩
  · exact open_refused hfd

/-- **When `open` comes to its end**: it enters no directory whose clusters go round. -/
theorem open_terminates_iff (hheap : KernelAllocator.InOrder r heap)
    (hbps : bytesPerSector disk = 512) (fp : CStr) (flag : Bool) :
    Opens r disk fp flag heap ↔
      ¬ (isRootPath fp.chars = false ∧ Room r disk heap ∧
        Hangs kernelDialect disk (rootDirClusterNum disk) (components fp.chars)) := by
  constructor
  · rintro hopens ⟨hroot, hroom, hhangs⟩
    exact hhangs.not_opens hheap hbps hroot hroom hopens
  · intro h
    by_cases hroot : isRootPath fp.chars = true
    · exact open_root hroot
    by_cases hroom : Room r disk heap
    · rcases leads_or_hangs kernelDialect disk (rootDirClusterNum disk) (components fp.chars) with
        ⟨q, hq⟩ | hhangs
      · exact opens_of_leads hheap hbps hq
      · exact absurd ⟨by simpa using hroot, hroom, hhangs⟩ h
    · exact opens_of_no_room hroom

/-! ### A root directory that goes round -/

/-- The root directory is cluster 2, full of deleted entries, and its link names it again. -/
def roundDisk : Disk :=
  diskOf (smallBoot ++ [(0, 66, [0x29]), (1, 8, [2]), (2, 0, List.replicate 512 0xE5)])

theorem roundDisk_accepted : getPriority roundDisk = true ∧ bytesPerSector roundDisk = 512 ∧
    sectorsPerCluster roundDisk = 1 ∧ rootDirClusterNum roundDisk = 2 :=
  ⟨by decide +kernel, by decide +kernel, by decide +kernel, by decide +kernel⟩

/-- `/A` hangs. -/
theorem roundDisk_hangs : Hangs kernelDialect roundDisk (rootDirClusterNum roundDisk)
    (components (CStr.lit ['/', 'A']).chars) := by
  have hcomp : components (CStr.lit ['/', 'A']).chars = [ascii ['A']] := by decide
  have hlink : fatEntry roundDisk 2 = 2 := by decide +kernel
  have hquiet : answer layout roundDisk (field 8 (ascii ['A']) ++ field 3 []) 2 = none := by
    decide +kernel
  rw [roundDisk_accepted.2.2.2, hcomp]
  have hname : makeFatName (ascii ['A']) = some (field 8 (ascii ['A']) ++ field 3 []) := by decide
  refine .here (by decide) hname ?_
  refine ⟨0, 1, Nat.one_pos, hlink.symm, fun k hk => ?_⟩
  obtain rfl : k = 0 := by omega
  exact ⟨hquiet, by rw [Function.iterate_zero_apply, hlink]; decide⟩

/-- `/` is opened. -/
theorem open_terminates_root :
    Opens KernelAllocator.smallImage roundDisk (.lit ['/']) false
      (KernelAllocator.init KernelAllocator.smallImage fun _ => 0) :=
  (open_terminates_iff ⟨_, init_heap fun _ => 0⟩ roundDisk_accepted.2.1 _ _).mpr
    fun h => absurd h.1 (by decide)

/-- `/A` is not. -/
theorem open_goes_round :
    ¬ ∀ (r : HeapRegion) (disk : Disk) (heap : Mem) (fp : CStr) (flag : Bool),
      KernelAllocator.InOrder r heap → getPriority disk = true → bytesPerSector disk = 512 →
      1 ≤ sectorsPerCluster disk → Opens r disk fp flag heap := by
  intro h
  obtain ⟨hacc, hbps, hspc, -⟩ := roundDisk_accepted
  have hheap : KernelAllocator.InOrder KernelAllocator.smallImage
      (KernelAllocator.init KernelAllocator.smallImage fun _ => 0) :=
    ⟨_, init_heap fun _ => 0⟩
  have hroom : Room KernelAllocator.smallImage roundDisk
      (KernelAllocator.init KernelAllocator.smallImage fun _ => 0) := by decide +kernel
  exact roundDisk_hangs.not_opens hheap hbps (by decide) hroom
    (h _ roundDisk _ (.lit ['/', 'A']) false hheap hacc hbps (by rw [hspc]))

end Kernel

end RivOS.Fat32
