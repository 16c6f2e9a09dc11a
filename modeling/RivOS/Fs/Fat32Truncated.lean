import RivOS.Fs.Fat32Loops
import RivOS.Fs.Fat32Read

/-!
# Fs — Files whose clusters end early

`Fat32::read` (`drivers/fs/FAT32/fat.hpp`) leaves its loop when everything is stored and also when the
chain is at its end, and says in both cases that it has succeeded.

* `turns_stores`: what the loop stores, whether the clusters come to an end or go round.
* `read_reports_iff`: a `Sucess` of `read` means that everything is stored exactly where the chain of
  the file does not end before.
-/

namespace RivOS.Fat32

open BootSector
open FileSystemDriver (SuccessCodes)

variable {disk : Disk} {c n obuf : Nat}

/-- The chain that begins at `c` has an end, and fewer than `n` bytes. -/
def EndsBefore (disk : Disk) (c n : Nat) : Prop :=
  ∃ cs, ClusterChain disk c cs ∧ cs.length * bytesPerCluster disk < n

theorem endsBefore_iff : EndsBefore disk c n ↔ bytesPerCluster disk < n ∧
    (EndMark (fatEntry disk c) ∨ EndsBefore disk (fatEntry disk c) (n - bytesPerCluster disk)) := by
  constructor
  · rintro ⟨cs, h, hlen⟩
    cases h with
    | last hend => exact ⟨by simpa using hlen, .inl hend⟩
    | @link c cs hend h =>
        rw [List.length_cons, Nat.succ_mul] at hlen
        exact ⟨by omega, .inr ⟨cs, h, by omega⟩⟩
  · rintro ⟨hlt, h⟩
    by_cases hend : EndMark (fatEntry disk c)
    · exact ⟨[c], .last hend, by simpa using hlt⟩
    · obtain ⟨cs, h, hlen⟩ := h.resolve_left hend
      refine ⟨c :: cs, .link hend h, ?_⟩
      rw [List.length_cons, Nat.succ_mul]
      omega

/-- What the loop stores from `c` on with `n` bytes to go: all of them, or as many as there are. -/
theorem turns_stores (hbps : bytesPerSector disk = 512) (hspc : 1 ≤ sectorsPerCluster disk)
    (c n : Nat) : ∃ bs : List UInt8, bs.length ≤ n ∧ (bs.length = n ↔ ¬ EndsBefore disk c n) ∧
      ∀ (t : Reading) (fuel obuf : Nat), t.currentCluster = c →
        t.clusterBuf.length = bytesPerCluster disk → t.bytesRemaining = n → n < fuel →
        ∃ t', turns (readTurn disk obuf) .running fuel t = .ok t' ∧
          t'.obuf = store t.obuf (obuf + t.bytesWritten) bs := by
  have hpos : 0 < bytesPerCluster disk := by
    rw [bytesPerCluster, hbps]
    omega
  have hlen (c : Nat) : (clusterData disk c).length = bytesPerCluster disk := length_clusterData hbps
  induction n using Nat.strongRecOn generalizing c with
  | ind n ih =>
      rw [endsBefore_iff]
      by_cases h0 : n = 0
      · subst h0
        refine ⟨[], Nat.le_refl 0, by simp, ?_⟩
        rintro t fuel obuf - - hrem hf
        obtain ⟨fuel, rfl⟩ : ∃ k, fuel = k + 1 := ⟨fuel - 1, by omega⟩
        exact ⟨t, by rw [turns, readTurn, if_pos hrem]; rfl, rfl⟩
      by_cases hlast : n ≤ bytesPerCluster disk ∨ EndMark (fatEntry disk c)
      · -- the last cluster that is read
        refine ⟨(clusterData disk c).take n, List.length_take_le _ _, ?_, ?_⟩
        · rw [List.length_take, hlen]
          constructor
          · rintro h ⟨hlt, -⟩
            omega
          · intro h
            have : ¬ bytesPerCluster disk < n := fun hlt =>
              h ⟨hlt, .inl (hlast.resolve_left (Nat.not_le.mpr hlt))⟩
            omega
        · rintro t fuel obuf rfl hbuf rfl hf
          obtain ⟨fuel, rfl⟩ : ∃ k, fuel = k + 1 := ⟨fuel - 1, by omega⟩
          exact ⟨t.stored disk obuf, by rw [turns, readTurn_eq hbps hbuf h0, if_pos hlast]; rfl, rfl⟩
      · obtain ⟨hlt, hend⟩ := not_or.mp hlast
        have hlt := Nat.not_le.mp hlt
        obtain ⟨bs, hle, hall, hloop⟩ :=
          ih (n - bytesPerCluster disk) (Nat.sub_lt (Nat.pos_of_ne_zero h0) hpos) (fatEntry disk c)
        refine ⟨clusterData disk c ++ bs, ?_, ?_, ?_⟩
        · rw [List.length_append, hlen]
          omega
        · rw [List.length_append, hlen]
          constructor
          · rintro h ⟨-, hmark | hshort⟩
            · exact hend hmark
            · exact hall.mp (by omega) hshort
          · intro h
            have := hall.mpr fun hshort => h ⟨hlt, .inr hshort⟩
            omega
        · rintro t fuel obuf rfl hbuf rfl hf
          obtain ⟨fuel, rfl⟩ : ∃ k, fuel = k + 1 := ⟨fuel - 1, by omega⟩
          obtain ⟨t', ht, hobuf⟩ := hloop { t.stored disk obuf with
            currentCluster := fatEntry disk t.currentCluster } fuel obuf rfl
            (by simp only [Reading.stored, hlen]) rfl (by omega)
          refine ⟨t', ?_, hobuf.trans ?_⟩
          · rw [turns, readTurn_eq hbps hbuf h0, if_neg hlast, ok_bind, Sum.elim_inl]
            exact ht
          · simp only [Reading.stored]
            rw [List.take_of_length_le (by rw [hlen]; omega), store_store]
            rw [hlen, Nat.min_eq_right (Nat.le_of_lt hlt), Nat.add_assoc]

/-! ### `read` -/

section Kernel

variable {r : HeapRegion} {heap : Mem} {f : File} {fd : Buffer} {len : Nat} {code code' : SuccessCodes}
  {bs bs' : List UInt8}

/-- What `read` comes to, however many turns are allowed beyond some number and wherever it stores:
its code, and the bytes it has stored. -/
def Reads (r : HeapRegion) (disk : Disk) (heap : Mem) (f : File) (len : Nat) (code : SuccessCodes)
    (bs : List UInt8) : Prop :=
  ∃ turns, ∀ fuel ≥ turns, ∀ obuf m, ∃ heap',
    read (KernelAllocator.buffers r) disk fuel f obuf len m heap =
      .ok ((code, store m obuf bs), heap')

/-- `read` returns, has stored all that was asked for if it says `Sucess`, and says `Error` if the
chain of the file ends before. -/
def ReportsTruncation (r : HeapRegion) (disk : Disk) (heap : Mem) (f : File) (len : Nat) : Prop :=
  ∃ code bs, Reads r disk heap f len code bs ∧
    (code = SuccessCodes.Sucess → bs.length = min len f.size) ∧
    ∀ fd, f.fsData = some fd → EndsBefore disk (FileData.cluster fd) (min len f.size) →
      code = SuccessCodes.Error

theorem Reads.code_unique (h : Reads r disk heap f len code bs)
    (h' : Reads r disk heap f len code' bs') : code = code' := by
  obtain ⟨turns, h⟩ := h
  obtain ⟨turns', h'⟩ := h'
  obtain ⟨_, h⟩ := h (max turns turns') (Nat.le_max_left ..) 0 fun _ => 0
  obtain ⟨_, h'⟩ := h' (max turns turns') (Nat.le_max_right ..) 0 fun _ => 0
  rw [h] at h'
  simp only [Except.ok.injEq, Prod.mk.injEq] at h'
  exact h'.1.1

/-- A file that is none, or a directory, or cannot be read for want of a cluster. -/
theorem reports_of_error (h : ∀ fuel obuf m, ∃ heap',
    read (KernelAllocator.buffers r) disk fuel f obuf len m heap = .ok ((.Error, m), heap')) :
    ReportsTruncation r disk heap f len :=
  ⟨.Error, [], ⟨0, fun fuel _ => h fuel⟩, nofun, fun _ _ _ => rfl⟩

/-- `read` of a file, with room for a cluster. -/
theorem reads_of_room (hbps : bytesPerSector disk = 512) (hspc : 1 ≤ sectorsPerCluster disk)
    (hfd : f.fsData = some fd) (hreg : FileData.isDirectory fd = false)
    (hroom : (KernelAllocator.buffers r).HasRoom (bytesPerCluster disk) heap) (len : Nat) :
    ∃ bs, Reads r disk heap f len .Sucess bs ∧
      (bs.length = min len f.size ↔ ¬ EndsBefore disk (FileData.cluster fd) (min len f.size)) := by
  obtain ⟨bs, -, hall, hloop⟩ := turns_stores hbps hspc (FileData.cluster fd) (min len f.size)
  refine ⟨bs, ⟨min len f.size + 1, fun fuel hf obuf m => ?_⟩, hall⟩
  obtain ⟨buf, heap', ha⟩ := hroom.buffer
  obtain ⟨t, ht, hobuf⟩ := hloop ⟨min len f.size, 0, FileData.cluster fd, buf.bytes, m⟩ fuel obuf
    rfl ((KernelAllocator.buffers_lawful r).sized ha) rfl hf
  refine ⟨(KernelAllocator.buffers r).free ⟨buf.addr, t.clusterBuf⟩ heap', ?_⟩
  simp only [read, hfd, hreg, Bool.false_eq_true, if_false, ha, ht, ok_bind, hobuf]
  rfl

theorem EndsBefore.not_reports (h : EndsBefore disk (FileData.cluster fd) (min len f.size))
    (hbps : bytesPerSector disk = 512) (hspc : 1 ≤ sectorsPerCluster disk)
    (hfd : f.fsData = some fd) (hreg : FileData.isDirectory fd = false)
    (hroom : (KernelAllocator.buffers r).HasRoom (bytesPerCluster disk) heap) :
    ¬ ReportsTruncation r disk heap f len := by
  rintro ⟨code, bs, hreads, -, herror⟩
  obtain ⟨bs', hreads', -⟩ := reads_of_room hbps hspc hfd hreg hroom len
  have hcode := hreads.code_unique hreads'
  rw [herror fd hfd h] at hcode
  cases hcode

/-- **When `read` reports truncation**: where it does not get to read a chain that ends early. -/
theorem read_reports_iff (r : HeapRegion) (heap : Mem) (hbps : bytesPerSector disk = 512)
    (hspc : 1 ≤ sectorsPerCluster disk) (f : File) (len : Nat) :
    ReportsTruncation r disk heap f len ↔
      ¬ ∃ fd, f.fsData = some fd ∧ FileData.isDirectory fd = false ∧
        (KernelAllocator.buffers r).HasRoom (bytesPerCluster disk) heap ∧
        EndsBefore disk (FileData.cluster fd) (min len f.size) := by
  constructor
  · rintro h ⟨fd, hfd, hreg, hroom, hends⟩
    exact hends.not_reports hbps hspc hfd hreg hroom h
  · intro h
    cases hfd : f.fsData with
    | none => exact reports_of_error fun _ _ _ => ⟨heap, by rw [read, hfd]⟩
    | some fd =>
        cases hreg : FileData.isDirectory fd with
        | true => exact reports_of_error fun _ _ _ => ⟨heap, by simp only [read, hfd, hreg, if_true]⟩
        | false =>
            by_cases hroom : (KernelAllocator.buffers r).HasRoom (bytesPerCluster disk) heap
            · obtain ⟨bs, hreads, hall⟩ := reads_of_room hbps hspc hfd hreg hroom len
              have hends := fun hends => h ⟨fd, hfd, hreg, hroom, hends⟩
              refine ⟨.Sucess, bs, hreads, fun _ => hall.mpr hends, ?_⟩
              rintro fd' hfd' hends'
              obtain rfl := Option.some.inj (hfd.symm.trans hfd')
              exact absurd hends' hends
            · obtain ⟨heap', ha⟩ := Allocator.refused hroom
              exact reports_of_error fun _ _ _ =>
                ⟨heap', by simp only [read, hfd, hreg, Bool.false_eq_true, if_false, ha]⟩

/-! ### A file that is cut off -/

/-- `A` is in cluster 3, whose link is an end mark, and has 600 bytes by its entry. -/
def cutDisk : Disk :=
  diskOf (smallBoot ++ [(0, 66, [0x29]), (1, 8, [255, 255, 255, 15, 255, 255, 255, 15]),
    (2, 0, field 8 (ascii ['A']) ++ field 3 [] ++ 0x20 :: List.replicate 14 0 ++
      [3, 0, 0x58, 2, 0, 0])])

theorem cutDisk_accepted : getPriority cutDisk = true ∧ bytesPerSector cutDisk = 512 ∧
    sectorsPerCluster cutDisk = 1 ∧ bytesPerCluster cutDisk = 512 ∧ EndMark (fatEntry cutDisk 3) :=
  ⟨by decide +kernel, by decide +kernel, by decide +kernel, by decide +kernel, by decide +kernel⟩

/-- The first 512 bytes of the file are all there. -/
theorem read_reports_first :
    ReportsTruncation KernelAllocator.smallImage cutDisk
      (KernelAllocator.init KernelAllocator.smallImage fun _ => 0)
      ⟨some ⟨0x200012, [3, 0, 0, 0, 0, 0, 0, 0]⟩, 600, true⟩ 512 := by
  obtain ⟨-, hbps, hspc, hbpc, -⟩ := cutDisk_accepted
  refine (read_reports_iff KernelAllocator.smallImage _ hbps (Nat.le_of_eq hspc.symm) _ 512).mpr ?_
  rintro ⟨fd, -, -, -, hends⟩
  have hlt := (endsBefore_iff.mp hends).1
  rw [hbpc] at hlt
  exact Nat.lt_irrefl 512 (Nat.lt_of_lt_of_le hlt (Nat.min_le_left ..))

/-- All 600 bytes are not, and `read` does not say so. -/
theorem read_truncates : getPriority cutDisk = true ∧ bytesPerSector cutDisk = 512 ∧
    sectorsPerCluster cutDisk = 1 ∧
    ∃ f heap, «open» (KernelAllocator.buffers KernelAllocator.smallImage) cutDisk 1
      (.lit ['/', 'A']) false (KernelAllocator.init KernelAllocator.smallImage fun _ => 0) =
        .ok ((f, true), heap) ∧
      ¬ ReportsTruncation KernelAllocator.smallImage cutDisk heap f 600 := by
  obtain ⟨hacc, hbps, hspc, hbpc, hend⟩ := cutDisk_accepted
  have hrun : («open» (KernelAllocator.buffers KernelAllocator.smallImage) cutDisk 1
      (.lit ['/', 'A']) false (KernelAllocator.init KernelAllocator.smallImage fun _ => 0)).map
        (fun q => (q.1.2, q.1.1.size, q.1.1.fsData.map fun fd =>
          (FileData.cluster fd, FileData.isDirectory fd),
          decide ((KernelAllocator.buffers KernelAllocator.smallImage).HasRoom
            (bytesPerCluster cutDisk) q.2))) = .ok (true, 600, some (3, false), true) := by
    decide +kernel
  obtain ⟨⟨⟨f, flag⟩, heap⟩, hopen, hq⟩ := map_eq_ok.mp hrun
  simp only [Prod.mk.injEq, decide_eq_true_eq, Option.map_eq_some_iff] at hq
  obtain ⟨rfl, hsize, ⟨fd, hfd, hcluster, hreg⟩, hroom⟩ := hq
  refine ⟨hacc, hbps, hspc, f, heap, hopen, ?_⟩
  have hends : EndsBefore cutDisk (FileData.cluster fd) (min 600 f.size) := by
    rw [hsize, hcluster, endsBefore_iff, hbpc]
    exact ⟨by decide, .inl hend⟩
  exact hends.not_reports hbps (Nat.le_of_eq hspc.symm) hfd hreg hroom

end Kernel

end RivOS.Fat32
