import RivOS.Fs.Fat32Volume
import RivOS.Mem.Buffers

/-!
# Fs — Reading a file of a FAT32 volume

The volume in its own terms: the FAT is a table of 32-bit words behind the reserved sectors, and the
data region, from cluster 2 on, is behind the FATs.

* `fatEntry_eq`, `clusterData_eq`: for the clusters of the data region this is what the driver reads.
* `read_reads`: `read` stores the first bytes of the clusters of the file's chain, and nothing else;
  it fails where the heap has no room for a cluster.
-/

namespace RivOS.Fat32

open BootSector
open FileSystemDriver (SuccessCodes)

variable {disk : Disk} {c fuel n obuf : Nat} {cs : List Nat} {m : Mem}

/-! ### The volume -/

/-- The bytes of the first FAT. -/
def fat (disk : Disk) : Mem := fun j => disk (reservedSectors disk + j / 512) (j % 512)

/-- What the FAT has for a cluster: the upper four bits of an entry are not used. -/
def link (disk : Disk) (c : Nat) : Nat := readLE (fat disk) 4 (4 * c) % 2 ^ 28

/-- The first sector of a cluster. -/
def sectorOf (disk : Disk) (c : Nat) : Nat :=
  reservedSectors disk + fatsOnMedia disk * sectorsPerFat32 disk + (c - 2) * sectorsPerCluster disk

def clusterBytes (disk : Disk) (c : Nat) : List UInt8 :=
  (List.range (sectorsPerCluster disk)).flatMap fun s =>
    Storage.readSector disk (sectorOf disk c + s)

/-- The number of a cluster of the data region; sectors have 32-bit numbers. -/
structure DataCluster (disk : Disk) (c : Nat) : Prop where
  two_le : 2 ≤ c
  not_end : c < 0x0FFFFFF8
  sectors : sectorOf disk c + sectorsPerCluster disk ≤ 2 ^ 32

/-! ### The driver's arithmetic -/

theorem take_drop_range (m : Mem) {i k w : Nat} (h : i + k ≤ w) :
    (((List.range w).map m).drop i).take k = load m i k := by
  apply List.ext_getElem?
  intro j
  by_cases hj : j < k
  · have hw : i + j < w := by omega
    rw [getElem?_load hj, List.getElem?_take_of_lt hj, List.getElem?_drop, List.getElem?_map,
      List.getElem?_range hw]
    rfl
  · rw [List.getElem?_eq_none (by rw [List.length_take]; omega),
      List.getElem?_eq_none (by rw [length_load]; omega)]

/-- An entry of the FAT lies in one sector. -/
theorem fatEntry_eq (h : c < 2 ^ 28) : fatEntry disk c = link disk c := by
  have hoff : c * 4 % 2 ^ 32 = 4 * c := by omega
  have hres : reservedSectors disk < 256 ^ 2 := numAt_lt ..
  have hsec : (reservedSectors disk + 4 * c / 512) % 2 ^ 32 = reservedSectors disk + 4 * c / 512 := by
    omega
  -- four bytes from a multiple of four on, so the sector ends behind them or later
  have hfat : ∀ i < 4, fat disk (4 * c + i) =
      disk (reservedSectors disk + 4 * c / 512) (4 * c % 512 + i) := by
    intro i hi
    rw [fat, show (4 * c + i) / 512 = 4 * c / 512 by omega,
      show (4 * c + i) % 512 = 4 * c % 512 + i by omega]
  have hload : load (disk (reservedSectors disk + 4 * c / 512)) (4 * c % 512) 4 =
      load (fat disk) (4 * c) 4 := by
    have h0 := hfat 0 (by decide)
    have h1 := hfat 1 (by decide)
    have h2 := hfat 2 (by decide)
    have h3 := hfat 3 (by decide)
    simp only [load, Nat.add_assoc, Nat.reduceAdd, Nat.add_zero] at h0 h1 h2 h3 ⊢
    rw [h0, h1, h2, h3]
  rw [fatEntry, hoff, hsec, numAt, Storage.readSector, take_drop_range _ (by omega), hload, link,
    readLE]
  exact Nat.and_two_pow_sub_one_eq_mod _ 28

theorem clusterToSector_mod (h : 2 ≤ c) (s : Nat) :
    (clusterToSector disk c + s) % 2 ^ 32 = (sectorOf disk c + s) % 2 ^ 32 := by
  have hwrap : (c + 2 ^ 32 - 2) * sectorsPerCluster disk =
      (c - 2) * sectorsPerCluster disk + 2 ^ 32 * sectorsPerCluster disk := by
    rw [← Nat.add_mul, show c + 2 ^ 32 - 2 = c - 2 + 2 ^ 32 by omega]
  rw [clusterToSector, dataRegionStart, hwrap, sectorOf]
  omega

/-- The clusters of the data region are read where they are. -/
theorem clusterData_eq (h : DataCluster disk c) : clusterData disk c = clusterBytes disk c := by
  rw [clusterData, clusterBytes, List.flatMap_def, List.flatMap_def]
  refine congrArg _ (List.map_congr_left fun s hs => ?_)
  have hs := List.mem_range.mp hs
  have hlast := h.sectors
  rw [clusterToSector_mod h.two_le, Nat.mod_eq_of_lt (by omega)]

theorem flatMap_clusterData (h : ∀ c ∈ cs, DataCluster disk c) :
    cs.flatMap (clusterData disk) = cs.flatMap (clusterBytes disk) := by
  rw [List.flatMap_def, List.flatMap_def]
  exact congrArg _ (List.map_congr_left fun c hc => clusterData_eq (h c hc))

/-- A chain of the volume is one the driver follows. -/
theorem clusterChain_of_link (h : Chain (link disk) EndMark c cs)
    (hdata : ∀ c ∈ cs, DataCluster disk c) : ClusterChain disk c cs := by
  refine h.congr fun c hc => fatEntry_eq ?_
  have := (hdata c hc).not_end
  omega

/-! ### The loop -/

/-- A read after one more cluster. -/
def Reading.stored (disk : Disk) (obuf : Nat) (t : Reading) : Reading where
  bytesRemaining := t.bytesRemaining - bytesPerCluster disk
  bytesWritten := t.bytesWritten + min t.bytesRemaining (bytesPerCluster disk)
  currentCluster := t.currentCluster
  clusterBuf := clusterData disk t.currentCluster
  obuf := store t.obuf (obuf + t.bytesWritten)
    ((clusterData disk t.currentCluster).take t.bytesRemaining)

theorem readTurn_eq {t : Reading} (hbps : bytesPerSector disk = 512)
    (hbuf : t.clusterBuf.length = bytesPerCluster disk) (h0 : t.bytesRemaining ≠ 0) :
    readTurn disk obuf t =
      if t.bytesRemaining ≤ bytesPerCluster disk ∨ EndMark (fatEntry disk t.currentCluster) then
        .ok (.inr (t.stored disk obuf))
      else
        .ok (.inl { t.stored disk obuf with currentCluster := fatEntry disk t.currentCluster }) := by
  have hchunk : (clusterData disk t.currentCluster).take
      (min t.bytesRemaining (bytesPerCluster disk)) =
        (clusterData disk t.currentCluster).take t.bytesRemaining := by
    rw [← List.take_take, ← length_clusterData hbps, List.take_length]
  have hrest : t.bytesRemaining - min t.bytesRemaining (bytesPerCluster disk) =
      t.bytesRemaining - bytesPerCluster disk := by omega
  rw [readTurn, if_neg h0, readCluster_eq hbps hbuf]
  simp only [ok_bind, hchunk, hrest, readFatEntry_eq hbps, Reading.stored]
  by_cases hle : t.bytesRemaining ≤ bytesPerCluster disk
  · rw [if_pos (by omega), if_pos (.inl hle)]
    rfl
  · rw [if_neg (by omega)]
    by_cases hend : EndMark (fatEntry disk t.currentCluster)
    · rw [if_pos hend, if_pos (.inr hend)]
      rfl
    · rw [if_neg hend, if_neg (by simp [hle, hend])]
      rfl

/-- The loop of `read` follows the chain and stores one cluster behind the other, as long as there
are any. -/
theorem turns_readTurn (hbps : bytesPerSector disk = 512) (hspc : 1 ≤ sectorsPerCluster disk)
    (h : ClusterChain disk c cs) : ∀ {t : Reading} {fuel : Nat}, t.currentCluster = c →
      t.clusterBuf.length = bytesPerCluster disk → t.bytesRemaining ≠ 0 →
      t.bytesRemaining ≤ fuel →
      ∃ t', turns (readTurn disk obuf) .running fuel t = .ok t' ∧
        t'.obuf = store t.obuf (obuf + t.bytesWritten)
          ((cs.flatMap (clusterData disk)).take t.bytesRemaining) := by
  have hpos : 0 < bytesPerCluster disk := by
    rw [bytesPerCluster, hbps]
    omega
  have hless : ∀ {n k}, ¬ n ≤ bytesPerCluster disk → n ≤ k + 1 →
      n - bytesPerCluster disk ≠ 0 ∧ n - bytesPerCluster disk ≤ k := by
    intro n k hn hk
    exact ⟨by omega, by omega⟩
  have hlen (c : Nat) : (clusterData disk c).length = bytesPerCluster disk := length_clusterData hbps
  induction h with
  | @last c hend =>
      rintro t fuel rfl hbuf h0 hf
      obtain ⟨fuel, rfl⟩ : ∃ k, fuel = k + 1 := ⟨fuel - 1, by omega⟩
      refine ⟨t.stored disk obuf, ?_, ?_⟩
      · rw [turns, readTurn_eq hbps hbuf h0, if_pos (.inr hend)]
        rfl
      · rw [List.flatMap_singleton]
        rfl
  | @link c cs hend _ ih =>
      rintro t fuel rfl hbuf h0 hf
      obtain ⟨fuel, rfl⟩ : ∃ k, fuel = k + 1 := ⟨fuel - 1, by omega⟩
      rw [turns, readTurn_eq hbps hbuf h0, List.flatMap_cons, List.take_append, hlen]
      by_cases hle : t.bytesRemaining ≤ bytesPerCluster disk
      · -- the rest is in this cluster
        refine ⟨t.stored disk obuf, by rw [if_pos (.inl hle)]; rfl, ?_⟩
        rw [Nat.sub_eq_zero_of_le hle, List.take_zero, List.append_nil]
        rfl
      · rw [if_neg (by simp [hle, hend])]
        obtain ⟨hne, hfuel⟩ := hless hle hf
        obtain ⟨t', ht, hobuf⟩ := ih (t := { t.stored disk obuf with
          currentCluster := fatEntry disk t.currentCluster }) rfl
          (by simp only [Reading.stored, hlen]) hne hfuel
        refine ⟨t', ht, hobuf.trans ?_⟩
        simp only [Reading.stored]
        rw [store_store]
        rw [List.length_take, hlen, Nat.add_assoc]

/-! ### `read` -/

/-- **Reading a file**: whatever the chain, the geometry and the length, the first bytes of the
clusters of the chain, and nothing but these, are stored; without room for a cluster there is an
error. -/
theorem read_reads (r : HeapRegion) (heap : Mem) (hbps : bytesPerSector disk = 512)
    (hspc : 1 ≤ sectorsPerCluster disk) {f : File} {fd : Buffer} (hfd : f.fsData = some fd)
    (hreg : FileData.isDirectory fd = false)
    (hchain : f.size ≠ 0 → Chain (link disk) EndMark (FileData.cluster fd) cs)
    (hdata : ∀ c ∈ cs, DataCluster disk c)
    (hsize : f.size ≤ (cs.flatMap (clusterBytes disk)).length) (obuf len : Nat) (m : Mem) :
    ∃ n, ∀ fuel ≥ n, ∃ code m' heap',
      read (KernelAllocator.buffers r) disk fuel f obuf len m heap = .ok ((code, m'), heap') ∧
        ((KernelAllocator.buffers r).HasRoom (bytesPerCluster disk) heap →
          code = SuccessCodes.Sucess ∧
            load m' obuf (min len f.size) =
              (cs.flatMap (clusterBytes disk)).take (min len f.size) ∧
            ∀ x, x < obuf ∨ obuf + min len f.size ≤ x → m' x = m x) ∧
        (¬ (KernelAllocator.buffers r).HasRoom (bytesPerCluster disk) heap →
          code = SuccessCodes.Error ∧ m' = m) := by
  refine ⟨min len f.size + 1, fun fuel hf => ?_⟩
  rw [read, hfd]
  simp only [hreg, Bool.false_eq_true, if_false]
  by_cases hroom : (KernelAllocator.buffers r).HasRoom (bytesPerCluster disk) heap
  · obtain ⟨buf, heap', ha⟩ := hroom.buffer
    have hbuf := (KernelAllocator.buffers_lawful r).sized ha
    simp only [ha]
    set n := min len f.size with hn
    -- what the loop stores, also where there is nothing to read and so perhaps no chain
    obtain ⟨t', ht, hobuf⟩ : ∃ t', turns (readTurn disk obuf) .running fuel
        ⟨n, 0, FileData.cluster fd, buf.bytes, m⟩ = .ok t' ∧
        t'.obuf = store m obuf ((cs.flatMap (clusterBytes disk)).take n) := by
      by_cases h0 : n = 0
      · obtain ⟨fuel, rfl⟩ : ∃ k, fuel = k + 1 := ⟨fuel - 1, by omega⟩
        refine ⟨_, by rw [turns, readTurn, if_pos h0]; rfl, ?_⟩
        rw [h0, List.take_zero]
        rfl
      · have hc := clusterChain_of_link (hchain (by omega)) hdata
        rw [← flatMap_clusterData hdata] at hsize ⊢
        exact turns_readTurn hbps hspc hc (t := ⟨n, 0, FileData.cluster fd, buf.bytes, m⟩) rfl hbuf
          h0 (show n ≤ fuel by omega)
    have hlen : ((cs.flatMap (clusterBytes disk)).take n).length = n := by
      rw [List.length_take]
      omega
    rw [ht]
    refine ⟨_, _, _, rfl, fun _ => ⟨rfl, ?_, fun x hx => ?_⟩, fun h => absurd hroom h⟩
    · rw [hobuf]
      calc load (store m obuf ((cs.flatMap (clusterBytes disk)).take n)) obuf n
          = load (store m obuf ((cs.flatMap (clusterBytes disk)).take n)) obuf
              ((cs.flatMap (clusterBytes disk)).take n).length := by rw [hlen]
        _ = (cs.flatMap (clusterBytes disk)).take n := load_store
    · rw [hobuf, store_of_not_mem (by rwa [hlen])]
  · obtain ⟨heap', ha⟩ := Allocator.refused hroom
    simp only [ha]
    exact ⟨_, _, _, rfl, fun h => absurd h hroom, fun _ => ⟨rfl, rfl⟩⟩

/-- The clusters 2 and 3 are chains of one cluster, and cluster 3 begins with a text. -/
def smallDisk : Disk :=
  diskOf (smallBoot ++ [(1, 8, [255, 255, 255, 15, 255, 255, 255, 15]), (3, 0, [97, 98, 99])])

/-- A file of three bytes in cluster 3. -/
def smallFile : File := ⟨some ⟨0x200012, [3, 0, 0, 0, 0, 0, 0, 0]⟩, 3, true⟩

theorem smallFile_covered :
    bytesPerSector smallDisk = 512 ∧ sectorsPerCluster smallDisk = 1 ∧
      Chain (link smallDisk) EndMark 3 [3] ∧ DataCluster smallDisk 3 ∧
      smallFile.size ≤ ([3].flatMap (clusterBytes smallDisk)).length :=
  ⟨by decide +kernel, by decide +kernel, .last (by decide +kernel),
    ⟨by decide, by decide, by decide +kernel⟩, by decide +kernel⟩

theorem read_reads_small : ∃ fuel m' heap',
    read (KernelAllocator.buffers KernelAllocator.smallImage) smallDisk fuel smallFile 0x1000 2
      (fun _ => 0) (KernelAllocator.init KernelAllocator.smallImage fun _ => 0) =
        .ok ((.Sucess, m'), heap') ∧ load m' 0x1000 2 = [97, 98] := by
  obtain ⟨hbps, hspc, hchain, hdata, hsize⟩ := smallFile_covered
  obtain ⟨n, h⟩ := read_reads KernelAllocator.smallImage
    (KernelAllocator.init KernelAllocator.smallImage fun _ => 0) hbps (Nat.le_of_eq hspc.symm)
    (f := smallFile) rfl (by decide) (fun _ => hchain)
    (fun c hc => by rw [List.mem_singleton.mp hc]; exact hdata) hsize 0x1000 2 fun _ => 0
  obtain ⟨code, m', heap', hread, hcode, -⟩ := h n (Nat.le_refl n)
  obtain ⟨rfl, hload, -⟩ := hcode (by decide +kernel)
  exact ⟨n, m', heap', hread, hload.trans (by decide +kernel)⟩

/-- One block takes up the whole heap. -/
def fullHeap : Mem :=
  ((KernelAllocator.buffers KernelAllocator.smallImage).alloc (32 * 2 ^ 20 - 18)
    (KernelAllocator.init KernelAllocator.smallImage fun _ => 0)).2

/-- The file is as it should be, but the heap has no room for a cluster. -/
theorem read_without_room :
    (bytesPerSector smallDisk = 512 ∧ sectorsPerCluster smallDisk = 1 ∧
      Chain (link smallDisk) EndMark 3 [3] ∧ DataCluster smallDisk 3 ∧
      smallFile.size ≤ ([3].flatMap (clusterBytes smallDisk)).length) ∧
    ∀ fuel, ∃ heap', read (KernelAllocator.buffers KernelAllocator.smallImage) smallDisk fuel
      smallFile 0x1000 2 (fun _ => 0) fullHeap = .ok ((.Error, fun _ => 0), heap') := by
  refine ⟨smallFile_covered, fun fuel => ?_⟩
  have hfull : ¬ (KernelAllocator.buffers KernelAllocator.smallImage).HasRoom
      (bytesPerCluster smallDisk) fullHeap := by decide +kernel
  obtain ⟨heap', ha⟩ := Allocator.refused hfull
  exact ⟨heap', by simp only [read, smallFile, ha]; rfl⟩

end RivOS.Fat32
