import RivOS.Fs.Fat32
import RivOS.Support.Chain

/-!
# Fs — FAT32 volumes with 512-byte sectors

Where sectors have 512 bytes no buffer is left, and what the driver reads is a function of the disk.

* `readCluster_eq`, `readFatEntry_eq`: a cluster is `clusterData`, a link is `fatEntry`.
* `search_of_finds`, `finds_of_search`: what the search for a name comes to, given enough turns, is
  what the clusters from the first one on answer in turn.
-/

namespace RivOS.Fat32

open BootSector

variable {disk : Disk} {l : Layout} {fatName : List UInt8} {c fuel n : Nat} {buf buf' : List UInt8}
  {cs : List Nat} {r : Option DirEntry}

/-- A field of `k` bytes. -/
theorem numAt_lt (k off : Nat) (bs : List UInt8) : numAt k off bs < 256 ^ k :=
  Nat.lt_of_lt_of_le ofLE_lt
    (Nat.pow_le_pow_right (by decide) (by rw [List.length_take]; exact Nat.min_le_left ..))

/-! ### Clusters and links -/

/-- The sectors of a cluster, one after the other. -/
def clusterData (disk : Disk) (c : Nat) : List UInt8 :=
  (List.range (sectorsPerCluster disk)).flatMap fun s =>
    Storage.readSector disk ((clusterToSector disk c + s) % 2 ^ 32)

/-- The 32-bit word for `c` in the table, less its upper four bits. -/
def fatEntry (disk : Disk) (c : Nat) : Nat :=
  numAt 4 (c * 4 % 2 ^ 32 % 512)
    (Storage.readSector disk ((reservedSectors disk + c * 4 % 2 ^ 32 / 512) % 2 ^ 32)) &&& 0x0FFFFFFF

abbrev EndMark (v : Nat) : Prop := 0x0FFFFFF8 ≤ v

/-- The clusters of a file or directory that begins at `c`. -/
abbrev ClusterChain (disk : Disk) : Nat → List Nat → Prop := Chain (fatEntry disk) EndMark

@[simp] theorem length_readSector (s : Nat) : (Storage.readSector disk s).length = 512 := by
  simp [Storage.readSector]

theorem length_flatMap_range {g : Nat → List UInt8} {w : Nat} (hg : ∀ s, (g s).length = w) (n : Nat) :
    ((List.range n).flatMap g).length = n * w := by
  induction n with
  | zero => simp
  | succ n ih => simp [List.range_succ, ih, hg, Nat.succ_mul]

theorem length_clusterData (hbps : bytesPerSector disk = 512) :
    (clusterData disk c).length = bytesPerCluster disk := by
  rw [clusterData, length_flatMap_range fun _ => length_readSector _, bytesPerCluster, hbps,
    Nat.mul_comm]

/-- Pieces of one length that are stored in a buffer in turn. -/
theorem foldlM_putAt {g : Nat → List UInt8} {w : Nat} (hg : ∀ s, (g s).length = w)
    (hn : n * w ≤ buf.length) :
    (List.range n).foldlM (fun buf s => putAt (s * w) (g s) buf) buf =
      .ok ((List.range n).flatMap g ++ buf.drop (n * w)) := by
  induction n with
  | zero => simp [pure, Except.pure]
  | succ n ih =>
      rw [Nat.succ_mul] at hn
      have hlen := length_flatMap_range hg n
      have hfits : n * w + (g n).length ≤ ((List.range n).flatMap g ++ buf.drop (n * w)).length := by
        rw [List.length_append, hlen, List.length_drop, hg]
        omega
      rw [List.range_succ, List.foldlM_append, ih (by omega), ok_bind, List.foldlM_cons, putAt,
        if_pos hfits, ok_bind, List.foldlM_nil, List.take_left' hlen, List.drop_append,
        List.drop_eq_nil_of_le (by rw [hlen]; omega), hlen, hg, List.drop_drop, List.flatMap_append]
      simp [Nat.succ_mul, pure, Except.pure]

/-- A cluster is read whole, and nothing is left of what was in the buffer. -/
theorem readCluster_eq (hbps : bytesPerSector disk = 512) (hbuf : buf.length = bytesPerCluster disk) :
    readCluster disk c buf = .ok (clusterData disk c) := by
  rw [bytesPerCluster, hbps, Nat.mul_comm] at hbuf
  rw [readCluster, foldlM_putAt (fun _ => length_readSector _) (Nat.le_of_eq hbuf.symm),
    List.drop_eq_nil_of_le (Nat.le_of_eq hbuf), List.append_nil, clusterData]

theorem readFatEntry_eq (hbps : bytesPerSector disk = 512) :
    readFatEntry disk c = .ok (fatEntry disk c) := by
  simp only [readFatEntry, hbps, length_readSector]
  rw [if_neg (by decide), if_pos (by omega), fatEntry]

/-! ### Searching a directory -/

/-- What one cluster of a directory answers to a search. -/
def answer (l : Layout) (disk : Disk) (fatName : List UInt8) (c : Nat) :
    Option (Option DirEntry) :=
  scan fatName (entriesIn l disk (clusterData disk c))

/-- The search from `c` on comes to `r`. -/
abbrev Finds (l : Layout) (disk : Disk) (fatName : List UInt8) : Nat → Option DirEntry → Prop :=
  Visits (fatEntry disk) EndMark (answer l disk fatName) none

theorem search_succ (hbps : bytesPerSector disk = 512)
    (hbuf : buf.length = bytesPerCluster disk) :
    search l disk fatName (fuel + 1) c buf =
      match answer l disk fatName c with
      | some r => .ok (r, clusterData disk c)
      | none =>
          if EndMark (fatEntry disk c) then .ok (none, clusterData disk c)
          else search l disk fatName fuel (fatEntry disk c) (clusterData disk c) := by
  rw [search, turns, searchTurn, readCluster_eq hbps hbuf, ok_bind, answer]
  cases scan fatName (entriesIn l disk (clusterData disk c)) with
  | some r => rfl
  | none =>
      rw [readFatEntry_eq hbps]
      by_cases hend : EndMark (fatEntry disk c)
      · simp only [ok_bind, if_pos hend]
        rfl
      · simp only [ok_bind, if_neg hend]
        rfl

/-- Enough turns bring the search to its end. -/
theorem search_of_finds (hbps : bytesPerSector disk = 512) (h : Finds l disk fatName c r) :
    ∃ n, ∀ fuel ≥ n, ∀ buf, buf.length = bytesPerCluster disk →
      ∃ buf', search l disk fatName fuel c buf = .ok (r, buf') ∧
        buf'.length = bytesPerCluster disk := by
  have hlen (c : Nat) := length_clusterData (c := c) hbps
  induction h with
  | @answer c r ha =>
      refine ⟨1, fun fuel hf buf hbuf => ⟨clusterData disk c, ?_, hlen c⟩⟩
      obtain ⟨fuel, rfl⟩ := Nat.exists_eq_add_of_le' hf
      rw [search_succ hbps hbuf, ha]
  | @last c ha hend =>
      refine ⟨1, fun fuel hf buf hbuf => ⟨clusterData disk c, ?_, hlen c⟩⟩
      obtain ⟨fuel, rfl⟩ := Nat.exists_eq_add_of_le' hf
      simp only [search_succ hbps hbuf, ha, if_pos hend]
  | @link c r ha hend _ ih =>
      obtain ⟨n, ih⟩ := ih
      refine ⟨n + 1, fun fuel hf buf hbuf => ?_⟩
      obtain ⟨fuel, rfl⟩ : ∃ k, fuel = k + 1 := ⟨fuel - 1, by omega⟩
      simp only [search_succ hbps hbuf, ha, if_neg hend]
      exact ih fuel (by omega) _ (hlen c)

/-- A search that came to its end did so by what the clusters say. -/
theorem finds_of_search (hbps : bytesPerSector disk = 512)
    (hbuf : buf.length = bytesPerCluster disk)
    (h : search l disk fatName fuel c buf = .ok (r, buf')) :
    Finds l disk fatName c r ∧ buf'.length = bytesPerCluster disk := by
  induction fuel generalizing c buf with
  | zero => cases h
  | succ fuel ih =>
      rw [search_succ hbps hbuf] at h
      cases ha : answer l disk fatName c with
      | some q =>
          rw [ha] at h
          cases h
          exact ⟨.answer ha, length_clusterData hbps⟩
      | none =>
          simp only [ha] at h
          split at h
          · next hend =>
              cases h
              exact ⟨.last ha hend, length_clusterData hbps⟩
          · next hend =>
              obtain ⟨hf, hlen⟩ := ih (length_clusterData hbps) h
              exact ⟨.link ha hend hf, hlen⟩

/-! ### Small volumes -/

/-- A disk with bytes at places in its sectors, and zeros elsewhere. -/
def diskOf (parts : List (Nat × Nat × List UInt8)) : Disk := fun s k =>
  (parts.findSome? fun (sector, off, bs) =>
    if s = sector ∧ off ≤ k then bs[k - off]? else none).getD 0

/-- One sector a cluster, one reserved sector and a FAT of one sector; the root directory is
cluster 2. -/
def smallBoot : List (Nat × Nat × List UInt8) :=
  [(0, 11, [0, 2, 1, 1, 0, 1]), (0, 36, [1]), (0, 44, [2])]

end RivOS.Fat32
