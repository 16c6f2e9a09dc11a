import RivOS.Fs.Fat32Loops
import RivOS.Fs.Fat32Read

/-!
# Fs — The buffers of the FAT32 driver

What `getPriority`, `readFatEntry`, `findDirEntryInDir` and `read` (`drivers/fs/FAT32/fat.hpp`) read
and write of the buffers that they own: the block for the boot sector, the 256 words for a sector of
the FAT, and the buffer for a cluster.  The geometry is whatever the boot sector says.

* `readFatEntry_inside_iff`, `search_inside_iff`, `readLoop_inside_iff`: when the accesses of a
  function lie inside, the loops read up to their end or for ever.
* `search_defined`, `readLoop_defined`: where they do, and sectors have bytes, nothing is undefined.
* `accesses_inside_iff`: all four.
-/

namespace RivOS.Fat32

open BootSector

variable {disk : Disk} {fatName : List UInt8} {c k n start : Nat} {buf rest : List UInt8}

/-! ### Accesses -/

/-- The size of the packed structure, field by field. -/
def BootSector.sizeof : Nat :=
  3 + 8 + 2 + 1 + 2 + 1 + 2 + 2 + 1 + 2 + 2 + 2 + 4 + 4 + 4 + 2 + 2 + 4 + 2 + 2 + 12 + 1 + 1 + 1 + 4 +
    11 + 420

/-- The sector is stored, then its signature is read. -/
def getPriorityAccesses {σ : Type} (al : Allocator σ) (s : σ) : List Access :=
  match (al.alloc BootSector.sizeof s).1 with
  | none => []
  | some bootSecBuf =>
      let size := bootSecBuf.bytes.length
      [Storage.readSectorAccess size 0 256, ⟨size, 66, 1⟩]

/-- The offset of the word for `c` in its sector. -/
def entryOffset (disk : Disk) (c : Nat) : Nat := c * 4 % 2 ^ 32 % bytesPerSector disk

/-- The buffer is `uint16_t buf[256]`.  A division by zero comes before. -/
def readFatEntryAccesses (disk : Disk) (c : Nat) : List Access :=
  if bytesPerSector disk = 0 then []
  else [Storage.readSectorAccess 512 0 256, ⟨512, entryOffset disk c, 4⟩]

def readClusterAccesses (disk : Disk) (size : Nat) : List Access :=
  (List.range (sectorsPerCluster disk)).map fun s => Storage.readSectorAccess size (s * 512) 256

/-- What `scan` looks at, the `i`-th entry being the first: one character of the name, then the
attributes, then the name and the extension, and of the entry that is found everything. -/
def scanAccesses (size : Nat) (fatName : List UInt8) : Nat → List DirEntry → List Access
  | _, [] => []
  | i, e :: entries =>
      ⟨size, i * 32, 1⟩ ::
        if charAt e.name 0 = 0x00 then []
        else if charAt e.name 0 = 0xE5 then scanAccesses size fatName (i + 1) entries
        else ⟨size, i * 32 + 11, 1⟩ ::
          if e.attributes &&& 0x0F = 0x0F then scanAccesses size fatName (i + 1) entries
          else ⟨size, i * 32, 11⟩ ::
            if streqi (strToUpper (e.name ++ e.ext)) fatName then [⟨size, i * 32, 32⟩]
            else scanAccesses size fatName (i + 1) entries

/-- The accesses of one turn of the loop of `findDirEntryInDir`. -/
def searchTurnAccesses (disk : Disk) (fatName : List UInt8) (s : Nat × List UInt8) : List Access :=
  readClusterAccesses disk s.2.length ++
    match readCluster disk s.1 s.2 with
    | .error _ => []
    | .ok clusterBuf =>
        scanAccesses clusterBuf.length fatName 0 (entriesIn layout disk clusterBuf) ++
          match scan fatName (entriesIn layout disk clusterBuf) with
          | some _ => []
          | none => readFatEntryAccesses disk s.1

/-- The accesses of one turn of the loop of `read`. -/
def readTurnAccesses (disk : Disk) (t : Reading) : List Access :=
  if t.bytesRemaining = 0 then []
  else
    readClusterAccesses disk t.clusterBuf.length ++
      match readCluster disk t.currentCluster t.clusterBuf with
      | .error _ => []
      | .ok clusterBuf =>
          let chunk := min t.bytesRemaining (bytesPerCluster disk)
          ⟨clusterBuf.length, 0, chunk⟩ ::
            if t.bytesRemaining - chunk = 0 then []
            else readFatEntryAccesses disk t.currentCluster

section Kernel

variable {σ : Type} (al : Allocator σ) (disk : Disk) (fuel : Nat)

/-- The accesses of the first `fuel` turns. -/
def findDirEntryInDirAccesses (startCluster : Nat) (filename : List UInt8) (s : σ) : List Access :=
  match makeFatName filename with
  | none => []
  | some fatName =>
      match (al.alloc (bytesPerCluster disk) s).1 with
      | none => []
      | some clusterBuf =>
          (states (searchTurn layout disk fatName) fuel (startCluster, clusterBuf.bytes)).flatMap
            (searchTurnAccesses disk fatName)

/-- The accesses of the first `fuel` turns. -/
def readAccesses (f : File) (obuf len : Nat) (m : Mem) (s : σ) : List Access :=
  match f.fsData with
  | none => []
  | some fd =>
      if FileData.isDirectory fd then []
      else
        match (al.alloc (bytesPerCluster disk) s).1 with
        | none => []
        | some clusterBuf =>
            (states (readTurn disk obuf) fuel
              ⟨min len f.size, 0, FileData.cluster fd, clusterBuf.bytes, m⟩).flatMap
                (readTurnAccesses disk)

end Kernel

/-! ### Sectors of the FAT and clusters -/

/-- The word for `c` lies in the bytes that a sector has. -/
def EntryFits (disk : Disk) (c : Nat) : Prop :=
  bytesPerSector disk = 0 ∨ entryOffset disk c + 4 ≤ 512

theorem readFatEntry_inside_iff (disk : Disk) (c : Nat) :
    Inside (readFatEntryAccesses disk c) ↔ EntryFits disk c := by
  rw [readFatEntryAccesses, EntryFits]
  split
  · next h => simp [h]
  · next h => simp [h, Storage.readSectorAccess, Access.Inside]

/-- The sectors of a cluster fit in its buffer. -/
def SectorsFit (disk : Disk) : Prop := sectorsPerCluster disk = 0 ∨ 512 ≤ bytesPerSector disk

theorem sectorsFit_iff :
    SectorsFit disk ↔ sectorsPerCluster disk * 512 ≤ bytesPerCluster disk := by
  rw [SectorsFit, bytesPerCluster, Nat.mul_comm (bytesPerSector disk)]
  constructor
  · rintro (h | h)
    · simp [h]
    · exact Nat.mul_le_mul_left _ h
  · intro h
    by_cases h0 : sectorsPerCluster disk = 0
    · exact .inl h0
    · exact .inr (Nat.le_of_mul_le_mul_left h (Nat.pos_of_ne_zero h0))

theorem readCluster_inside_iff :
    Inside (readClusterAccesses disk (bytesPerCluster disk)) ↔ SectorsFit disk := by
  rw [sectorsFit_iff, readClusterAccesses]
  simp only [Inside, List.forall_mem_map, List.mem_range, Storage.readSectorAccess,
    Access.Inside, Nat.min_self]
  constructor
  · intro h
    cases hs : sectorsPerCluster disk with
    | zero => simp
    | succ s =>
        have := h s (by omega)
        omega
  · intro h s hs
    have hle : (s + 1) * 512 ≤ sectorsPerCluster disk * 512 := Nat.mul_le_mul_right 512 hs
    rw [Nat.succ_mul] at hle
    exact Nat.le_trans hle h

/-- Where the sectors fit a cluster is read over the front of the buffer. -/
theorem readCluster_of_fit (h : SectorsFit disk) (hbuf : buf.length = bytesPerCluster disk) :
    readCluster disk c buf =
      .ok (clusterData disk c ++ buf.drop (sectorsPerCluster disk * 512)) := by
  have hfit : sectorsPerCluster disk * 512 ≤ buf.length := hbuf ▸ sectorsFit_iff.mp h
  rw [readCluster, foldlM_putAt (fun _ => length_readSector _) hfit, clusterData]

/-- What `rest` is behind, the sectors of a cluster, has a fixed length. -/
theorem length_sectors (disk : Disk) (c : Nat) :
    (clusterData disk c).length = sectorsPerCluster disk * 512 :=
  length_flatMap_range (fun _ => length_readSector _) _

/-- The word for `c`, where it lies in the sector that is read. -/
def linkOf (disk : Disk) (c : Nat) : Nat :=
  numAt 4 (entryOffset disk c) (Storage.readSector disk
    ((reservedSectors disk + c * 4 % 2 ^ 32 / bytesPerSector disk) % 2 ^ 32)) &&& 0x0FFFFFFF

theorem readFatEntry_of_fits (h0 : bytesPerSector disk ≠ 0) (h : EntryFits disk c) :
    readFatEntry disk c = .ok (linkOf disk c) := by
  have hfits := h.resolve_left h0
  rw [entryOffset] at hfits
  simp only [readFatEntry, if_neg h0, length_readSector, if_pos hfits]
  rfl

theorem readFatEntry_eq_ok {v : Nat} (h : readFatEntry disk c = .ok v) : v = linkOf disk c := by
  simp only [readFatEntry] at h
  split at h
  · cases h
  · split at h
    · cases h
      rfl
    · cases h

/-! ### Searching -/

theorem scan_inside {size i : Nat} {entries : List DirEntry}
    (h : (i + entries.length) * 32 ≤ size) : Inside (scanAccesses size fatName i entries) := by
  induction entries generalizing i with
  | nil => exact inside_nil
  | cons e entries ih =>
      rw [List.length_cons] at h
      have hrest := ih (i := i + 1) (by omega)
      have hhere : i * 32 + 32 ≤ size := by omega
      rw [scanAccesses]
      refine inside_cons.mpr ⟨by simp only [Access.Inside]; omega, ?_⟩
      split
      · exact inside_nil
      split
      · exact hrest
      refine inside_cons.mpr ⟨by simp only [Access.Inside]; omega, ?_⟩
      split
      · exact hrest
      refine inside_cons.mpr ⟨by simp only [Access.Inside]; omega, ?_⟩
      split
      · exact inside_cons.mpr ⟨hhere, inside_nil⟩
      · exact hrest

/-- What a cluster of a directory answers to a search, with `rest` in the buffer behind what was
read. -/
def answerIn (disk : Disk) (fatName rest : List UInt8) (c : Nat) : Option (Option DirEntry) :=
  scan fatName (entriesIn layout disk (clusterData disk c ++ rest))

/-- When a search from `start` stays inside its buffers: every sector of a cluster fits, and so does
every word of the FAT that is asked for before the search ends. -/
structure SearchInside (disk : Disk) (fatName rest : List UInt8) (start : Nat) : Prop where
  sectors : SectorsFit disk
  entries : ∀ k, Quiet (linkOf disk) EndMark (answerIn disk fatName rest) start k →
    answerIn disk fatName rest ((linkOf disk)^[k] start) = none →
    EntryFits disk ((linkOf disk)^[k] start)

/-- A buffer for a cluster that ends with `rest`. -/
structure EndsWith (disk : Disk) (rest buf : List UInt8) : Prop where
  length : buf.length = bytesPerCluster disk
  rest : buf.drop (sectorsPerCluster disk * 512) = rest

theorem EndsWith.readCluster (h : EndsWith disk rest buf) (hfit : SectorsFit disk) :
    Fat32.readCluster disk c buf = .ok (clusterData disk c ++ rest) ∧
      EndsWith disk rest (clusterData disk c ++ rest) := by
  have hle := sectorsFit_iff.mp hfit
  refine ⟨by rw [readCluster_of_fit hfit h.length, h.rest], ?_, ?_⟩
  · rw [← h.rest, List.length_append, length_sectors, List.length_drop, h.length]
    omega
  · exact List.drop_left' (length_sectors disk c)

theorem length_entriesIn (buf : List UInt8) :
    (entriesIn layout disk buf).length * 32 ≤ bytesPerCluster disk := by
  rw [entriesIn, List.length_map, List.length_range]
  exact Nat.div_mul_le_self ..

theorem searchTurn_inside_iff (h : EndsWith disk rest buf) (hfit : SectorsFit disk) :
    Inside (searchTurnAccesses disk fatName (c, buf)) ↔
      (answerIn disk fatName rest c = none → EntryFits disk c) := by
  obtain ⟨hread, hends⟩ := h.readCluster (c := c) hfit
  have hscan : Inside (scanAccesses (clusterData disk c ++ rest).length fatName 0
      (entriesIn layout disk (clusterData disk c ++ rest))) :=
    scan_inside (by rw [Nat.zero_add, hends.length]; exact length_entriesIn _)
  rw [searchTurnAccesses, inside_append, hread, h.length]
  simp only [inside_append, readCluster_inside_iff.mpr hfit, hscan, true_and]
  rw [answerIn]
  cases scan fatName (entriesIn layout disk (clusterData disk c ++ rest)) with
  | some r => simp
  | none => simp [readFatEntry_inside_iff]

/-- The loop goes on only from a cluster without an answer, to the one that it names. -/
theorem searchTurn_inl {v : Nat × List UInt8} (h : EndsWith disk rest buf) (hfit : SectorsFit disk)
    (ht : searchTurn layout disk fatName (c, buf) = .ok (.inl v)) :
    answerIn disk fatName rest c = none ∧ ¬ EndMark (linkOf disk c) ∧
      v = (linkOf disk c, clusterData disk c ++ rest) := by
  obtain ⟨hread, -⟩ := h.readCluster (c := c) hfit
  rw [searchTurn, hread, ok_bind] at ht
  rw [answerIn]
  cases ha : scan fatName (entriesIn layout disk (clusterData disk c ++ rest)) with
  | some r =>
      rw [ha] at ht
      cases ht
  | none =>
      simp only [ha] at ht
      obtain ⟨next, hnext, ht⟩ := bind_eq_ok.mp ht
      obtain rfl := readFatEntry_eq_ok hnext
      split at ht
      · cases ht
      · next hend =>
          cases ht
          exact ⟨rfl, hend, rfl⟩

theorem searchTurn_of_quiet (h : EndsWith disk rest buf) (hfit : SectorsFit disk)
    (h0 : bytesPerSector disk ≠ 0) (ha : answerIn disk fatName rest c = none)
    (hend : ¬ EndMark (linkOf disk c)) (hentry : EntryFits disk c) :
    searchTurn layout disk fatName (c, buf) =
      .ok (.inl (linkOf disk c, clusterData disk c ++ rest)) := by
  obtain ⟨hread, -⟩ := h.readCluster (c := c) hfit
  rw [answerIn] at ha
  rw [searchTurn, hread, ok_bind, ha]
  simp only [readFatEntry_of_fits h0 hentry, ok_bind]
  rw [if_neg hend]
  rfl

/-- The turns of a search begin at the clusters of the chain, up to the first that answers. -/
theorem searchTurn_reaches {u : Nat × List UInt8} (h : EndsWith disk rest buf)
    (hfit : SectorsFit disk) (hu : Reaches (searchTurn layout disk fatName) (start, buf) u) :
    ∃ k, u.1 = (linkOf disk)^[k] start ∧ EndsWith disk rest u.2 ∧
      Quiet (linkOf disk) EndMark (answerIn disk fatName rest) start k := by
  induction hu with
  | refl => exact ⟨0, rfl, h, fun k hk => absurd hk (Nat.not_lt_zero k)⟩
  | @snoc t v _ ht ih =>
      obtain ⟨k, hk, hends, hq⟩ := ih
      obtain ⟨c, buf'⟩ := t
      obtain rfl : c = _ := hk
      obtain ⟨ha, hend, rfl⟩ := searchTurn_inl hends hfit ht
      exact ⟨k + 1, by rw [Function.iterate_succ_apply'], (hends.readCluster hfit).2,
        hq.concat ha hend⟩

theorem search_inside_iff (h : EndsWith disk rest buf) :
    (∀ u, Reaches (searchTurn layout disk fatName) (start, buf) u →
      Inside (searchTurnAccesses disk fatName u)) ↔ SearchInside disk fatName rest start := by
  constructor
  · intro hin
    have hfit : SectorsFit disk := by
      have hfirst := (inside_append.mp (hin _ .refl)).1
      rw [h.length] at hfirst
      exact readCluster_inside_iff.mp hfirst
    refine ⟨hfit, fun k hq ha => ?_⟩
    by_cases h0 : bytesPerSector disk = 0
    · exact .inl h0
    -- the turns do come to the `k`-th cluster, as every word before was read
    have hreach : ∀ j ≤ k, ∃ buf', EndsWith disk rest buf' ∧
        Reaches (searchTurn layout disk fatName) (start, buf) ((linkOf disk)^[j] start, buf') := by
      intro j hj
      induction j with
      | zero => exact ⟨buf, h, .refl⟩
      | succ j ih =>
          obtain ⟨buf', hends, hr⟩ := ih (Nat.le_of_succ_le hj)
          obtain ⟨haj, hsj⟩ := hq j hj
          have hentry := (searchTurn_inside_iff hends hfit).mp (hin _ hr) haj
          rw [Function.iterate_succ_apply']
          exact ⟨_, (hends.readCluster hfit).2,
            hr.snoc (searchTurn_of_quiet hends hfit h0 haj hsj hentry)⟩
    obtain ⟨buf', hends, hr⟩ := hreach k (Nat.le_refl k)
    exact (searchTurn_inside_iff hends hfit).mp (hin _ hr) ha
  · rintro ⟨hfit, hentries⟩ ⟨c, buf'⟩ hu
    obtain ⟨k, hk, hends, hq⟩ := searchTurn_reaches h hfit hu
    refine (searchTurn_inside_iff hends hfit).mpr fun ha => ?_
    obtain rfl : c = _ := hk
    exact hentries k hq ha

/-! ### Reading -/

/-- The first `k` clusters from `c` on do not end the chain. -/
abbrev GoesOn (disk : Disk) (c k : Nat) : Prop :=
  Quiet (linkOf disk) EndMark (fun _ => (none : Option Unit)) c k

/-- When a read of `n` bytes, more than none, from `c` on stays inside its buffers. -/
structure ReadInside (disk : Disk) (c n : Nat) : Prop where
  sectors : SectorsFit disk
  entries : ∀ k, (k + 1) * bytesPerCluster disk < n → GoesOn disk c k →
    EntryFits disk ((linkOf disk)^[k] c)

theorem chunk_all_iff {n b : Nat} : n - min n b = 0 ↔ ¬ b < n := by omega

theorem readTurn_inside_iff {t : Reading} (h : EndsWith disk rest t.clusterBuf)
    (hfit : SectorsFit disk) (h0 : t.bytesRemaining ≠ 0) :
    Inside (readTurnAccesses disk t) ↔
      (bytesPerCluster disk < t.bytesRemaining → EntryFits disk t.currentCluster) := by
  obtain ⟨hread, hends⟩ := h.readCluster (c := t.currentCluster) hfit
  rw [readTurnAccesses, if_neg h0, inside_append, hread, h.length]
  simp only [inside_cons, readCluster_inside_iff.mpr hfit, true_and, chunk_all_iff, Access.Inside,
    Nat.zero_add, hends.length, Nat.min_le_right]
  by_cases hlt : bytesPerCluster disk < t.bytesRemaining
  · simp only [hlt, not_true_eq_false, if_false, true_imp_iff]
    exact readFatEntry_inside_iff ..
  · simp [hlt]

/-- What the loop goes on with, and from where. -/
structure ReadOn (disk : Disk) (rest : List UInt8) (t v : Reading) : Prop where
  more : bytesPerCluster disk < t.bytesRemaining
  link : ¬ EndMark (linkOf disk t.currentCluster)
  current : v.currentCluster = linkOf disk t.currentCluster
  remaining : v.bytesRemaining = t.bytesRemaining - bytesPerCluster disk
  buffer : v.clusterBuf = clusterData disk t.currentCluster ++ rest

theorem readTurn_inl {t v : Reading} {obuf : Nat} (h : EndsWith disk rest t.clusterBuf)
    (hfit : SectorsFit disk) (ht : readTurn disk obuf t = .ok (.inl v)) :
    ReadOn disk rest t v := by
  obtain ⟨hread, -⟩ := h.readCluster (c := t.currentCluster) hfit
  rw [readTurn] at ht
  split at ht
  · cases ht
  · rw [hread, ok_bind] at ht
    simp only [chunk_all_iff] at ht
    split at ht
    · cases ht
    · next hlt =>
        have hlt := not_not.mp hlt
        obtain ⟨next, hnext, ht⟩ := bind_eq_ok.mp ht
        obtain rfl := readFatEntry_eq_ok hnext
        split at ht
        · cases ht
        · next hend =>
            cases ht
            exact ⟨hlt, hend, rfl, by rw [Nat.min_eq_right (Nat.le_of_lt hlt)], rfl⟩

theorem readTurn_of_link {t : Reading} (obuf : Nat) (h : EndsWith disk rest t.clusterBuf)
    (hfit : SectorsFit disk) (h0 : bytesPerSector disk ≠ 0)
    (hlt : bytesPerCluster disk < t.bytesRemaining) (hend : ¬ EndMark (linkOf disk t.currentCluster))
    (hentry : EntryFits disk t.currentCluster) : ∃ v, readTurn disk obuf t = .ok (.inl v) := by
  obtain ⟨hread, -⟩ := h.readCluster (c := t.currentCluster) hfit
  rw [readTurn, if_neg (by omega), hread, ok_bind]
  simp only [chunk_all_iff, hlt, not_true_eq_false, if_false, readFatEntry_of_fits h0 hentry, ok_bind]
  exact ⟨_, if_neg hend⟩

/-- A turn at the `k`-th cluster, with `n` bytes to read from `c` on. -/
structure AtCluster (disk : Disk) (rest : List UInt8) (c n k : Nat) (t : Reading) : Prop where
  current : t.currentCluster = (linkOf disk)^[k] c
  remaining : t.bytesRemaining = n - k * bytesPerCluster disk
  more : t.bytesRemaining ≠ 0
  buffer : EndsWith disk rest t.clusterBuf

theorem AtCluster.next {t v : Reading} (h : AtCluster disk rest c n k t) (hfit : SectorsFit disk)
    (hon : ReadOn disk rest t v) : AtCluster disk rest c n (k + 1) v where
  current := by rw [hon.current, h.current, Function.iterate_succ_apply']
  remaining := by rw [hon.remaining, h.remaining, Nat.succ_mul, Nat.sub_sub]
  more := by
    have := hon.more
    rw [hon.remaining]
    omega
  buffer := by
    rw [hon.buffer]
    exact (h.buffer.readCluster hfit).2

theorem AtCluster.more_iff {t : Reading} (h : AtCluster disk rest c n k t) :
    bytesPerCluster disk < t.bytesRemaining ↔ (k + 1) * bytesPerCluster disk < n := by
  have := h.more
  rw [h.remaining] at this ⊢
  rw [Nat.succ_mul]
  omega

/-- The turns of a read begin at the clusters of the chain, as far as there are bytes to read. -/
theorem readTurn_reaches {t u : Reading} {obuf : Nat} (h : AtCluster disk rest c n 0 t)
    (hfit : SectorsFit disk) (hu : Reaches (readTurn disk obuf) t u) :
    ∃ k, AtCluster disk rest c n k u ∧ GoesOn disk c k := by
  induction hu with
  | refl => exact ⟨0, h, fun k hk => absurd hk (Nat.not_lt_zero k)⟩
  | snoc _ ht ih =>
      obtain ⟨k, hat, hq⟩ := ih
      have hon := readTurn_inl hat.buffer hfit ht
      exact ⟨k + 1, hat.next hfit hon, hq.concat rfl (hat.current ▸ hon.link)⟩

theorem readLoop_inside_iff {t : Reading} {obuf : Nat} (h : AtCluster disk rest c n 0 t) :
    (∀ u, Reaches (readTurn disk obuf) t u → Inside (readTurnAccesses disk u)) ↔
      ReadInside disk c n := by
  constructor
  · intro hin
    have hfit : SectorsFit disk := by
      have hfirst := hin _ .refl
      rw [readTurnAccesses, if_neg h.more, inside_append, h.buffer.length] at hfirst
      exact readCluster_inside_iff.mp hfirst.1
    refine ⟨hfit, fun k hlt hq => ?_⟩
    by_cases h0 : bytesPerSector disk = 0
    · exact .inl h0
    have hbefore : ∀ {j}, j ≤ k → (j + 1) * bytesPerCluster disk < n := fun hj =>
      Nat.lt_of_le_of_lt (Nat.mul_le_mul_right _ (Nat.succ_le_succ hj)) hlt
    -- the turns do come to the `k`-th cluster, as every word before was read
    have hreach : ∀ j ≤ k, ∃ u, AtCluster disk rest c n j u ∧ Reaches (readTurn disk obuf) t u := by
      intro j hj
      induction j with
      | zero => exact ⟨t, h, .refl⟩
      | succ j ih =>
          obtain ⟨u, hat, hr⟩ := ih (Nat.le_of_succ_le hj)
          have hmore := hat.more_iff.mpr (hbefore (Nat.le_of_succ_le hj))
          have hentry := (readTurn_inside_iff hat.buffer hfit hat.more).mp (hin _ hr) hmore
          obtain ⟨v, hv⟩ := readTurn_of_link obuf hat.buffer hfit h0 hmore
            (hat.current ▸ (hq j hj).2) hentry
          exact ⟨v, hat.next hfit (readTurn_inl hat.buffer hfit hv), hr.snoc hv⟩
    obtain ⟨u, hat, hr⟩ := hreach k (Nat.le_refl k)
    rw [← hat.current]
    exact (readTurn_inside_iff hat.buffer hfit hat.more).mp (hin _ hr) (hat.more_iff.mpr hlt)
  · rintro ⟨hfit, hentries⟩ u hu
    obtain ⟨k, hat, hq⟩ := readTurn_reaches h hfit hu
    refine (readTurn_inside_iff hat.buffer hfit hat.more).mpr fun hlt => ?_
    rw [hat.current]
    exact hentries k (hat.more_iff.mp hlt) hq

/-! ### Sectors of 512 bytes -/

theorem entryFits_of_512 (h : bytesPerSector disk = 512) (c : Nat) : EntryFits disk c := by
  refine .inr ?_
  rw [entryOffset, h]
  omega

theorem searchInside_of_512 (h : bytesPerSector disk = 512) :
    SearchInside disk fatName rest start :=
  ⟨.inr (Nat.le_of_eq h.symm), fun _ _ _ => entryFits_of_512 h _⟩

theorem readInside_of_512 (h : bytesPerSector disk = 512) : ReadInside disk c n :=
  ⟨.inr (Nat.le_of_eq h.symm), fun _ _ _ => entryFits_of_512 h _⟩

/-! ### Nothing undefined -/

theorem searchTurn_defined (h0 : bytesPerSector disk ≠ 0) (h : EndsWith disk rest buf)
    (hin : Inside (searchTurnAccesses disk fatName (c, buf))) :
    searchTurn layout disk fatName (c, buf) ≠ .error .undefined := by
  have hfit : SectorsFit disk := by
    rw [searchTurnAccesses, inside_append, h.length] at hin
    exact readCluster_inside_iff.mp hin.1
  obtain ⟨hread, -⟩ := h.readCluster (c := c) hfit
  have hentry := (searchTurn_inside_iff h hfit).mp hin
  rw [answerIn] at hentry
  rw [searchTurn, hread, ok_bind]
  cases ha : scan fatName (entriesIn layout disk (clusterData disk c ++ rest)) with
  | some r => rintro ⟨⟩
  | none =>
      rw [readFatEntry_of_fits h0 (hentry ha)]
      simp only [ok_bind]
      split <;> rintro ⟨⟩

/-- A search that stays inside its buffers comes to nothing undefined. -/
theorem search_defined (h0 : bytesPerSector disk ≠ 0) (h : EndsWith disk rest buf)
    (hin : SearchInside disk fatName rest start) (fuel : Nat) :
    search layout disk fatName fuel start buf ≠ .error .undefined := by
  refine turns_ne_error (by rintro ⟨⟩) ?_
  rintro ⟨c, buf'⟩ hu
  obtain ⟨k, -, hends, -⟩ := searchTurn_reaches h hin.sectors hu
  exact searchTurn_defined h0 hends ((search_inside_iff h).mpr hin _ hu)

theorem readLoop_defined {t : Reading} {obuf : Nat} (h0 : bytesPerSector disk ≠ 0)
    (h : AtCluster disk rest c n 0 t) (hin : ReadInside disk c n) (fuel : Nat) :
    turns (readTurn disk obuf) .running fuel t ≠ .error .undefined := by
  refine turns_ne_error (by rintro ⟨⟩) fun u hu => ?_
  obtain ⟨k, hat, -⟩ := readTurn_reaches h hin.sectors hu
  have hentry := (readTurn_inside_iff hat.buffer hin.sectors hat.more).mp
    ((readLoop_inside_iff h).mpr hin _ hu)
  obtain ⟨hread, -⟩ := hat.buffer.readCluster (c := u.currentCluster) hin.sectors
  rw [readTurn, if_neg hat.more, hread, ok_bind]
  simp only [chunk_all_iff]
  by_cases hlt : bytesPerCluster disk < u.bytesRemaining
  · rw [if_neg (not_not.mpr hlt), readFatEntry_of_fits h0 (hentry hlt)]
    simp only [ok_bind]
    split <;> rintro ⟨⟩
  · rw [if_pos hlt]
    rintro ⟨⟩

/-! ### The functions -/

section Kernel

variable {r : HeapRegion} {heap : Mem}

/-- The access to the whole sector is too long for the block of the boot sector. -/
theorem getPriority_inside_iff :
    Inside (getPriorityAccesses (KernelAllocator.buffers r) heap) ↔
      ¬ (KernelAllocator.buffers r).HasRoom BootSector.sizeof heap := by
  have hlawful := KernelAllocator.buffers_lawful r
  by_cases hroom : (KernelAllocator.buffers r).HasRoom BootSector.sizeof heap
  · obtain ⟨buf, heap', ha⟩ := hroom.buffer
    have hlen : buf.bytes.length = 502 := hlawful.sized ha
    rw [getPriorityAccesses, ha]
    exact iff_of_false (by simp [Storage.readSectorAccess, Access.Inside, hlen]) (not_not.mpr hroom)
  · obtain ⟨heap', ha⟩ := Allocator.refused hroom
    rw [getPriorityAccesses, ha]
    simp [hroom]

theorem inside_flatMap_states {σ ρ : Type} {ε : Type} {turn : σ → Except ε (σ ⊕ ρ)}
    {acc : σ → List Access} {s : σ} :
    (∀ fuel, Inside ((states turn fuel s).flatMap acc)) ↔
      ∀ u, Reaches turn s u → Inside (acc u) := by
  simp only [Inside, List.mem_flatMap]
  constructor
  · intro h u hu a ha
    obtain ⟨n, hn⟩ := exists_mem_states_iff.mpr hu
    exact h n a ⟨u, hn, ha⟩
  · rintro h fuel a ⟨u, hu, ha⟩
    exact h u (reaches_of_mem_states hu) a ha

theorem findDirEntryInDir_inside_iff (start : Nat) (filename : List UInt8) :
    (∀ fuel, Inside (findDirEntryInDirAccesses (KernelAllocator.buffers r) disk fuel start filename
        heap)) ↔
      ∀ fatName buf heap', makeFatName filename = some fatName →
        (KernelAllocator.buffers r).alloc (bytesPerCluster disk) heap = (some buf, heap') →
        SearchInside disk fatName (buf.bytes.drop (sectorsPerCluster disk * 512)) start := by
  cases hname : makeFatName filename with
  | none =>
      simp only [findDirEntryInDirAccesses, hname]
      exact iff_of_true (fun _ => inside_nil) nofun
  | some fatName =>
      by_cases hroom : (KernelAllocator.buffers r).HasRoom (bytesPerCluster disk) heap
      · obtain ⟨buf, heap', ha⟩ := hroom.buffer
        have hends : EndsWith disk (buf.bytes.drop (sectorsPerCluster disk * 512)) buf.bytes :=
          ⟨(KernelAllocator.buffers_lawful r).sized ha, rfl⟩
        simp only [findDirEntryInDirAccesses, hname, ha]
        rw [inside_flatMap_states, search_inside_iff hends]
        refine ⟨?_, fun h => h fatName buf heap' rfl rfl⟩
        rintro h _ _ _ ⟨⟩ ⟨⟩
        exact h
      · obtain ⟨heap', ha⟩ := Allocator.refused hroom
        simp only [findDirEntryInDirAccesses, hname, ha]
        exact iff_of_true (fun _ => inside_nil) nofun

theorem read_inside_iff (f : File) (obuf len : Nat) (m : Mem) :
    (∀ fuel, Inside (readAccesses (KernelAllocator.buffers r) disk fuel f obuf len m heap)) ↔
      ∀ fd, f.fsData = some fd → FileData.isDirectory fd = false →
        (KernelAllocator.buffers r).HasRoom (bytesPerCluster disk) heap → min len f.size ≠ 0 →
        ReadInside disk (FileData.cluster fd) (min len f.size) := by
  cases hfd : f.fsData with
  | none =>
      simp only [readAccesses, hfd]
      exact iff_of_true (fun _ => inside_nil) nofun
  | some fd =>
      cases hreg : FileData.isDirectory fd with
      | true =>
          simp only [readAccesses, hfd, hreg, if_true]
          refine iff_of_true (fun _ => inside_nil) ?_
          rintro _ ⟨⟩ hfile
          rw [hreg] at hfile
          cases hfile
      | false =>
          by_cases hroom : (KernelAllocator.buffers r).HasRoom (bytesPerCluster disk) heap
          · obtain ⟨buf, heap', ha⟩ := hroom.buffer
            simp only [readAccesses, hfd, hreg, ha, Bool.false_eq_true, if_false]
            rw [inside_flatMap_states]
            by_cases h0 : min len f.size = 0
            · -- nothing to read: the first turn is the last
              refine iff_of_true (fun u hu => ?_) fun fd' _ _ _ hne => absurd h0 hne
              have hstay : u.bytesRemaining = 0 := by
                induction hu with
                | refl => exact h0
                | snoc _ ht ih =>
                    rw [readTurn, if_pos ih] at ht
                    cases ht
              rw [readTurnAccesses, if_pos hstay]
              exact inside_nil
            · have hat : AtCluster disk (buf.bytes.drop (sectorsPerCluster disk * 512))
                  (FileData.cluster fd) (min len f.size) 0
                  ⟨min len f.size, 0, FileData.cluster fd, buf.bytes, m⟩ :=
                ⟨rfl, by simp, h0, (KernelAllocator.buffers_lawful r).sized ha, rfl⟩
              rw [readLoop_inside_iff hat]
              refine ⟨?_, fun h => h fd rfl hreg hroom h0⟩
              rintro h _ ⟨⟩ _ _ _
              exact h
          · obtain ⟨heap', ha⟩ := Allocator.refused hroom
            simp only [readAccesses, hfd, hreg, ha, Bool.false_eq_true, if_false]
            exact iff_of_true (fun _ => inside_nil) fun _ _ _ hr => absurd hr hroom

/-- **When every access lies inside**, for any disk and heap: the block for the boot sector is too
small, a word of the FAT has to lie in the first 512 bytes of its sector, and the sectors of a
cluster have to fit in the buffer. -/
theorem accesses_inside_iff (r : HeapRegion) (disk : Disk) (heap : Mem) :
    (Inside (getPriorityAccesses (KernelAllocator.buffers r) heap) ↔
      ¬ (KernelAllocator.buffers r).HasRoom BootSector.sizeof heap) ∧
    (∀ cluster, Inside (readFatEntryAccesses disk cluster) ↔ EntryFits disk cluster) ∧
    (∀ start filename, (∀ fuel, Inside (findDirEntryInDirAccesses (KernelAllocator.buffers r) disk
        fuel start filename heap)) ↔
      ∀ fatName buf heap', makeFatName filename = some fatName →
        (KernelAllocator.buffers r).alloc (bytesPerCluster disk) heap = (some buf, heap') →
        SearchInside disk fatName (buf.bytes.drop (sectorsPerCluster disk * 512)) start) ∧
    ∀ f obuf len m, (∀ fuel, Inside (readAccesses (KernelAllocator.buffers r) disk fuel f obuf len m
        heap)) ↔
      ∀ fd, f.fsData = some fd → FileData.isDirectory fd = false →
        (KernelAllocator.buffers r).HasRoom (bytesPerCluster disk) heap → min len f.size ≠ 0 →
        ReadInside disk (FileData.cluster fd) (min len f.size) :=
  ⟨getPriority_inside_iff, readFatEntry_inside_iff disk, findDirEntryInDir_inside_iff,
    read_inside_iff⟩

/-- The boot sector is stored over the end of its block by the first file system that asks. -/
theorem getPriority_overflows :
    ¬ Inside (getPriorityAccesses (KernelAllocator.buffers KernelAllocator.smallImage)
      (KernelAllocator.init KernelAllocator.smallImage fun _ => 0)) := by
  rw [getPriority_inside_iff, not_not]
  decide +kernel

end Kernel

end RivOS.Fat32
