import RivOS.Fs.OnHeap
import RivOS.Support.Runs

/-!
# Fs — What is left on the heap

Runs of `open` and `close` from a table without entries, beside a kernel that leaves the blocks of
the table and of its files alone.

* `Sound.open`, `Sound.close`: the blocks of the file system stay its own, and what `open` takes for a
  `MountPoint` is among nobody's.
* `open_leaves_residue`: whatever the path, the heap is not what it was after an `open` that returns
  0, nor after a `close` of what `open` returned.
-/

namespace RivOS.HeapFs

open KernelAllocator (Holding InUse buffers)

variable {r : HeapRegion} {t u v t₀ : HeapFs Mem} {others : List Buffer} {added : HeapFile}
  {disk : Disk} {fuel : Nat} {fp : Ptr} {fd k : Int}

/-- The array of the table, and what the files have. -/
def blocks (t : HeapFs Mem) : List Buffer :=
  t.arr :: t.fdMapping.entries.flatMap fun e => e.2.f.buffers

/-- The file system has its blocks, and there are the blocks `others` beside them. -/
structure Sound (r : HeapRegion) (t : HeapFs Mem) (others : List Buffer) : Prop where
  holding : Holding r t.heap (t.blocks ++ others)
  array : t.arr.bytes.length = t.capacity * entrySize

/-! ### One call -/

theorem Sound.grow (h : Sound r t others) (hg : grow (buffers r) t = .ok u) :
    Sound r u others ∧ u.fdMapping = t.fdMapping := by
  have hle := h.holding.length_le (List.mem_append_left _ List.mem_cons_self)
  rw [h.array] at hle
  have hsmall : t.capacity * 2 * entrySize ≤ 2 ^ 28 := by
    rw [Nat.mul_right_comm]
    exact Nat.mul_le_mul_right 2 hle
  have hcapacity : t.capacity * 2 < 2 ^ 32 := by
    have hpos : t.capacity * 2 ≤ t.capacity * 2 * entrySize := Nat.le_mul_of_pos_right _ (by decide)
    omega
  rw [HeapFs.grow, Nat.mod_eq_of_lt hcapacity,
    Nat.mod_eq_of_lt (Nat.lt_of_le_of_lt hsmall (by decide))] at hg
  split at hg
  · split at hg
    · cases hg
    next newArr heap ha =>
      cases hg
      obtain ⟨-, hlen, hnew⟩ := h.holding.alloc (Nat.le_trans hsmall (by decide)) ha
      exact ⟨⟨(hnew.perm (.swap ..)).free, hlen⟩, rfl⟩
  · cases hg
    exact ⟨h, rfl⟩

/-- An entry has the blocks of its file; where the descriptor has one already, they are lost. -/
theorem Sound.enter (h : Sound r t (added.f.buffers ++ others))
    (he : enter (buffers r) k added t = .ok u) : Sound r u others := by
  rw [HeapFs.enter] at he
  split at he
  · rw [Map.assign] at he
    cases hg : t.fdMapping.get k with
    | none =>
        rw [hg] at he
        cases he
    | some g =>
        rw [hg] at he
        cases he
        refine ⟨h.holding.sublist ?_, h.array⟩
        exact (List.sublist_append_right _ _).append_left _
  · obtain ⟨t', hgrow, he⟩ := bind_eq_ok.mp he
    cases he
    obtain ⟨⟨hheld, harray⟩, htable⟩ := h.grow hgrow
    refine ⟨?_, harray⟩
    have hblocks : ({ t' with fdMapping := t'.fdMapping.insert k added } : HeapFs Mem).blocks =
        t'.blocks ++ added.f.buffers := by
      simp [blocks, Map.insert]
    rw [hblocks, List.append_assoc]
    exact hheld

/-- What `open` has taken for itself is nobody's. -/
theorem Sound.open (h : Sound r t others)
    (ho : t.open (buffers r) disk fuel fp = .ok (fd, u)) :
    Sound r u (((buffers r).alloc sizeofMountPoint t.heap).1.toList ++ others) := by
  have h₁ : Holding r ((buffers r).alloc sizeofMountPoint t.heap).2
      (t.blocks ++ (((buffers r).alloc sizeofMountPoint t.heap).1.toList ++ others)) := by
    rcases ha : (buffers r).alloc sizeofMountPoint t.heap with ⟨_ | b, heap⟩
    · exact h.holding.refused (by decide) ha
    · exact (h.holding.alloc (by decide) ha).2.2.perm List.perm_middle.symm
  rw [HeapFs.open] at ho
  dsimp only at ho
  split at ho
  · cases ho
  · cases ho
    exact ⟨h₁, h.array⟩
  next mp _ =>
    obtain ⟨⟨f, heap⟩, hopen, ho⟩ := bind_eq_ok.mp ho
    obtain ⟨t', henter, ho⟩ := bind_eq_ok.mp ho
    dsimp only at ho
    split at ho
    · cases ho
    next found hfound =>
      cases ho
      have h₂ := driverOpen_holding h₁ hopen hfound
      have hsound : Sound r
          { t with latestFd := (t.latestFd + 1) % 2 ^ 32, heap }
          (f.buffers ++ (((buffers r).alloc sizeofMountPoint t.heap).1.toList ++ others)) :=
        ⟨h₂.perm (List.perm_append_comm_assoc ..), h.array⟩
      exact hsound.enter henter

theorem Sound.close (h : Sound r t others) (hc : t.close (buffers r) fd = .ok u) :
    Sound r u others := by
  rw [HeapFs.close] at hc
  split at hc
  · cases hc
    exact h
  split at hc
  · cases hc
  next f hget =>
    obtain ⟨heap, hclose, hc⟩ := bind_eq_ok.mp hc
    cases hc
    rw [Map.get_eq_find] at hget
    obtain ⟨pre, post, hsplit, herase⟩ := AssocVec.split_of_find hget
    have hblocks : (t.blocks ++ others).Perm (f.f.buffers ++
        (({ t with fdMapping := t.fdMapping.rmkey fd, heap } : HeapFs Mem).blocks ++ others)) := by
      rw [blocks, blocks, Map.rmkey_entries, herase, hsplit, List.flatMap_append,
        List.flatMap_cons, List.flatMap_append, List.cons_append, List.append_assoc,
        List.append_assoc, List.cons_append, List.append_assoc]
      exact List.perm_append_comm_assoc (t.arr :: pre.flatMap fun e => e.2.f.buffers) ..
    exact ⟨driverClose_holding (h.holding.perm hblocks) hclose, h.array⟩

/-! ### Runs -/

inductive Call where
  | opened (fd : Int)
  | closed (fd : Int)
  | other

/-- `open` on any path with any disk, `close` of any descriptor, or anything else in the kernel, which
does as it likes with the heap but for the blocks of the file system. -/
inductive Step (r : HeapRegion) (t : HeapFs Mem) : Call → HeapFs Mem → Prop where
  | opened {disk : Disk} {fuel : Nat} {fp : Ptr} {fd : Int} {u : HeapFs Mem}
      (h : t.open (buffers r) disk fuel fp = .ok (fd, u)) : Step r t (.opened fd) u
  | closed {fd : Int} {u : HeapFs Mem} (h : t.close (buffers r) fd = .ok u) :
      Step r t (.closed fd) u
  | other {heap : Mem} (h : Holding r t.heap t.blocks → Holding r heap t.blocks) :
      Step r t .other { t with heap }

/-- No file has been opened, and the array of the table is on the heap. -/
structure Booted (r : HeapRegion) (t : HeapFs Mem) : Prop where
  holding : Holding r t.heap [t.arr]
  array : t.arr.bytes.length = t.capacity * entrySize
  empty : t.fdMapping.entries = []

/-- Nothing has changed in the table, and the same blocks are in use. -/
def Untouched (r : HeapRegion) (t u : HeapFs Mem) : Prop :=
  u.fdMapping.entries = t.fdMapping.entries ∧ ∀ p, InUse r u.heap p ↔ InUse r t.heap p

theorem Booted.sound (h : Booted r t) : Sound r t [] where
  holding := by
    rw [blocks, h.empty]
    exact h.holding
  array := h.array

theorem sound_of_run {cs : List Call} (h : Booted r t₀) (run : Run (Step r) t₀ cs t) :
    Sound r t [] := by
  refine run.inv (I := fun t => Sound r t []) h.sound fun hs hstep => ?_
  cases hstep with
  | opened ho =>
      have hu := hs.open ho
      exact ⟨hu.holding.sublist (List.sublist_append_left _ _ |>.append_left _), hu.array⟩
  | closed hc => exact hs.close hc
  | other ho =>
      have hheld := hs.holding
      rw [List.append_nil] at hheld
      refine ⟨?_, hs.array⟩
      rw [List.append_nil]
      exact ho hheld

/-- A block that was not in use, and is nobody's afterwards. -/
theorem Sound.open_takes (h : Sound r t [])
    (hroom : (buffers r).HasRoom sizeofMountPoint t.heap)
    (ho : t.open (buffers r) disk fuel fp = .ok (fd, u)) :
    ∃ b, ¬ InUse r t.heap b.addr ∧ Sound r u [b] := by
  obtain ⟨b, heap, ha⟩ := hroom.buffer
  have hu := h.open ho
  rw [ha] at hu
  exact ⟨b, (h.holding.alloc (by decide) ha).1, hu⟩

/-- While there is such a block, something has changed. -/
theorem Sound.not_untouched {b : Buffer} (h : Sound r u [b]) (hfresh : ¬ InUse r t.heap b.addr) :
    ¬ Untouched r t u := by
  rintro ⟨-, hsame⟩
  exact hfresh ((hsame b.addr).mp (h.holding.inUse (List.mem_append_right _ List.mem_cons_self)))

/-- **What `open` takes for a `MountPoint` it never gives back**: not on a path that comes to
nothing, and not with the file that it opens. -/
theorem open_leaves_residue {cs : List Call} (h : Booted r t₀) (run : Run (Step r) t₀ cs t)
    (hroom : (buffers r).HasRoom sizeofMountPoint t.heap) (disk : Disk) (fuel : Nat) (fp : Ptr) :
    (∀ u, t.open (buffers r) disk fuel fp = .ok (0, u) → ¬ Untouched r t u) ∧
      ∀ fd u v, t.open (buffers r) disk fuel fp = .ok (fd, u) → fd ≠ 0 →
        u.close (buffers r) fd = .ok v → ¬ Untouched r t v := by
  have hsound := sound_of_run h run
  constructor
  · intro u ho
    obtain ⟨b, hfresh, hu⟩ := hsound.open_takes hroom ho
    exact hu.not_untouched hfresh
  · intro fd u v ho _ hc
    obtain ⟨b, hfresh, hu⟩ := hsound.open_takes hroom ho
    exact (hu.close hc).not_untouched hfresh

/-! ### A table without files -/

/-- Without an ext2 disk, on a heap that has nothing but the array. -/
def freshFs : HeapFs Mem :=
  let a := (buffers KernelAllocator.smallImage).alloc (5 * entrySize)
    (KernelAllocator.init KernelAllocator.smallImage fun _ => 0)
  { mountpoints := (FileSystem.mpCandidates Mp.ext2Root .dev .fat32Root .boot .virtKrn).tail.map
      fun c => ⟨c.mp, c.conts⟩
    latestFd := 1
    fdMapping := ⟨[]⟩
    arr := a.1.getD ⟨0, []⟩
    capacity := 5
    heap := a.2 }

theorem freshFs_booted : Booted KernelAllocator.smallImage freshFs := by
  have hinit : Holding KernelAllocator.smallImage
      (KernelAllocator.init KernelAllocator.smallImage fun _ => 0) [] :=
    ⟨List.nodup_nil, fun _ => none, ⟨_, init_heap fun _ => 0, fun _ _ h => by cases h⟩,
      fun _ h => by cases h⟩
  have hroom : (buffers KernelAllocator.smallImage).HasRoom (5 * entrySize)
      (KernelAllocator.init KernelAllocator.smallImage fun _ => 0) := by decide +kernel
  obtain ⟨b, heap, ha⟩ := hroom.buffer
  obtain ⟨-, hlen, hheld⟩ := hinit.alloc (by decide) ha
  refine ⟨?_, ?_, rfl⟩
  · rw [freshFs, ha]
    exact hheld
  · rw [freshFs, ha]
    exact hlen

theorem freshFs_room :
    (buffers KernelAllocator.smallImage).HasRoom sizeofMountPoint freshFs.heap := by
  decide +kernel

/-- `a` is no path, and costs a block. -/
theorem open_leaves_residue_refused : ∃ u,
    freshFs.open (buffers KernelAllocator.smallImage) (fun _ _ => 0) 5 (CStr.lit ['a']).ptr =
        .ok (0, u) ∧
      ¬ Untouched KernelAllocator.smallImage freshFs u := by
  have hrun : (freshFs.open (buffers KernelAllocator.smallImage) (fun _ _ => 0) 5
      (CStr.lit ['a']).ptr).map Prod.fst = .ok 0 := by decide +kernel
  obtain ⟨⟨_, u⟩, ho, rfl⟩ := map_eq_ok.mp hrun
  exact ⟨u, ho, (open_leaves_residue freshFs_booted .nil freshFs_room _ 5 _).1 u ho⟩

/-- `/dev/stdin`. -/
def stdinPath : Ptr := (CStr.lit ['/', 'd', 'e', 'v', '/', 's', 't', 'd', 'i', 'n']).ptr

/-- The first file that is opened and closed leaves a block in use. -/
theorem open_close_residue : Booted KernelAllocator.smallImage freshFs ∧
    (buffers KernelAllocator.smallImage).HasRoom sizeofMountPoint freshFs.heap ∧
    ∃ u v, freshFs.open (buffers KernelAllocator.smallImage) (fun _ _ => 0) 5 stdinPath =
        .ok (1, u) ∧
      u.close (buffers KernelAllocator.smallImage) 1 = .ok v ∧
      ¬ Untouched KernelAllocator.smallImage freshFs v := by
  have hrun : ((freshFs.open (buffers KernelAllocator.smallImage) (fun _ _ => 0) 5
      stdinPath).bind fun q => (q.2.close (buffers KernelAllocator.smallImage) 1).map
        fun _ => q.1) = .ok 1 := by decide +kernel
  obtain ⟨⟨fd, u⟩, ho, hrest⟩ := bind_eq_ok.mp hrun
  obtain ⟨v, hc, rfl⟩ := map_eq_ok.mp hrest
  obtain ⟨b, hfresh, hu⟩ := freshFs_booted.sound.open_takes freshFs_room ho
  exact ⟨freshFs_booted, freshFs_room, u, v, ho, hc, (hu.close hc).not_untouched hfresh⟩

end RivOS.HeapFs
