import RivOS.Fs.Fat32Bounds
import RivOS.Fs.OnHeap

/-!
# Fs — The block group descriptors of an ext2 disk

`Ext2::open` (`drivers/fs/ext2/ext2.hpp`) reads the block group descriptors and gives them back.  What
it computes with on the way is in the superblock, of which `getPriority` has asked the magic number
only.

* `open_safe_iff`: the superblocks on which it neither shifts too far, nor divides by zero, nor
  stores a sector behind its buffer.
* `open_returns_iff`: where there is a descriptor to read, these are those on which it returns.
-/

namespace RivOS.Ext2

open Fat32 (numAt)
open KernelAllocator (buffers)

variable {disk : Disk} {r : HeapRegion} {heap : Mem}

/-! ### The superblock -/

section Superblock

variable (disk : Disk)

/-- The exponent of `1024 << suprBlock->low.blockSize`. -/
def log2BlockSize : Nat := numAt 4 24 (Storage.readSector disk 2)

/-- Whether the driver takes the disk: the number is `EXT2_MAGIC`. -/
def getPriority : Bool := numAt 2 56 (Storage.readSector disk 2) = 0xEF53

def amountOfBgdEntries : Nat :=
  (totalBlocks disk + blocksInBlockGroup disk - 1) % 2 ^ 32 / blocksInBlockGroup disk

/-- `amountOfBgdEntries * BGDT_ENTRY_SIZE`. -/
def bgdtSize : Nat := amountOfBgdEntries disk * 32 % 2 ^ 32

end Superblock

/-! ### What may go wrong -/

/-- The operations of `open` that have a condition. -/
inductive Op where
  | shift (n : Nat)
  | div (d : Nat)
  | store (a : Access)

def Op.Safe : Op → Prop
  | .shift n => n < 32
  | .div d => d ≠ 0
  | .store a => a.Inside

/-- The operations of `open`, one after the other, up to one that is not safe; `blockToSector` shifts
once more.  Where there is no buffer there is no byte to store to. -/
def openOps {σ : Type} (al : Allocator σ) (disk : Disk) (s : σ) : List Op :=
  .shift (log2BlockSize disk) ::
    if 32 ≤ log2BlockSize disk then []
    else .shift (log2BlockSize disk) :: .div (blocksInBlockGroup disk) ::
      if blocksInBlockGroup disk = 0 then []
      else
        let bgdtBuffer := (al.alloc (bgdtSize disk) s).1
        (List.range ((bgdtSize disk + 511) / 512)).map fun i =>
          .store (Storage.readSectorAccess (bgdtBuffer.elim 0 fun b => b.bytes.length) (i * 512) 256)

/-- Whole sectors fit in a buffer of whole sectors only. -/
theorem sectors_inside_iff {n : Nat} :
    (∀ i < (n + 511) / 512, i * 512 + 512 ≤ n) ↔ n % 512 = 0 := by
  constructor
  · intro h
    by_contra hn
    have := h (n / 512) (by omega)
    omega
  · intro h i hi
    omega

/-- An entry has 32 bytes, a sector 16 entries. -/
theorem bgdtSize_mod : bgdtSize disk % 512 = 0 ↔ 16 ∣ amountOfBgdEntries disk := by
  rw [bgdtSize]
  omega

theorem stores_inside_iff :
    (∀ i < (bgdtSize disk + 511) / 512, i * 512 + 512 ≤
        ((buffers r).alloc (bgdtSize disk) heap).1.elim 0 fun b => b.bytes.length) ↔
      16 ∣ amountOfBgdEntries disk ∧
        (bgdtSize disk = 0 ∨ (buffers r).HasRoom (bgdtSize disk) heap) := by
  rw [← bgdtSize_mod]
  by_cases hroom : (buffers r).HasRoom (bgdtSize disk) heap
  · obtain ⟨buf, heap', ha⟩ := hroom.buffer
    have hlen := (KernelAllocator.buffers_lawful r).sized ha
    simp only [ha, Option.elim_some, hlen, hroom, or_true, and_true]
    exact sectors_inside_iff
  · obtain ⟨heap', ha⟩ := Allocator.refused hroom
    simp only [ha, Option.elim_none, hroom, or_false]
    constructor
    · intro h
      have hzero : bgdtSize disk = 0 := by
        by_contra hne
        have := h 0 (by omega)
        omega
      exact ⟨by rw [hzero], hzero⟩
    · rintro ⟨-, hzero⟩ i hi
      omega

/-- Past the shift and the division it is a matter of the buffer. -/
theorem ops_safe_iff (hshift : log2BlockSize disk < 32) (hdiv : blocksInBlockGroup disk ≠ 0) :
    (∀ op ∈ openOps (buffers r) disk heap, op.Safe) ↔
      16 ∣ amountOfBgdEntries disk ∧
        (bgdtSize disk = 0 ∨ (buffers r).HasRoom (bgdtSize disk) heap) := by
  rw [openOps, if_neg (Nat.not_le.mpr hshift), if_neg hdiv, ← stores_inside_iff]
  simp [Op.Safe, hshift, hdiv, Storage.readSectorAccess]

/-- **When opening is safe**: the block size fits in a word, there are blocks in a group, the
descriptors fill whole sectors, and the heap has room for them. -/
theorem open_safe_iff (r : HeapRegion) (disk : Disk) (heap : Mem) :
    (∀ op ∈ openOps (buffers r) disk heap, op.Safe) ↔
      log2BlockSize disk < 32 ∧ blocksInBlockGroup disk ≠ 0 ∧ 16 ∣ amountOfBgdEntries disk ∧
        (bgdtSize disk = 0 ∨ (buffers r).HasRoom (bgdtSize disk) heap) := by
  by_cases hshift : log2BlockSize disk < 32
  · by_cases hdiv : blocksInBlockGroup disk = 0
    · simp [openOps, hdiv, Op.Safe, Nat.not_le.mpr hshift]
    · rw [ops_safe_iff hshift hdiv]
      simp [hshift, hdiv]
  · simp [openOps, Op.Safe, hshift]

/-! ### `open` -/

/-- Pieces that were stored had room. -/
theorem fits_of_foldlM_putAt {g : Nat → List UInt8} {w n : Nat} {buf bs : List UInt8}
    (hg : ∀ i, (g i).length = w)
    (h : (List.range n).foldlM (fun buf i => Fat32.putAt (i * w) (g i) buf) buf = .ok bs) :
    bs.length = buf.length ∧ n * w ≤ buf.length := by
  induction n generalizing bs with
  | zero =>
      cases h
      exact ⟨rfl, by omega⟩
  | succ n ih =>
      rw [List.range_succ, List.foldlM_append] at h
      obtain ⟨bs', hn, hlast⟩ := bind_eq_ok.mp h
      obtain ⟨hlen, -⟩ := ih hn
      rw [List.foldlM_cons] at hlast
      obtain ⟨bs'', hput, hnil⟩ := bind_eq_ok.mp hlast
      cases hnil
      rw [Fat32.putAt, hg] at hput
      split at hput
      next hfits =>
        cases hput
        rw [← hlen, Nat.succ_mul]
        simp only [List.length_append, List.length_take, List.length_drop, hg]
        omega
      next => cases hput

theorem blockSize_eq (hshift : log2BlockSize disk < 32) :
    blockSize disk = .ok (1024 * 2 ^ log2BlockSize disk % 2 ^ 32) := by
  rw [log2BlockSize] at hshift
  simp only [blockSize, if_neg (Nat.not_le.mpr hshift)]
  rfl

/-- A power of two that is a multiple of 1024 is one of 512, also modulo `2 ^ 32`. -/
theorem blockToSector_eq (hshift : log2BlockSize disk < 32) (n : Nat) :
    blockToSector disk n =
      .ok (n * (1024 * 2 ^ log2BlockSize disk % 2 ^ 32 / 512) % 2 ^ 32) := by
  have hmod : 1024 * 2 ^ log2BlockSize disk % 2 ^ 32 % 512 = 0 := by omega
  rw [blockToSector, blockSize_eq hshift, ok_bind, if_neg (not_not.mpr hmod)]
  rfl

/-- Past the shift and the division, `open` returns where the descriptors fit. -/
theorem open_eq_ok_iff (hshift : log2BlockSize disk < 32) (hdiv : blocksInBlockGroup disk ≠ 0)
    (fp : Ptr) : (∃ heap', Ext2.open (buffers r) disk fp heap = .ok ({}, heap')) ↔
      16 ∣ amountOfBgdEntries disk ∧ (buffers r).HasRoom (bgdtSize disk) heap := by
  have hsize : (totalBlocks disk + blocksInBlockGroup disk - 1) % 2 ^ 32 /
      blocksInBlockGroup disk * 32 % 2 ^ 32 = bgdtSize disk := rfl
  rw [Ext2.open, blockSize_eq hshift, ok_bind, blockToSector_eq hshift, ok_bind, if_neg hdiv]
  simp only [hsize]
  by_cases hroom : (buffers r).HasRoom (bgdtSize disk) heap
  · obtain ⟨buf, heap', ha⟩ := hroom.buffer
    have hlen : buf.bytes.length = bgdtSize disk := (KernelAllocator.buffers_lawful r).sized ha
    rw [ha, ← bgdtSize_mod]
    simp only [hroom, and_true]
    constructor
    · rintro ⟨_, hret⟩
      split at hret
      next => cases hret
      next bs hbs =>
        obtain ⟨-, hfits⟩ := fits_of_foldlM_putAt (fun _ => Fat32.length_readSector _) hbs
        omega
    · intro hwhole
      rw [Fat32.foldlM_putAt (fun _ => Fat32.length_readSector _) (by omega)]
      exact ⟨_, rfl⟩
  · obtain ⟨heap', ha⟩ := Allocator.refused hroom
    rw [ha]
    simp [hroom]

/-- Where there is a descriptor, what is safe is what returns. -/
theorem open_returns_iff (hshift : log2BlockSize disk < 32) (hdiv : blocksInBlockGroup disk ≠ 0)
    (hbgdt : bgdtSize disk ≠ 0) (fp : Ptr) :
    (∃ heap', Ext2.open (buffers r) disk fp heap = .ok ({}, heap')) ↔
      ∀ op ∈ openOps (buffers r) disk heap, op.Safe := by
  rw [open_eq_ok_iff hshift hdiv, ops_safe_iff hshift hdiv]
  simp [hbgdt]

/-- One block in one group. -/
def tinyDisk : Disk := Fat32.diskOf [(2, 4, [1]), (2, 32, [1]), (2, 56, [0x53, 0xEF])]

theorem bgdtSize_tinyDisk : bgdtSize tinyDisk = 32 := by decide +kernel

/-- Its one descriptor has 32 bytes, and a sector is stored in them. -/
theorem open_overflows : getPriority tinyDisk = true ∧
    ¬ ∀ op ∈ openOps (buffers KernelAllocator.smallImage) tinyDisk
      (KernelAllocator.init KernelAllocator.smallImage fun _ => 0), op.Safe := by
  refine ⟨by decide +kernel, fun h => ?_⟩
  have hwhole := bgdtSize_mod.mpr
    ((ops_safe_iff (by decide +kernel) (by decide +kernel)).mp h).1
  rw [bgdtSize_tinyDisk] at hwhole
  omega

end RivOS.Ext2
