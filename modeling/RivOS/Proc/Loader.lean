import RivOS.Proc.Process

/-!
# Proc — The ELF loader

`proc/ELF/loader.hpp`.  The file is what may be read from `base` on.  A segment is mapped page by page
into the new directory, every page on a fresh frame, and then copied through that directory.
-/

namespace RivOS

/-- Of the header, what the loader reads. -/
structure ElfHeader32 where
  magic : List UInt8
  bitness : Nat
  endianness : Nat
  osAbi : Nat
  abiVersion : Nat
  type : Nat
  instructionSet : Nat
  version : Nat
  programEntry : Word
  programHeaderTableOffset : Nat
  programHeaderEntrySize : Nat
  programHeaderTableSize : Nat

/-- The fields at their offsets; the structure is packed. -/
def ElfHeader32.read (file : PMem) : Option ElfHeader32 := do
  return {
    magic := ← peek file 0 4
    bitness := ← peekLE file 1 4
    endianness := ← peekLE file 1 5
    osAbi := ← peekLE file 1 7
    abiVersion := ← peekLE file 1 8
    type := ← peekLE file 2 16
    instructionSet := ← peekLE file 2 18
    version := ← peekLE file 4 20
    programEntry := BitVec.ofNat 32 (← peekLE file 4 24)
    programHeaderTableOffset := ← peekLE file 4 28
    programHeaderEntrySize := ← peekLE file 2 42
    programHeaderTableSize := ← peekLE file 2 44 }

/-- A program header, the fields of a segment that is loaded. -/
structure ProgramHeader where
  contentsOffset : Nat
  virtualAddrStart : Word
  segmentFilesize : Word
  memSize : Word
deriving DecidableEq

namespace ProgramHeader

/-- `SEGMENTTYPE_LOAD`. -/
def segmentTypeLoad : Nat := 1

/-- The header at an offset, `none` inside for a kind of segment that is not loaded. -/
def read (file : PMem) (off : Nat) : Option (Option ProgramHeader) := do
  let segmentKind ← peekLE file 4 off
  if segmentKind = segmentTypeLoad then
    return some {
      contentsOffset := ← peekLE file 4 (off + 4)
      virtualAddrStart := BitVec.ofNat 32 (← peekLE file 4 (off + 8))
      segmentFilesize := BitVec.ofNat 32 (← peekLE file 4 (off + 16))
      memSize := BitVec.ofNat 32 (← peekLE file 4 (off + 20)) }
  else return none

variable (ph : ProgramHeader)

def vaddrBase : Word := ph.virtualAddrStart &&& ~~~0xFFF
def vaddrEnd : Word := (ph.virtualAddrStart + ph.memSize + 4095) &&& ~~~0xFFF
def pageCount : Nat := (ph.vaddrEnd - ph.vaddrBase).toNat / 4096

/-- The address of the `j`-th page of the segment. -/
def page (j : Nat) : Word := ph.vaddrBase + BitVec.ofNat 32 (j * 4096)

end ProgramHeader

namespace ElfExecutable

/-- `ELF_MAGIC`. -/
def elfMagic : List UInt8 := [0x7F, 0x45, 0x4C, 0x46]

def isValid (hdr : ElfHeader32) : Bool :=
  hdr.magic = elfMagic && hdr.bitness = 1 && hdr.endianness = 1 && hdr.version = 1 &&
    hdr.osAbi = 0 && hdr.abiVersion = 0 && hdr.type = 2 && hdr.instructionSet = 0x03

variable (file : PMem) (dir : Dir) (ph : ProgramHeader)

/-- A fresh frame for one page of a segment. -/
def mapPage (l : Mapping) (virt : Word) : Except Halt Mapping :=
  if l.frames.allocFrame.1 = 0 then kpanic "Out of memory"
  else l.enter dir virt l.frames.allocFrame

def mapSegment (l : Mapping) : Except Halt Mapping :=
  ((List.range ph.pageCount).map ph.page).foldlM (mapPage dir) l

/-- `memcpy` and `memset` through an address space. -/
def copySegment (pm : PageMap) (mem : Mem) : Except Halt Mem := do
  let contents ← orHalt .undefined (peek file ph.contentsOffset ph.segmentFilesize.toNat)
  let mem ← orHalt .fault (storeV pm mem ph.virtualAddrStart contents)
  orHalt .fault (storeV pm mem (ph.virtualAddrStart + ph.segmentFilesize)
    (List.replicate (ph.memSize - ph.segmentFilesize).toNat 0))

/-- One segment: mapped, then copied with its directory active. -/
def loadSegment (s : Mapping × Mem) : Except Halt (Mapping × Mem) := do
  let l ← mapSegment dir ph s.1
  let callerDirectory := l.mmu.activeDirectory
  let mmu := l.mmu.switchAddressSpace dir
  let mem ← copySegment file ph (mmu.pageMap mmu.activeDirectory) s.2
  return ({ l with mmu := mmu.switchAddressSpace callerDirectory }, mem)

/-- The `i`-th pass of the loop over the program headers. -/
def loadHeader (hdr : ElfHeader32) (s : Mapping × Mem) (i : Nat) : Except Halt (Mapping × Mem) := do
  let ph ← orHalt .undefined
    (ProgramHeader.read file (hdr.programHeaderTableOffset + i * hdr.programHeaderEntrySize))
  match ph with
  | some ph => loadSegment file dir ph s
  | none => return s

/-- The new process, and what has become of the kernel and the memory. -/
def load (b : BootStack) (priveledge : ProcessPriveledgeLevel) (k : Kernel) (mem : Mem) :
    Except Halt (Process × Kernel × Mem) := do
  let (pageDirectory, mmu) ← k.mmu.createAddressSpace b
  let hdr ← orHalt .undefined (ElfHeader32.read file)
  let (l, mem) ← (List.range hdr.programHeaderTableSize).foldlM (loadHeader file pageDirectory hdr)
    ({ mmu, frames := k.frames, pages := [] }, mem)
  let proc : Process :=
    { pid := k.latestPid
      priveledge
      pages := l.pages
      stackPages := []
      state := .loaded hdr.programEntry
      entryPoint := hdr.programEntry
      pageDirectory }
  return (proc, { k with
    mmu := l.mmu
    frames := l.frames
    processes := k.processes ++ [proc]
    latestPid := (k.latestPid + 1) % 2 ^ 32 }, mem)

/-! ### The parts of a load that comes to its end -/

variable {file dir ph} {b : BootStack} {priveledge : ProcessPriveledgeLevel} {k k' : Kernel}
  {l : Mapping} {mem mem' : Mem} {p : Process}

theorem loadSegment_cases {r : Mapping × Mem}
    (h : loadSegment file dir ph (l, mem) = .ok r) :
    mapSegment dir ph l = .ok r.1 ∧ copySegment file ph (r.1.mmu.pageMap dir) mem = .ok r.2 := by
  obtain ⟨l₁, hmap, h⟩ := bind_eq_ok.mp h
  obtain ⟨mem₁, hcopy, h⟩ := bind_eq_ok.mp h
  cases h
  simp only [Mmu.activeDirectory_switchAddressSpace, Mmu.pageMap_switchAddressSpace] at hcopy
  simp only [Mmu.switchAddressSpace_back]
  exact ⟨hmap, hcopy⟩

theorem loadHeader_cases {hdr : ElfHeader32} {i : Nat} {s s' : Mapping × Mem}
    (h : loadHeader file dir hdr s i = .ok s') :
    s' = s ∨ ∃ ph, ProgramHeader.read file
      (hdr.programHeaderTableOffset + i * hdr.programHeaderEntrySize) = some (some ph) ∧
      loadSegment file dir ph s = .ok s' := by
  obtain ⟨ph, hph, h⟩ := bind_eq_ok.mp h
  cases ph with
  | none =>
      cases h
      exact .inl rfl
  | some ph => exact .inr ⟨ph, orHalt_eq_ok.mp hph, h⟩

theorem load_cases (h : load file b priveledge k mem = .ok (p, k', mem')) :
    ∃ mmu hdr l, k.mmu.createAddressSpace b = .ok (p.pageDirectory, mmu) ∧
      ElfHeader32.read file = some hdr ∧
      (List.range hdr.programHeaderTableSize).foldlM (loadHeader file p.pageDirectory hdr)
        ({ mmu, frames := k.frames, pages := [] }, mem) = .ok (l, mem') ∧
      p.pages = l.pages ∧ k'.mmu = l.mmu ∧ k'.frames = l.frames ∧
      k'.processes = k.processes ++ [p] ∧ p.pid = k.latestPid ∧
      k'.latestPid = (k.latestPid + 1) % 2 ^ 32 ∧ k'.activeProcessPid = k.activeProcessPid := by
  obtain ⟨⟨dir, mmu⟩, hcreate, h⟩ := bind_eq_ok.mp h
  obtain ⟨hdr, hhdr, h⟩ := bind_eq_ok.mp h
  obtain ⟨⟨l, mem₁⟩, hloop, h⟩ := bind_eq_ok.mp h
  cases h
  exact ⟨mmu, hdr, l, hcreate, orHalt_eq_ok.mp hhdr, hloop, rfl, rfl, rfl, rfl, rfl, rfl, rfl⟩

end ElfExecutable

end RivOS
