import RivOS.Fs.FileSystem
import RivOS.Proc.Isolation
import RivOS.Support.Buffers

/-!
# Proc — A program by its path

`loadProcessFromFile` (`proc/process.cpp`) with `fromFile` and `isValid` of `ElfExecutable`
(`proc/ELF/loader.hpp`).  The executable is a local that nothing initialises, so that `hdr` is what
the stack held until `fromFile` sets it; it does not on the paths that return 1, and what it returns
is not looked at.

* `isValidAt_eq`: the tests of `isValid`, made one after the other.
* `fromFile_eq_one_iff`: when `fromFile` returns 1, and that it has left `hdr` alone.
* `missing_iff`: a program that is not there is refused, and the kernel left as it was, exactly if what
  `hdr` happened to refer to is no valid header.
-/

namespace RivOS

/-- `hdr` stands for what may be read behind it, whenever it is read. -/
structure ElfExecutable where
  hdr : PMem
  fp : CStr

namespace ElfExecutable

/-! ### The header -/

/-- The fields that are tested after the magic: their sizes and offsets, and the values wanted. -/
def fields : List (Nat × Nat × Nat) :=
  [(1, 4, 1), (1, 5, 1), (4, 20, 1), (1, 7, 0), (1, 8, 0), (2, 16, 2), (2, 18, 0x03), (4, 20, 1)]

def fieldsValid (file : PMem) : List (Nat × Nat × Nat) → Option Bool
  | [] => some true
  | (k, off, v) :: rest => do
      let field ← peekLE file k off
      if field = v then fieldsValid file rest else return false

/-- `isValid` on what `hdr` refers to; nothing is read behind a field that is wrong. -/
def isValidAt (file : PMem) : Option Bool := do
  if ← peekEq file 0 elfMagic then fieldsValid file fields else return false

variable {file : PMem} {hdr : ElfHeader32}

theorem fieldsValid_cons {k off v w : Nat} {rest : List (Nat × Nat × Nat)}
    (h : peekLE file k off = some w) : fieldsValid file ((k, off, v) :: rest) =
      if w = v then fieldsValid file rest else some false := by
  rw [fieldsValid, h]
  rfl

/-- On a header that can be read, the tests are those of `isValid`. -/
theorem isValidAt_eq (h : ElfHeader32.read file = some hdr) :
    isValidAt file = some (isValid hdr) := by
  simp only [ElfHeader32.read, Option.bind_eq_bind, Option.bind_eq_some_iff] at h
  obtain ⟨magic, hmagic, bitness, hbitness, endianness, hendianness, osAbi, hosAbi, abiVersion,
    habiVersion, type, htype, instructionSet, hinstructionSet, version, hversion, _, _, _, _, _, _,
    _, _, h⟩ := h
  cases h
  obtain ⟨hlen, hget⟩ := peek_eq_some hmagic
  have hloaded : Loaded file 0 magic := fun i b hb => by
    obtain ⟨hi, rfl⟩ := List.getElem?_eq_some_iff.mp hb
    exact hget i hi
  have hend : fieldsValid file [] = some true := rfl
  rw [isValidAt, hloaded.peekEq (show magic.length = elfMagic.length from hlen)]
  simp only [fields, fieldsValid_cons hbitness, fieldsValid_cons hendianness,
    fieldsValid_cons hversion, fieldsValid_cons hosAbi, fieldsValid_cons habiVersion,
    fieldsValid_cons htype, fieldsValid_cons hinstructionSet, hend, isValid,
    Option.bind_eq_bind, Option.bind_some, decide_eq_true_eq, Option.pure_def]
  split_ifs <;> simp [*]

/-! ### Loading -/

section Loading

variable {μ δ : Type} (al : Allocator δ) (drivers : μ → FileSystemDriver δ) (fuel : Nat)

/-- `none` where a call of the file system has not returned. -/
def fromFile (fs : FileSystem μ δ) (elf : ElfExecutable) (ifp : CStr) :
    Option (Nat × ElfExecutable × FileSystem μ δ) := do
  let elf := { elf with fp := ifp }
  let (fd, fs) ← FileSystem.open drivers fuel fs elf.fp
  if fd = 0 then return (1, elf, fs)
  let size ← FileSystem.fileSize fs fd
  let (tmpbuf, drv) := al.alloc size.toNat fs.drv
  let ((code, bytes), fs) ← FileSystem.read drivers { fs with drv } fd size.toNat
  if code = .Error then return (1, elf, fs)
  -- the bytes are stored over those of the buffer, or from address 0 on if there is none
  let src := bytes ++ (tmpbuf.elim [] Buffer.bytes).drop bytes.length
  return (0, { elf with hdr := (src[·]?) }, fs)

end Loading

/-- A program is loaded if `isValid` says so.  That its block is given back then is left out. -/
def loadValid (elf : ElfExecutable) (b : BootStack) (priv : ProcessPriveledgeLevel) (k : Kernel)
    (mem : Mem) : Except Halt (Option Process × Kernel × Mem) := do
  if ← orHalt .fault (isValidAt elf.hdr) then
    let (proc, k, mem) ← load elf.hdr b priv k mem
    return (some proc, k, mem)
  else return (none, k, mem)

/-- A load gives a process, or does not come to its end. -/
theorem loadValid_eq_none_iff {elf : ElfExecutable} {b : BootStack} {priv : ProcessPriveledgeLevel}
    {k k' : Kernel} {mem mem' : Mem} : elf.loadValid b priv k mem = .ok (none, k', mem') ↔
      isValidAt elf.hdr = some false ∧ k' = k ∧ mem' = mem := by
  rw [loadValid]
  constructor
  · intro h
    obtain ⟨valid, hvalid, h⟩ := bind_eq_ok.mp h
    cases valid with
    | false =>
        cases h
        exact ⟨orHalt_eq_ok.mp hvalid, rfl, rfl⟩
    | true =>
        obtain ⟨⟨proc, k₁, mem₁⟩, -, h⟩ := bind_eq_ok.mp h
        cases h
  · rintro ⟨hvalid, rfl, rfl⟩
    rw [hvalid]
    rfl

end ElfExecutable

section

variable {μ δ : Type} (al : Allocator δ) (drivers : μ → FileSystemDriver δ) (fuel : Nat)

/-- `loadProcessFromFile`, with what the local `elf` starts with. -/
def loadProcessFromFile (b : BootStack) (fs : FileSystem μ δ) (elf : ElfExecutable) (fp : CStr)
    (priv : ProcessPriveledgeLevel) (k : Kernel) (mem : Mem) :
    Option (Except Halt (Option Process × Kernel × Mem) × FileSystem μ δ) :=
  (elf.fromFile al drivers fuel fs fp).map fun (_, elf, fs) => (elf.loadValid b priv k mem, fs)

/-- `open` gives no descriptor, or `read` of what it has opened fails; `fs'` is what that leaves. -/
def Missing (fs : FileSystem μ δ) (fp : CStr) (fs' : FileSystem μ δ) : Prop :=
  FileSystem.open drivers fuel fs fp = some (0, fs') ∨
    ∃ fd fs₁ size bytes, FileSystem.open drivers fuel fs fp = some (fd, fs₁) ∧ fd ≠ 0 ∧
      FileSystem.fileSize fs₁ fd = some size ∧
        FileSystem.read drivers { fs₁ with drv := (al.alloc size.toNat fs₁.drv).2 } fd size.toNat =
          some ((.Error, bytes), fs')

end

section Missing

variable {μ δ : Type} {al : Allocator δ} {drivers : μ → FileSystemDriver δ} {fuel : Nat}
  {fs fs' : FileSystem μ δ} {elf elf' : ElfExecutable} {fp : CStr} {b : BootStack}
  {priv : ProcessPriveledgeLevel} {k : Kernel} {mem : Mem}

/-- Where it returns 1, `fromFile` has left `hdr` as it was. -/
theorem ElfExecutable.fromFile_eq_one_iff :
    elf.fromFile al drivers fuel fs fp = some (1, elf', fs') ↔
      Missing al drivers fuel fs fp fs' ∧ elf' = { elf with fp } := by
  rw [fromFile]
  constructor
  · intro h
    obtain ⟨⟨fd, fs₁⟩, hopen, h⟩ := Option.bind_eq_some_iff.mp h
    dsimp only at h
    split at h
    · rename_i hfd
      cases h
      exact ⟨.inl (hfd ▸ hopen), rfl⟩
    · rename_i hfd
      obtain ⟨size, hsize, h⟩ := Option.bind_eq_some_iff.mp h
      obtain ⟨⟨⟨code, bytes⟩, fs₂⟩, hread, h⟩ := Option.bind_eq_some_iff.mp h
      dsimp only at h
      split at h
      · rename_i hcode
        cases h
        exact ⟨.inr ⟨fd, fs₁, size, bytes, hopen, hfd, hsize, hcode ▸ hread⟩, rfl⟩
      · cases h
  · rintro ⟨hopen | ⟨fd, fs₁, size, bytes, hopen, hfd, hsize, hread⟩, rfl⟩
    · exact Option.bind_eq_some_iff.mpr ⟨_, hopen, if_pos rfl⟩
    · refine Option.bind_eq_some_iff.mpr ⟨_, hopen, (if_neg hfd).trans ?_⟩
      exact Option.bind_eq_some_iff.mpr ⟨size, hsize,
        Option.bind_eq_some_iff.mpr ⟨_, hread, if_pos rfl⟩⟩

/-- A program that is not there is refused, and the kernel stays as it was, exactly if what `hdr`
happened to refer to can be read and is no valid header. -/
theorem missing_iff (h : Missing al drivers fuel fs fp fs') :
    (∃ mem' fs'', loadProcessFromFile al drivers fuel b fs elf fp priv k mem =
      some (.ok (none, k, mem'), fs'')) ↔ ElfExecutable.isValidAt elf.hdr = some false := by
  have hfrom : elf.fromFile al drivers fuel fs fp = some (1, { elf with fp }, fs') :=
    ElfExecutable.fromFile_eq_one_iff.mpr ⟨h, rfl⟩
  simp only [loadProcessFromFile, hfrom, Option.map_some, Option.some.injEq, Prod.mk.injEq,
    ElfExecutable.loadValid_eq_none_iff]
  exact ⟨fun ⟨_, _, hvalid, _⟩ => hvalid.1, fun hvalid => ⟨mem, fs', ⟨hvalid, trivial, rfl⟩, rfl⟩⟩

/-! ### A volume without files -/

/-- Mounted at `/`. -/
def noFiles : Unit → FileSystemDriver Unit := fun _ =>
  { «open» := fun _ s => ((⟨0, 0, false⟩, false), s)
    write := fun _ _ _ s => (.Error, s)
    read := fun _ _ s => ((.Error, []), s)
    close := fun _ s => s }

theorem zero_notMem_slash : 0 ∉ ascii ['/'] := by decide

def rootOnly : FileSystem Unit Unit :=
  ⟨[⟨.lit ['/'] zero_notMem_slash, ()⟩], 1, ⟨[]⟩, ()⟩

/-- A heap that is used up. -/
def noHeap : Allocator Unit := ⟨fun _ s => (none, s), fun _ s => s⟩

theorem exists_missing : ∃ fs', Missing noHeap noFiles 1 rootOnly (.lit ['/', 'a']) fs' := by
  have hfd : (FileSystem.open noFiles 1 rootOnly (.lit ['/', 'a'])).map Prod.fst = some 0 := by
    decide +kernel
  obtain ⟨⟨fd, fs'⟩, hopen, rfl⟩ := Option.map_eq_some_iff.mp hfd
  exact ⟨fs', .inl hopen⟩

open RivOS.System (freshKernel bootStack bareFile)

/-- With zeros behind `hdr`. -/
theorem missing_zeros : ∃ fs', Missing noHeap noFiles 1 rootOnly (.lit ['/', 'a']) fs' ∧
    ∃ mem' fs'', loadProcessFromFile noHeap noFiles 1 bootStack rootOnly
      ⟨fun _ => some 0, .lit ['/']⟩ (.lit ['/', 'a']) .User (freshKernel 16 64) (fun _ => 0) =
        some (.ok (none, freshKernel 16 64, mem'), fs'') := by
  obtain ⟨fs', h⟩ := exists_missing
  exact ⟨fs', h, (missing_iff h).mpr (by decide)⟩

/-- With an executable behind `hdr`, that one is loaded. -/
theorem missing_loads_stale : ∃ fs', Missing noHeap noFiles 1 rootOnly (.lit ['/', 'a']) fs' ∧
    (∃ p k' mem' fs'', loadProcessFromFile noHeap noFiles 1 bootStack rootOnly
      ⟨(bareFile[·]?), .lit ['/']⟩ (.lit ['/', 'a']) .User (freshKernel 16 64) (fun _ => 0) =
        some (.ok (some p, k', mem'), fs'') ∧ k'.latestPid = 2 ∧ k'.processes.length = 1) ∧
    ¬ ∃ mem' fs'', loadProcessFromFile noHeap noFiles 1 bootStack rootOnly
      ⟨(bareFile[·]?), .lit ['/']⟩ (.lit ['/', 'a']) .User (freshKernel 16 64) (fun _ => 0) =
        some (.ok (none, freshKernel 16 64, mem'), fs'') := by
  have hload : (loadProcessFromFile noHeap noFiles 1 bootStack rootOnly
      ⟨(bareFile[·]?), .lit ['/']⟩ (.lit ['/', 'a']) .User (freshKernel 16 64) fun _ => 0).map
        (fun r => r.1.map fun r => (r.1.isSome, r.2.1.latestPid, r.2.1.processes.length)) =
          some (.ok (true, 2, 1)) := by decide +kernel
  obtain ⟨fs', h⟩ := exists_missing
  obtain ⟨⟨_, fs''⟩, hcall, hproc⟩ := Option.map_eq_some_iff.mp hload
  obtain ⟨⟨p, k', mem'⟩, rfl, hobs⟩ := map_eq_ok.mp hproc
  cases p with
  | none => cases hobs
  | some p =>
      obtain ⟨hpid, hlength⟩ : k'.latestPid = 2 ∧ k'.processes.length = 1 := by simpa using hobs
      refine ⟨fs', h, ⟨p, k', mem', fs'', hcall, hpid, hlength⟩, ?_⟩
      rintro ⟨mem'', fs₂, hnone⟩
      cases hcall.symm.trans hnone

end Missing

end RivOS
