import RivOS.InitRamFs.Init
import RivOS.Sys.Multiboot

/-!
# InitRamFs — The module of the boot loader

`InitRamFs::init` (`initramfs/init.hpp`) from its start: the image is the module that the boot loader
has loaded, and only the first module there is can be it.  The memory for the handle of the image is
there, and the gate for the calls of the drivers is left out.

* `findModule_eq`: what is mounted.
* `boot_initramfs`: the drives that the kernel ends with, from what the boot loader hands over.
-/

namespace RivOS

open RivFs Genfs
open Multiboot (Tag bootInfo findTag)

namespace InitRamFs

/-! ### The code -/

def isInitramfs : CStr := .lit ['I', 'S', '_', 'I', 'N', 'I', 'T', 'R', 'A', 'M', 'F', 'S']

def noModule : String := "Unable to find initramfs module!"

def otherModule : String :=
  "A module was found, however the command line does NOT eq IS_INITRAMFS. " ++
    "Please check for extra modules or whether /boot/initramfs.img exists " ++
    "(and/or is loaded somewhere.) NOTE: This is TODO"

/-- The handle of the image. -/
def findModule (mem : PMem) (mbiAddr : UInt32) : Except Halt RivFs := do
  match ← findTag mem 3 mbiAddr with
  | none => kpanic noModule
  | some initramfsTag =>
      let same ← orHalt .undefined
        (peekEq mem (initramfsTag + 16).toNat (isInitramfs.chars ++ [0]))
      if !same then kpanic otherModule
      else
        let modStart ← Multiboot.field mem 4 initramfsTag 8
        let modEnd ← Multiboot.field mem 4 initramfsTag 12
        let size := UInt32.ofNat modEnd - UInt32.ofNat modStart
        return { rawFsMemloc := modStart, rawFsSize := size.toNat, fph := 0 }

def boot (mem : PMem) (b : BootStack) (mbiAddr : UInt32) (s : State) : Except Halt State := do
  let fs ← findModule mem mbiAddr
  init mem fs b s

/-! ### The module -/

variable {mem : PMem} {mbiAddr modStart modEnd : UInt32} {reserved a : Nat} {tags : List Tag}
  {cmdline : CStr} {root d : DirNode} {b : BootStack} {s t : Kernel × Mem} {cfg : List UInt8}
  {conf : Config} {drives : List VFS.Drive}

/-- Strings are compared up to the end of the shorter one. -/
theorem peekEq_cstr {xs ys : List UInt8} (hx : 0 ∉ xs) (hy : 0 ∉ ys) (h : Loaded mem a (xs ++ [0])) :
    peekEq mem a (ys ++ [0]) = some (decide (xs = ys)) := by
  induction ys generalizing xs a with
  | nil =>
      cases xs with
      | nil => simp [peekEq, h.head]
      | cons x xs =>
          have hne : x ≠ 0 := fun h0 => hx (h0 ▸ List.mem_cons_self)
          simp [peekEq, h.head, hne]
  | cons y ys ih =>
      cases xs with
      | nil =>
          have hne : 0 ≠ y := fun h0 => hy (h0 ▸ List.mem_cons_self)
          simp [peekEq, h.head, hne]
      | cons x xs =>
          have ih := ih (fun hm => hx (.tail _ hm)) (fun hm => hy (.tail _ hm)) h.tail
          by_cases hxy : x = y <;> simp [peekEq, h.head, hxy, ih]

/-- The fields of a module's tag. -/
theorem fields_module {tag : UInt32}
    (h : Loaded mem tag.toNat (Tag.module modStart modEnd cmdline).bytes)
    (hend : tag.toNat + (Tag.module modStart modEnd cmdline).bytes.length ≤ 2 ^ 32) :
    Multiboot.field mem 4 tag 8 = .ok modStart.toNat ∧
      Multiboot.field mem 4 tag 12 = .ok modEnd.toNat ∧
        Loaded mem (tag + 16).toNat (cmdline.chars ++ [0]) := by
  have hall : At (Tag.module modStart modEnd cmdline).bytes 0
      (Tag.module modStart modEnd cmdline).bytes := List.prefix_refl _
  obtain ⟨-, hall⟩ := at_append_iff.mp hall
  obtain ⟨-, hall⟩ := at_append_iff.mp hall
  rw [Tag.data, List.append_assoc] at hall
  obtain ⟨hstart, hall⟩ := at_append_iff.mp hall
  rw [List.append_assoc] at hall
  obtain ⟨hlast, hall⟩ := at_append_iff.mp hall
  obtain ⟨hcmdline, -⟩ := at_append_iff.mp hall
  simp only [length_toLE, Nat.zero_add, Nat.reduceAdd] at hstart hlast hcmdline
  have hle := hcmdline.le (by simp)
  rw [List.length_append, List.length_singleton] at hle
  have haddr : (tag + 16).toNat = tag.toNat + 16 := by
    rw [UInt32.toNat_add, show (16 : UInt32).toNat = 16 from rfl]
    omega
  exact ⟨Multiboot.field_eq h hend hstart modStart.toNat_lt (by decide),
    Multiboot.field_eq h hend hlast modEnd.toNat_lt (by decide), haddr ▸ h.at hcmdline⟩

/-- What is mounted: the first module, which has to have the name. -/
theorem findModule_eq (h : Loaded mem mbiAddr.toNat (bootInfo reserved tags))
    (hend : mbiAddr.toNat + (bootInfo reserved tags).length ≤ 2 ^ 32) :
    findModule mem mbiAddr = match tags.findSome? Tag.module? with
      | none => kpanic noModule
      | some (modStart, modEnd, cmdline) =>
          if cmdline = isInitramfs then .ok ⟨modStart.toNat, (modEnd - modStart).toNat, 0⟩
          else kpanic otherModule := by
  obtain ⟨r, hr, hfound⟩ := Multiboot.findTag_spec 3 h hend
  rw [findModule, hr, ok_bind, Multiboot.findSome?_kind Multiboot.isSome_module?]
  rcases hfound with ⟨hnone, rfl⟩ | ⟨t, a, hsome, rfl, hloaded, hlast⟩
  · rw [hnone]
    rfl
  · obtain ⟨modStart, modEnd, cmdline, rfl⟩ :=
      Multiboot.exists_module (by simpa using List.find?_some hsome)
    obtain ⟨hstart, hlast, hcmdline⟩ := fields_module hloaded hlast
    have hsame := peekEq_cstr cmdline.nulFree isInitramfs.nulFree hcmdline
    have hiff : cmdline.chars = isInitramfs.chars ↔ cmdline = isInitramfs :=
      ⟨CStr.ext, congrArg _⟩
    simp only [hsome, Option.bind_some, Tag.module?, hsame, hiff, orHalt, ok_bind]
    by_cases hname : cmdline = isInitramfs
    · simp only [hname, decide_true, Bool.not_true, hstart, hlast, ok_bind, UInt32.ofNat_toNat,
        if_true]
      rfl
    · simp only [hname, decide_false, Bool.not_false, if_false]
      rfl

/-- The image is the module. -/
theorem mounted_module {img : List UInt8} (h : Loaded mem modStart.toNat img)
    (hlen : modEnd.toNat = modStart.toNat + img.length) :
    Mounted mem ⟨modStart.toNat, (modEnd - modStart).toNat, 0⟩ img := by
  have hlt := modEnd.toNat_lt
  refine ⟨h, ?_, ?_⟩
  · simp only
    rw [UInt32.toNat_sub_of_le _ _ (UInt32.le_iff_toNat_le.mpr (by omega))]
    omega
  · simp only
    omega

/-- **The drives of the kernel**, from what the boot loader hands over.  Without a module, or where the
first one has another name, `init` panics.  Otherwise, if the module holds the image of a tree whose
drivers can be loaded, and `getDirIt` gets to `/drv/fs`, every driver enters all drives that
`/etc/fs.cfg` describes. -/
theorem boot_initramfs (h : Loaded mem mbiAddr.toNat (bootInfo reserved tags))
    (hend : mbiAddr.toNat + (bootInfo reserved tags).length ≤ 2 ^ 32) (s : Kernel × Mem) :
    (tags.findSome? Tag.module? = none → boot mem b mbiAddr ⟨s.1, s.2, []⟩ = kpanic noModule) ∧
    ∀ modStart modEnd cmdline, tags.findSome? Tag.module? = some (modStart, modEnd, cmdline) →
      (cmdline ≠ isInitramfs → boot mem b mbiAddr ⟨s.1, s.2, []⟩ = kpanic otherModule) ∧
      ∀ junk root d cfg conf drives t, cmdline = isInitramfs → Representable root →
        Loaded mem modStart.toNat (main junk root) →
        modEnd.toNat = modStart.toNat + (main junk root).length → HasDir root [drv, fsDir] d →
        Loads root b (d.subdirs.map (·.name)) s t → HasFile root [etc, fsCfg] cfg →
        Config.parseSrc (Config.fresh (CStr.ofBuffer cfg)) = .ok conf → VFS.Describes conf drives →
          (Reach root.subdirs.length root [drv, fsDir] d → boot mem b mbiAddr ⟨s.1, s.2, []⟩ =
            .ok ⟨t.1, t.2, (List.replicate ((d.subdirs.map (·.name)).countP isDriver)
              (drives.map VFS.Drive.entry)).flatten⟩) ∧
          (¬ Reach root.subdirs.length root [drv, fsDir] d → boot mem b mbiAddr ⟨s.1, s.2, []⟩ =
            kpanic "Corrupt initramfs: /drv/fs did not exist") := by
  have hfind := findModule_eq h hend
  refine ⟨fun hnone => ?_, fun modStart modEnd cmdline hsome => ⟨fun hname => ?_, ?_⟩⟩
  · rw [boot, hfind, hnone]
    rfl
  · rw [boot, hfind, hsome]
    simp only [if_neg hname]
    rfl
  · intro junk root d cfg conf drives t hname hr hloaded hlen hdir hl hcfg hparse hdesc
    have hm := mounted_module hloaded hlen
    have hlt : (main junk root).length < 2 ^ 32 := by
      have hlt := modEnd.toNat_lt
      omega
    have hboot : boot mem b mbiAddr ⟨s.1, s.2, []⟩ =
        init mem ⟨modStart.toNat, (modEnd - modStart).toNat, 0⟩ b ⟨s.1, s.2, []⟩ := by
      rw [boot, hfind, hsome]
      simp only [if_pos hname, ok_bind]
    rw [hboot]
    rcases init_cases junk hr hm hlt hdir hl hcfg hparse hdesc with ⟨hno, hinit⟩ | ⟨hyes, hinit⟩
    · exact ⟨fun hyes => absurd hyes hno, fun _ => hinit⟩
    · exact ⟨fun _ => hinit, fun hno => absurd hyes hno⟩

/-- What the boot loader hands over at `0x9000`, and a module at `0x100000`. -/
def moduleMem (info img : List UInt8) : PMem := fun a =>
  if a < 0x100000 then info[a - 0x9000]? else img[a - 0x100000]?

theorem loaded_info {info img : List UInt8} (h : info.length ≤ 0x1000) :
    Loaded (moduleMem info img) (0x9000 : UInt32).toNat info := by
  intro i b hi
  have hlt := (List.getElem?_eq_some_iff.mp hi).1
  rw [moduleMem, show (0x9000 : UInt32).toNat = 0x9000 from rfl, if_pos (by omega),
    Nat.add_sub_cancel_left, hi]

theorem loaded_image {info img : List UInt8} :
    Loaded (moduleMem info img) (0x100000 : UInt32).toNat img := by
  intro i b hi
  rw [moduleMem, show (0x100000 : UInt32).toNat = 0x100000 from rfl, if_neg (by omega),
    Nat.add_sub_cancel_left, hi]

/-- The tags for a module of `n` bytes. -/
def moduleTags (n : Nat) : List Tag := [.module 0x100000 (.ofNat (0x100000 + n)) isInitramfs]

theorem length_moduleTags (n : Nat) : (bootInfo 0 (moduleTags n)).length = 48 := by
  simp [bootInfo, Multiboot.tagBytes, moduleTags, Multiboot.length_bytes, Tag.size, Tag.data,
    Multiboot.endTag, isInitramfs, CStr.lit, ascii]

/-- With one driver, every drive is entered once. -/
theorem boot_initramfs_some : ∃ img s', boot (moduleMem (bootInfo 0 (moduleTags img.length)) img)
      System.bootStack 0x9000 ⟨System.freshKernel 16 64, fun _ => 0, []⟩ = .ok s' ∧
    s'.driveEntries = [someDrive.entry] := by
  have hsize : 0x100000 + (main (fun _ => 0) (bootTree [aDrv])).length < 2 ^ 32 := by decide +kernel
  have ha : IsName aDrv := ⟨by decide, by decide, by decide⟩
  have hr : Representable (bootTree [aDrv]) :=
    bootTree_representable (names_singleton ha) (by decide) (by decide)
  obtain ⟨p, u, -, -, hload, -⟩ := exists_loads
  obtain ⟨f, hd⟩ := bootTree_driverDir (s := (System.freshKernel 16 64, fun _ => 0))
    (List.mem_cons_self : aDrv ∈ [aDrv]) hload
  obtain ⟨conf, hparse, hdesc⟩ := exists_drivesConf
  obtain ⟨img, himg⟩ : ∃ img, main (fun _ => 0) (bootTree [aDrv]) = img := ⟨_, rfl⟩
  rw [himg] at hsize
  have hinfo : (bootInfo 0 (moduleTags img.length)).length = 48 := length_moduleTags _
  have hend : (0x9000 : UInt32).toNat + (bootInfo 0 (moduleTags img.length)).length ≤ 2 ^ 32 := by
    rw [hinfo]
    decide
  have hlast : (UInt32.ofNat (0x100000 + img.length)).toNat =
      (0x100000 : UInt32).toNat + (main (fun _ => 0) (bootTree [aDrv])).length := by
    rw [UInt32.toNat_ofNat', Nat.mod_eq_of_lt hsize, himg]
    rfl
  have hloaded : Loaded (moduleMem (bootInfo 0 (moduleTags img.length)) img)
      (0x9000 : UInt32).toNat (bootInfo 0 (moduleTags img.length)) :=
    loaded_info (by rw [hinfo]; decide)
  have hboot := ((boot_initramfs hloaded hend (System.freshKernel 16 64, fun _ => 0)).2 _ _ _ rfl).2
    _ _ _ _ _ _ _ rfl hr (himg ▸ loaded_image) hlast bootTree_hasDir
    (.driver (by decide) hd .nil) bootTree_fsCfg hparse hdesc
  exact ⟨img, _, hboot.1 bootTree_reach, rfl⟩

end InitRamFs
end RivOS
