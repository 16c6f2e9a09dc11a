import RivOS.Gen.Conf

/-!
# Vfs — The drive table

`VFS::initFromSrc` (`vfs/vfs.hpp`), with `getAllSubsections` of `gen/conf/conf.hpp`: every section
`drives.*` of a configuration adds an entry to `driveEntries`.  The number of a drive is narrowed to
a byte on its way there.

* `Describes`: what a configuration says of the drives.
* `initFromSrc_eq`: the entries that are added.
* `tabulates_iff`: when the entries of `n` calls are the table that the configuration asks for.
-/

namespace RivOS

theorem CStr.ofBuffer_of_nulFree {buf : List UInt8} (h : 0 ∉ buf) : CStr.ofBuffer buf = ⟨buf, h⟩ :=
  CStr.ext (Config.cstr_eq h)

def Config.getAllSubsections (c : Config) (mainSection : List UInt8) : List (List UInt8) :=
  c.allSections.filter fun sv => mainSection.isPrefixOf sv

structure DriveEntry where
  id : UInt8
  fsName : List UInt8
deriving DecidableEq

namespace VFS

open Config (cstr)

def drivesDot : List UInt8 := ascii ['d', 'r', 'i', 'v', 'e', 's', '.']
def dotDrive : List UInt8 := ascii ['.', 'd', 'r', 'i', 'v', 'e']
def dotFs : List UInt8 := ascii ['.', 'f', 's']

/-- The body of the loop over the sections. -/
def addDrive (conf : Config) (driveEntries : List DriveEntry) (driveSection : List UInt8) :
    Except Halt (List DriveEntry) := do
  let driveVal ← orHalt (.panic valOnErr) (conf.mapping.get (cstr driveSection ++ dotDrive))
  let fsVal ← orHalt (.panic valOnErr) (conf.mapping.get (cstr driveSection ++ dotFs))
  match driveVal, fsVal with
  | .int intVal, .string strVal =>
      .ok (driveEntries ++ [⟨UInt8.ofNat intVal.toNat, cstr strVal⟩])
  | .int _, _ => kpanic "Invalid field (drives.*.fs)"
  | _, _ => kpanic "Invalid field (drives.*.drive)"

def initFromSrc (srcFsconf : CStr) (driveEntries : List DriveEntry) :
    Except Halt (List DriveEntry) := do
  let conf ← Config.parseSrc (Config.fresh srcFsconf)
  if conf.isErr then kpanic "Invalid filesystem config"
  else (conf.getAllSubsections drivesDot).foldlM (addDrive conf) driveEntries

/-! ### What a configuration says -/

/-- A section `drives.*`, with its `drive` and its `fs`. -/
structure Drive where
  name : CStr
  drive : Nat
  fsName : CStr

/-- The sections of `conf` for drives are `drives`, in order. -/
structure Describes (conf : Config) (drives : List Drive) : Prop where
  noErr : conf.isErr = false
  sections : conf.getAllSubsections drivesDot = drives.map (·.name.chars)
  distinct : (drives.map (·.name)).Nodup
  drive : ∀ d ∈ drives, ∃ intVal, conf.mapping.get (d.name.chars ++ dotDrive) = some (.int intVal) ∧
    intVal.toInt = d.drive
  fs : ∀ d ∈ drives, conf.mapping.get (d.name.chars ++ dotFs) = some (.string d.fsName.chars)

/-- The entry for a drive. -/
def Drive.entry (d : Drive) : DriveEntry := ⟨UInt8.ofNat d.drive, d.fsName.chars⟩

/-- The table has one entry for each drive, in order, with its number and its file system. -/
def Tabulates (driveEntries : List DriveEntry) (drives : List Drive) : Prop :=
  driveEntries.map (fun e => (e.id.toNat, e.fsName)) =
    drives.map fun d => (d.drive, d.fsName.chars)

variable {conf : Config} {drives ds : List Drive} {src : CStr} {entries : List DriveEntry} {d : Drive}
  {n : Nat}

theorem toNat_of_toInt {w : Word} (h : w.toInt = n) : w.toNat = n := by
  rw [BitVec.toInt_eq_toNat_cond] at h
  split at h <;> omega

theorem addDrive_eq (h : Describes conf drives) (hd : d ∈ drives) :
    addDrive conf entries d.name.chars = .ok (entries ++ [d.entry]) := by
  obtain ⟨w, hdrive, hw⟩ := h.drive d hd
  rw [addDrive, Config.cstr_eq d.name.nulFree, hdrive, h.fs d hd]
  simp only [orHalt, ok_bind, toNat_of_toInt hw, Config.cstr_eq d.fsName.nulFree, Drive.entry]

theorem foldlM_addDrive (h : Describes conf drives) (hds : ∀ d ∈ ds, d ∈ drives) :
    (ds.map (·.name.chars)).foldlM (addDrive conf) entries = .ok (entries ++ ds.map Drive.entry) := by
  induction ds generalizing entries with
  | nil => rw [List.map_nil, List.map_nil, List.append_nil]; rfl
  | cons d ds ih =>
      rw [List.map_cons, List.foldlM_cons, addDrive_eq h (hds d List.mem_cons_self), ok_bind,
        ih fun d' hd' => hds d' (.tail d hd'), List.map_cons, List.append_assoc]
      rfl

/-- **Every call adds every drive.** -/
theorem initFromSrc_eq (hparse : Config.parseSrc (Config.fresh src) = .ok conf)
    (h : Describes conf drives) :
    initFromSrc src entries = .ok (entries ++ drives.map Drive.entry) := by
  rw [initFromSrc, hparse, ok_bind, h.noErr, h.sections]
  exact foldlM_addDrive h fun _ => id

/-! ### The table -/

theorem tabulates_map_iff :
    Tabulates (drives.map Drive.entry) drives ↔ ∀ d ∈ drives, d.drive < 256 := by
  have hone : ∀ d : Drive,
      ((UInt8.ofNat d.drive).toNat, d.fsName.chars) = (d.drive, d.fsName.chars) ↔ d.drive < 256 := by
    intro d
    rw [Prod.mk.injEq, UInt8.toNat_ofNat', and_iff_left rfl]
    exact ⟨fun h => h ▸ Nat.mod_lt _ (by decide), fun h => Nat.mod_eq_of_lt h⟩
  rw [Tabulates, List.map_map, List.map_inj_left]
  exact forall₂_congr fun d _ => hone d

/-- **When the entries of `n` calls are the table**: one call, or nothing to add. -/
theorem tabulates_iff :
    Tabulates (List.replicate n (drives.map Drive.entry)).flatten drives ↔
      drives = [] ∨ n = 1 ∧ ∀ d ∈ drives, d.drive < 256 := by
  constructor
  · intro h
    rcases drives with - | ⟨d, drives⟩
    · exact .inl rfl
    · have hlen : n * (drives.length + 1) = drives.length + 1 := by
        simpa [Tabulates] using congrArg List.length h
      have hn : n = 1 := Nat.eq_of_mul_eq_mul_right (Nat.succ_pos _) (hlen.trans (Nat.one_mul _).symm)
      rw [hn, List.replicate_one, List.flatten_singleton] at h
      exact .inr ⟨hn, tabulates_map_iff.mp h⟩
  · rintro (rfl | ⟨rfl, hd⟩)
    · have hnil : (List.replicate n (([] : List Drive).map Drive.entry)).flatten = [] := by simp
      rw [hnil]
      rfl
    · rw [List.replicate_one, List.flatten_singleton]
      exact tabulates_map_iff.mpr hd

end VFS

end RivOS
