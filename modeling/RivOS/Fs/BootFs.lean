import RivOS.Gen.Alpha
import RivOS.Storage.AtaPio

/-!
# Fs — Raw sectors

`drivers/fs/boot/boot.hpp`: under `/boot/` the file `sector=n` is sector `n` of the drive that is
not selected.  `open` does not look at what the allocator returns, and leaves the flag alone when it
succeeds.

A `Fat32.File` is a file together with the block that its `fsData` points to.

`write` passes half of its length on as a number of bytes, `read` the whole of it as a number of
words.

* `write_eq`, `read_eq`: what the two do to a sector.
* `writesThenReads_iff`: when a file gives back what was written to it.
-/

namespace RivOS

/-- `data` lies over the start of sector `s`, and every other byte of the disk is as it was. -/
structure Overwritten (disk disk' : Disk) (s : Nat) (data : List UInt8) : Prop where
  start : load (disk' s) 0 data.length = data
  rest : ∀ k, data.length ≤ k → disk' s k = disk s k
  others : ∀ i, i ≠ s → disk' i = disk i

namespace BootFileSystem

open AtaPio (Driver DriveSelect)
open Fat32 (numAt)
open Storage (winner)

/-! ### The driver -/

namespace FsData

def sizeof : Nat := 4

def sector (fsData : Buffer) : Nat := numAt 4 0 fsData.bytes

def put (fsData : Buffer) (sector : Word) : Buffer :=
  { fsData with bytes := toLE 4 sector.toNat ++ fsData.bytes.drop 4 }

end FsData

/-- The characters behind `/boot/sector=`. -/
def number (fp : CStr) : List UInt8 := (fp.chars.drop 6).drop 7

section Open

variable {σ : Type} (al : Allocator σ)

/-- `ret` is what the uninitialised `File` has in it, the flag `*obufFileExists`. -/
def «open» (ret : Fat32.File) (fp : CStr) (obufFileExists : Bool) (s : σ) :
    Except (Option Halt) ((Fat32.File × Bool) × σ) :=
  if !strBeginsWith (fp.chars.drop 6) (ascii ['s', 'e', 'c', 't', 'o', 'r', '=']) then
    .ok (({ ret with «exists» := false }, false), s)
  else if !strIsNumber (number fp) then .ok (({ ret with «exists» := false }, false), s)
  else if (stoi (number fp)).slt 0 then .ok (({ ret with «exists» := false }, false), s)
  else
    match al.alloc FsData.sizeof s with
    | (none, _) => .error (some .undefined)
    | (some fsData, s) =>
        .ok ((⟨some (FsData.put fsData (stoi (number fp))), 512, true⟩, obufFileExists), s)

def close (f : Fat32.File) (s : σ) : σ :=
  match f.fsData with
  | none => s
  | some fsData => al.free fsData s

/-- `open` has accepted the path of sector `s` and returned `f`. -/
def Opened (s : Nat) (f : Fat32.File) : Prop :=
  ∃ ret fp flag t flag' t', «open» al ret fp flag t = .ok ((f, flag'), t') ∧ f.exists = true ∧
    s = (stoi (number fp)).toNat

end Open

def write (f : Fat32.File) (conts : List UInt8) (len : Nat) (d : Driver) :
    Except (Option Halt) (FileSystemDriver.SuccessCodes × Driver) :=
  match f.fsData with
  | none => .error (some .undefined)
  | some fsData => do
      let (_, d) ← winner.writeSector conts (len / 2) (FsData.sector fsData)
        (winner.selectNextDrive d)
      return (.Sucess, winner.selectNextDrive d)

def read (f : Fat32.File) (len : Nat) (d : Driver) :
    Except (Option Halt) ((FileSystemDriver.SuccessCodes × List UInt8) × Driver) :=
  match f.fsData with
  | none => .error (some .undefined)
  | some fsData => do
      let ((_, out), d) ← winner.readSector len (FsData.sector fsData) (winner.selectNextDrive d)
      return ((.Sucess, out), winner.selectNextDrive d)

/-! ### What the calls do -/

variable {σ : Type} {al : Allocator σ} {f : Fat32.File} {s len : Nat} {d : Driver} {disk : Disk}
  {data : List UInt8}

theorem sector_put (fsData : Buffer) (sector : Word) :
    FsData.sector (FsData.put fsData sector) = sector.toNat := by
  have hlen : (toLE 4 sector.toNat).length = 4 := length_toLE ..
  have htake : ((toLE 4 sector.toNat ++ fsData.bytes.drop 4).drop 0).take 4 = toLE 4 sector.toNat :=
    (congrArg (List.take · _) hlen.symm).trans List.take_left
  rw [FsData.sector, FsData.put, numAt, htake, ofLE_toLE_of_lt sector.isLt]

/-- The sector of an open file is behind its `fsData`. -/
theorem Opened.fsData (h : Opened al s f) :
    ∃ fsData, f.fsData = some fsData ∧ FsData.sector fsData = s := by
  obtain ⟨ret, fp, flag, t, flag', t', h, hexists, rfl⟩ := h
  unfold «open» at h
  split at h
  · cases h
    cases hexists
  · split at h
    · cases h
      cases hexists
    · split at h
      · cases h
        cases hexists
      · split at h <;> cases h
        exact ⟨_, rfl, sector_put ..⟩

theorem write_eq {fsData : Buffer} (hf : f.fsData = some fsData) (hs : FsData.sector fsData = s)
    (hd : d.channel.drives d.driveSelect.next = some disk) (hlen : len / 2 ≤ data.length) :
    ∃ c, write f data len d = .ok (.Sucess, ⟨d.driveSelect, c⟩) ∧
      c.drives = Function.update d.channel.drives d.driveSelect.next
        (some (Function.update disk (s % 2 ^ 28)
          (store (disk (s % 2 ^ 28)) 0 (data.take (min (len / 2) 512))))) := by
  obtain ⟨c, hwrite, hdrives⟩ :=
    AtaPio.writeSector_eq (d := ⟨d.driveSelect.next, d.channel⟩) hd hlen s
  refine ⟨c, ?_, hdrives⟩
  have hback : winner.selectNextDrive ⟨d.driveSelect.next, c⟩ = ⟨d.driveSelect, c⟩ :=
    congrArg (Driver.mk · c) d.driveSelect.next_next
  have hsector : winner.writeSector data (len / 2) s (winner.selectNextDrive d) =
      .ok (.Sucess, ⟨d.driveSelect.next, c⟩) := hwrite
  simp only [write, hf, hs, hsector, ok_bind, hback]
  rfl

theorem read_eq {fsData : Buffer} (hf : f.fsData = some fsData) (hs : FsData.sector fsData = s)
    (hd : d.channel.drives d.driveSelect.next = some disk) (len : Nat) :
    ∃ c, read f len d =
      .ok ((.Sucess, (Storage.readSector disk (s % 2 ^ 28)).take (2 * min 256 len)),
        ⟨d.driveSelect, c⟩) := by
  obtain ⟨c, hread, -⟩ := AtaPio.readSector_eq (d := ⟨d.driveSelect.next, d.channel⟩) hd len s
  refine ⟨c, ?_⟩
  have hback : winner.selectNextDrive ⟨d.driveSelect.next, c⟩ = ⟨d.driveSelect, c⟩ :=
    congrArg (Driver.mk · c) d.driveSelect.next_next
  have hsector : winner.readSector len s (winner.selectNextDrive d) =
      .ok ((.Sucess, (Storage.readSector disk (s % 2 ^ 28)).take (2 * min 256 len)),
        ⟨d.driveSelect.next, c⟩) := hread
  simp only [read, hf, hs, hsector, ok_bind, hback]
  rfl

/-! ### Writing and reading back -/

/-- `data` written to `f`, the file of sector `s`, lies over the start of that sector on the drive
that is not selected, and a read of its length stores it and nothing else. -/
def WritesThenReads (f : Fat32.File) (s : Nat) (data : List UInt8) (d : Driver) (disk : Disk) :
    Prop :=
  ∃ d₁ d₂ disk', write f data data.length d = .ok (.Sucess, d₁) ∧
    d₁.channel.drives = Function.update d.channel.drives d.driveSelect.next (some disk') ∧
    Overwritten disk disk' s data ∧
    read f data.length d₁ = .ok ((.Sucess, data), d₂) ∧ d₂.driveSelect = d.driveSelect

/-- The disk after `write`. -/
def written (disk : Disk) (s : Nat) (data : List UInt8) : Disk :=
  Function.update disk (s % 2 ^ 28) (store (disk (s % 2 ^ 28)) 0 (data.take (data.length / 2)))

theorem writesThenReads_iff_written (h : Opened al s f)
    (hd : d.channel.drives d.driveSelect.next = some disk) (hlen : data.length ≤ 512) :
    WritesThenReads f s data d disk ↔ Overwritten disk (written disk s data) s data ∧
      (Storage.readSector (written disk s data) (s % 2 ^ 28)).take (2 * min 256 data.length) =
        data := by
  obtain ⟨fsData, hf, hs⟩ := h.fsData
  obtain ⟨c, hwrite, hdrives⟩ := write_eq hf hs hd (Nat.div_le_self data.length 2)
  rw [Nat.min_eq_left (Nat.le_trans (Nat.div_le_self ..) hlen)] at hdrives
  have hd₁ : c.drives d.driveSelect.next = some (written disk s data) :=
    (congrFun hdrives _).trans (Function.update_self ..)
  obtain ⟨c', hread⟩ := read_eq (d := ⟨d.driveSelect, c⟩) hf hs hd₁ data.length
  constructor
  · rintro ⟨d₁, d₂, disk', hw, hdrives', hover, hr, -⟩
    obtain rfl : d₁ = ⟨d.driveSelect, c⟩ := by
      rw [hwrite] at hw
      cases hw
      rfl
    have hdisk : some disk' = some (written disk s data) := by
      rw [← hd₁, hdrives', Function.update_self]
    obtain rfl := Option.some.inj hdisk
    rw [hread] at hr
    exact ⟨hover, (Prod.mk.inj (Prod.mk.inj (Except.ok.inj hr)).1).2⟩
  · rintro ⟨hover, hdata⟩
    rw [hdata] at hread
    exact ⟨_, _, _, hwrite, hdrives, hover, hread, rfl⟩

/-- A sector whose first bytes were replaced. -/
theorem readSector_store (hlen : data.length ≤ 512) (disk : Disk) (s : Nat) :
    Storage.readSector (Function.update disk s (store (disk s) 0 data)) s =
      data ++ (Storage.readSector disk s).drop data.length := by
  have hrest : load (store (disk s) 0 data) data.length (512 - data.length) =
      load (disk s) data.length (512 - data.length) :=
    load_congr fun _ hlo _ => store_of_not_mem (.inr (by rwa [Nat.zero_add]))
  rw [AtaPio.drop_readSector disk s hlen, Storage.readSector_eq_load, Function.update_self,
    show 512 = data.length + (512 - data.length) by omega, load_add, load_store, Nat.zero_add,
    Nat.add_sub_cancel_left, hrest]

/-- Of a whole sector the first half is written. -/
theorem readSector_written (hsize : data.length = 512) :
    Storage.readSector (written disk s data) (s % 2 ^ 28) =
      data.take 256 ++ (Storage.readSector disk (s % 2 ^ 28)).drop 256 := by
  have hhalf : (data.take 256).length = 256 := by rw [List.length_take, hsize]; rfl
  rw [written, hsize, readSector_store (by rw [hhalf]; decide), hhalf]

/-- Half of the bytes were written, and the count of words was right: the other half was there. -/
theorem half_of_written (hover : Overwritten disk (written disk s data) s data)
    (hsize : data.length = 512)
    (hread : Storage.readSector (written disk s data) (s % 2 ^ 28) = data) :
    (s < 2 ^ 28 ∧ data.drop 256 = (Storage.readSector disk s).drop 256) ∨
      (Storage.readSector disk s = data ∧ Storage.readSector disk (s % 2 ^ 28) = data) := by
  by_cases hs : s < 2 ^ 28
  · refine .inl ⟨hs, ?_⟩
    rw [readSector_written hsize, Nat.mod_eq_of_lt hs] at hread
    have hsecond := congrArg (List.drop 256) hread
    rwa [List.drop_left' (by rw [List.length_take, hsize]; rfl), eq_comm] at hsecond
  · -- the sector written is another one, and neither may have changed
    have hne : s % 2 ^ 28 ≠ s := fun he => hs (he ▸ Nat.mod_lt s (by decide))
    refine .inr ⟨?_, ?_⟩
    · rw [← hover.start, hsize, Storage.readSector_eq_load, written,
        Function.update_of_ne (Ne.symm hne)]
    · rw [← hread, Storage.readSector, Storage.readSector, hover.others _ hne]

/-- Where the sector holds all of the data, nothing changes. -/
theorem written_eq_self (hdata : Storage.readSector disk (s % 2 ^ 28) = data) :
    written disk s data = disk := by
  have hhalf : data.take (data.length / 2) = load (disk (s % 2 ^ 28)) 0 256 := by
    have hload : (load (disk (s % 2 ^ 28)) 0 256).length = 256 := length_load
    rw [← hdata, Storage.readSector_eq_load, length_load, show 512 = 256 + 256 from rfl, load_add]
    exact List.take_left' hload
  rw [written, hhalf, store_load, Function.update_eq_self]

/-- **When a file gives back what was written to it**: it was nothing, or a whole sector of which
the second half was there already. -/
theorem writesThenReads_iff (h : Opened al s f)
    (hd : d.channel.drives d.driveSelect.next = some disk) (hlen : data.length ≤ 512) :
    WritesThenReads f s data d disk ↔ data = [] ∨ data.length = 512 ∧
      ((s < 2 ^ 28 ∧ data.drop 256 = (Storage.readSector disk s).drop 256) ∨
        (Storage.readSector disk s = data ∧ Storage.readSector disk (s % 2 ^ 28) = data)) := by
  have hfull : ∀ disk s, (Storage.readSector disk s).length = 512 := fun disk s => by
    rw [Storage.readSector_eq_load, length_load]
  rw [writesThenReads_iff_written h hd hlen]
  constructor
  · rintro ⟨hover, hread⟩
    have hcount : min (2 * min 256 data.length) 512 = data.length := by
      rw [← hfull (written disk s data) (s % 2 ^ 28), ← List.length_take, hread]
    rcases Nat.eq_zero_or_pos data.length with h0 | hpos
    · exact .inl (List.length_eq_zero_iff.mp h0)
    · have hsize : data.length = 512 := by omega
      rw [List.take_of_length_le (by rw [hfull, hsize]; decide)] at hread
      exact .inr ⟨hsize, half_of_written hover hsize hread⟩
  · rintro (rfl | ⟨hsize, ⟨hs, hsecond⟩ | ⟨hdata, hother⟩⟩)
    · have hsame : written disk s [] = disk := Function.update_eq_self ..
      exact ⟨⟨rfl, fun _ _ => by rw [hsame], fun _ _ => by rw [hsame]⟩, rfl⟩
    · have hread : Storage.readSector (written disk s data) (s % 2 ^ 28) = data := by
        rw [readSector_written hsize, Nat.mod_eq_of_lt hs, ← hsecond, List.take_append_drop]
      refine ⟨⟨?_, fun k hk => ?_, fun i hi => Function.update_of_ne ?_ ..⟩, ?_⟩
      · rw [Nat.mod_eq_of_lt hs] at hread
        rw [hsize]
        exact (Storage.readSector_eq_load ..).symm.trans hread
      · rw [written, Nat.mod_eq_of_lt hs, Function.update_self]
        refine store_of_not_mem (.inr ?_)
        rw [Nat.zero_add, List.length_take]
        omega
      · rwa [Nat.mod_eq_of_lt hs]
      · rw [hread, List.take_of_length_le (by rw [hsize]; decide)]
    · rw [written_eq_self hother, hother]
      refine ⟨⟨?_, fun _ _ => rfl, fun _ _ => rfl⟩, List.take_of_length_le (by rw [hsize]; decide)⟩
      rw [hsize]
      exact (Storage.readSector_eq_load ..).symm.trans hdata

/-! ### A drive of zeros -/

def oneBlock : Allocator Unit := ⟨fun n s => (some ⟨0x200009, List.replicate n 0⟩, s), fun _ s => s⟩

/-- What `open` makes of `/boot/sector=0`. -/
def sectorZero : Fat32.File := ⟨some ⟨0x200009, [0, 0, 0, 0]⟩, 512, true⟩

theorem opened_zero : Opened oneBlock 0 sectorZero :=
  ⟨{}, .lit ['/', 'b', 'o', 'o', 't', '/', 's', 'e', 'c', 't', 'o', 'r', '=', '0'], false, (),
    false, (), rfl, rfl, rfl⟩

def zeros : Disk := fun _ _ => 0

def twoDrives : Driver :=
  ⟨.slavedrive, ⟨0, 0, 0, 0, 0, .none, 0, 0, fun _ => 3, fun _ => some zeros⟩⟩

theorem writesThenReads_zeros :
    WritesThenReads sectorZero 0 (List.replicate 512 0) twoDrives zeros := by
  have hzeros : Storage.readSector zeros 0 = List.replicate 512 0 := by
    rw [Storage.readSector, show zeros 0 = fun _ => 0 from rfl, List.map_const', List.length_range]
  exact (writesThenReads_iff opened_zero rfl (by rw [List.length_replicate])).mpr
    (.inr ⟨List.length_replicate, .inr ⟨hzeros, hzeros⟩⟩)

/-- One byte: none is written, and two are read. -/
theorem writesThenReads_byte :
    Opened oneBlock 0 sectorZero ∧ ¬ WritesThenReads sectorZero 0 [65] twoDrives zeros := by
  refine ⟨opened_zero, fun h => ?_⟩
  have hread := ((writesThenReads_iff_written opened_zero rfl (by decide)).mp h).2
  have hlen := congrArg List.length hread
  rw [List.length_take, Storage.readSector_eq_load, length_load] at hlen
  cases hlen

end BootFileSystem

end RivOS
