import RivOS.Fs.Fat32
import RivOS.Gen.Err

/-!
# Storage — ATA PIO

`drivers/storage/ATA_PIO/ata_pio.hpp`, with `driver.hpp` and `storage.hpp` of `drivers/storage`.

`Channel` is the hardware at the ports `0x1F0` to `0x1F7`: two drives, of which the drive select
register names one, and sectors that are what was last stored in them.  The number of a sector has
28 bits, in four registers.  After a command the status is busy for as many reads as `latency` says
for it, and a command in the middle of a transfer puts an end to that.

An error is the end of the machine, or `none` for a call that never returns.

* `readSector_eq`: what `readSector` stores, of the sector whose number is the low 28 bits.
* `writeSector_eq`: what `writeSector` leaves there; less than 512 bytes replace as many.
-/

namespace RivOS

namespace StorageDriver

inductive SuccessCodes where
  | Sucess
  | Error
deriving DecidableEq

end StorageDriver

open StorageDriver (SuccessCodes)

/-- The virtual functions that `Storage` calls; `readSector` also returns the bytes it stores. -/
structure StorageDriver (σ : Type) where
  getPriority : Int
  readSector : Nat → Nat → σ → Except (Option Halt) ((SuccessCodes × List UInt8) × σ)
  writeSector : List UInt8 → Nat → Nat → σ → Except (Option Halt) (SuccessCodes × σ)
  selectNextDrive : σ → σ

/-- The functions that a driver does not override. -/
def defaultStorageDriver {σ : Type} : StorageDriver σ where
  getPriority := -1
  readSector _ _ s := .ok ((.Error, []), s)
  writeSector _ _ _ s := .ok (.Error, s)
  selectNextDrive s := s

/-- The `winner` that `Storage::init` leaves. -/
def Storage.init {σ : Type} (candidates : List (StorageDriver σ)) : StorageDriver σ :=
  candidates.foldl (fun winner driver =>
    if driver.getPriority > winner.getPriority then driver else winner) defaultStorageDriver

namespace AtaPio

/-! ### Ports and values -/

def dataPort : UInt16 := 0x1F0
def sectorCountPort : UInt16 := 0x1F2
def lbaLoPort : UInt16 := 0x1F3
def lbaMiPort : UInt16 := 0x1F4
def lbaHiPort : UInt16 := 0x1F5
def driveSelectPort : UInt16 := 0x1F6
def commandPort : UInt16 := 0x1F7

def commandReadSectors : UInt8 := 0x20
def commandWriteSectors : UInt8 := 0x30

def statusBsy : UInt8 := 0x80
def statusDrq : UInt8 := 0x08
def statusErr : UInt8 := 0x01

inductive DriveSelect where
  | masterdrive
  | slavedrive
deriving DecidableEq

namespace DriveSelect

def code : DriveSelect → UInt8
  | masterdrive => 0xE0
  | slavedrive => 0xF0

def next (driveSelect : DriveSelect) : DriveSelect :=
  if driveSelect = slavedrive then masterdrive else slavedrive

@[simp] theorem next_next (driveSelect : DriveSelect) : driveSelect.next.next = driveSelect := by
  cases driveSelect <;> rfl

end DriveSelect

/-! ### The hardware -/

/-- What the data port is for: the bytes still to be fetched, or the sectors still to be stored and
the bytes of the first of them that have come. -/
inductive Transfer where
  | none
  | toHost (bytes : List UInt8)
  | toDrive (lba sectors : Nat) (bytes : List UInt8)
deriving DecidableEq

structure Channel where
  select : UInt8
  count : UInt8
  lbaLo : UInt8
  lbaMi : UInt8
  lbaHi : UInt8
  transfer : Transfer
  busy : Nat
  commands : Nat
  latency : Nat → Nat
  drives : DriveSelect → Option Disk

namespace Channel

def drive (c : Channel) : DriveSelect :=
  if c.select &&& 0x10 = 0 then .masterdrive else .slavedrive

def lba (c : Channel) : Nat :=
  (c.select &&& 0x0F).toNat * 2 ^ 24 + c.lbaHi.toNat * 2 ^ 16 + c.lbaMi.toNat * 2 ^ 8 +
    c.lbaLo.toNat

/-- A count of 0 stands for 256. -/
def sectors (c : Channel) : Nat := if c.count = 0 then 256 else c.count.toNat

/-- The drive is at work, and then `transfer` is what the data port is for. -/
def work (transfer : Transfer) (c : Channel) : Channel :=
  { c with transfer, busy := c.latency c.commands, commands := c.commands + 1 }

/-- The drive has done its work. -/
def ready (c : Channel) : Channel := { c with busy := 0 }

/-- A command to a drive that is not there goes nowhere. -/
def command (val : UInt8) (c : Channel) : Channel :=
  match c.drives c.drive with
  | none => c
  | some disk =>
      if val = commandReadSectors then
        c.work (.toHost ((List.range c.sectors).flatMap fun i =>
          Storage.readSector disk (c.lba + i)))
      else if val = commandWriteSectors then c.work (.toDrive c.lba c.sectors [])
      else c.work .none

def outb (port : UInt16) (val : UInt8) (c : Channel) : Channel :=
  if port = driveSelectPort then { c with select := val }
  else if port = sectorCountPort then { c with count := val }
  else if port = lbaLoPort then { c with lbaLo := val }
  else if port = lbaMiPort then { c with lbaMi := val }
  else if port = lbaHiPort then { c with lbaHi := val }
  else if port = commandPort then c.command val
  else c

def status (c : Channel) : UInt8 :=
  match c.drives c.drive with
  | none => 0
  | some _ =>
      if c.busy ≠ 0 then 0x80
      else match c.transfer with
        | .none => 0x50
        | _ => 0x58

/-- `inb(STATUS_PORT)`. -/
def inb (c : Channel) : UInt8 × Channel := (c.status, { c with busy := c.busy - 1 })

/-- `inw(DATA_PORT)`. -/
def inw (c : Channel) : UInt16 × Channel :=
  match c.transfer with
  | .toHost (lo :: hi :: bytes) =>
      (UInt16.ofNat (ofLE [lo, hi]),
        { c with transfer := if bytes = [] then .none else .toHost bytes })
  | _ => (0xFFFF, c)

/-- The last word of a sector has come: the drive stores the sector. -/
def storeSector (lba sectors : Nat) (bytes : List UInt8) (c : Channel) : Channel :=
  let disk := (c.drives c.drive).map fun disk =>
    Function.update disk lba (store (disk lba) 0 bytes)
  work (if sectors ≤ 1 then .none else .toDrive (lba + 1) (sectors - 1) [])
    { c with drives := Function.update c.drives c.drive disk }

/-- `outw(DATA_PORT, val)`. -/
def outw (val : UInt16) (c : Channel) : Channel :=
  match c.transfer with
  | .toDrive lba sectors bytes =>
      let bytes := bytes ++ toLE 2 val.toNat
      if bytes.length < 512 then { c with transfer := .toDrive lba sectors bytes }
      else c.storeSector lba sectors bytes
  | _ => c

/-! ### Waiting -/

def waitTurn (p : UInt8 → Bool) (c : Channel) : Except (Option Halt) (Channel ⊕ Channel) :=
  let (status, c) := c.inb
  .ok (if p status then .inl c else .inr c)

/-- `while (p(inb(STATUS_PORT))) ;`.  The status of a drive that is not busy does not change. -/
def waitWhile (p : UInt8 → Bool) (c : Channel) : Except (Option Halt) Channel :=
  loop (waitTurn p) none busy c

end Channel

/-! ### The driver -/

structure Driver where
  driveSelect : DriveSelect
  channel : Channel

/-- How `readSector`, and the write in `writeSector`, begin: all up to the command. -/
def address (sector : Nat) (d : Driver) : Channel :=
  let c := d.channel.outb driveSelectPort
    (d.driveSelect.code ||| UInt8.ofNat (sector >>> 24 &&& 0x0F))
  let c := c.inb.2.inb.2.inb.2.inb.2
  let c := c.outb sectorCountPort 1
  let c := c.outb lbaLoPort (UInt8.ofNat (sector &&& 0xFF))
  let c := c.outb lbaMiPort (UInt8.ofNat (sector >>> 8 &&& 0xFF))
  c.outb lbaHiPort (UInt8.ofNat (sector >>> 16 &&& 0xFF))

/-- `n` turns of `buf[i] = inw(DATA_PORT)`, and the bytes they store. -/
def readWords : Nat → Channel → List UInt8 × Channel
  | 0, c => ([], c)
  | n + 1, c =>
      let (word, c) := c.inw
      let (buf, c) := readWords n c
      (toLE 2 word.toNat ++ buf, c)

/-- `conts[i]` of a `u16*`. -/
def wordAt (conts : List UInt8) (i : Nat) : UInt16 :=
  UInt16.ofNat (ofLE ((conts.drop (2 * i)).take 2))

/-- `n` turns of `outw(DATA_PORT, conts[i])`. -/
def writeWords (conts : List UInt8) (n : Nat) (c : Channel) : Channel :=
  (List.range n).foldl (fun c i => c.outw (wordAt conts i)) c

/-- `readSector` from the command on. -/
def fetch (buflen : Nat) (c : Channel) : Except (Option Halt) (List UInt8 × Channel) :=
  let (status, c) := c.inb
  if status = 0 then .error (some (.panic "Drive did not exist"))
  else do
    let c ← c.waitWhile fun status => status &&& statusBsy ≠ 0
    let c ← c.waitWhile fun status => status &&& statusDrq = 0
    return readWords (min 256 buflen) c

def readSector (buflen sector : Nat) (d : Driver) :
    Except (Option Halt) ((SuccessCodes × List UInt8) × Driver) := do
  let (buf, c) ← fetch buflen ((address sector d).outb commandPort commandReadSectors)
  return ((.Sucess, buf), { d with channel := c })

/-- The write in `writeSector` from the command on. -/
def deliver (conts : List UInt8) (c : Channel) : Except (Option Halt) Channel := do
  let c ← c.waitWhile fun status => status &&& statusBsy ≠ 0
  let c ← c.waitWhile fun status => status &&& statusDrq = 0
  let c ← (writeWords conts 256 c).waitWhile fun status => status &&& statusBsy ≠ 0
  let (status, c) := c.inb
  if status &&& statusErr ≠ 0 then .error (some (.panic "ATA write error.")) else return c

/-- The second part of `writeSector`, where `len` is 512 or more. -/
def writeWhole (conts : List UInt8) (sector : Nat) (d : Driver) :
    Except (Option Halt) (SuccessCodes × Driver) := do
  let c ← deliver conts ((address sector d).outb commandPort commandWriteSectors)
  return (.Sucess, { d with channel := c })

def writeSector (conts : List UInt8) (len sector : Nat) (d : Driver) :
    Except (Option Halt) (SuccessCodes × Driver) :=
  if len < 512 then do
    let ((_, sectorBuf), d) ← readSector 512 sector d
    writeWhole (conts.take len ++ sectorBuf.drop len) sector d
  else writeWhole conts sector d

def selectNextDrive (d : Driver) : Driver := { d with driveSelect := d.driveSelect.next }

end AtaPio

def atapio : StorageDriver AtaPio.Driver where
  getPriority := 1
  readSector := AtaPio.readSector
  writeSector := AtaPio.writeSector
  selectNextDrive := AtaPio.selectNextDrive

/-- The one candidate there is. -/
def Storage.winner : StorageDriver AtaPio.Driver := Storage.init [atapio]

theorem Storage.winner_eq : Storage.winner = atapio := rfl

theorem Storage.readSector_eq_load (disk : Disk) (sector : Nat) :
    Storage.readSector disk sector = load (disk sector) 0 512 := by
  refine List.ext_getElem? fun i => ?_
  rw [Storage.readSector, List.getElem?_map]
  by_cases hi : i < 512
  · rw [getElem?_load hi, List.getElem?_range hi, Nat.zero_add]
    rfl
  · rw [List.getElem?_eq_none (by rw [List.length_range]; omega),
      List.getElem?_eq_none (by rw [length_load]; omega)]
    rfl

namespace AtaPio

/-! ### Registers -/

variable {d : Driver} {c : Channel} {disk : Disk} {sector n : Nat} {bytes conts : List UInt8}

theorem address_eq (sector : Nat) (d : Driver) : address sector d = { d.channel with
    select := d.driveSelect.code ||| UInt8.ofNat (sector >>> 24 &&& 0x0F)
    count := 1
    lbaLo := UInt8.ofNat (sector &&& 0xFF)
    lbaMi := UInt8.ofNat (sector >>> 8 &&& 0xFF)
    lbaHi := UInt8.ofNat (sector >>> 16 &&& 0xFF)
    busy := d.channel.busy - 1 - 1 - 1 - 1 } := rfl

theorem outb_command (val : UInt8) (c : Channel) : c.outb commandPort val = c.command val := rfl

/-- The upper half of the drive select register names the drive, the lower half is free. -/
theorem select_spec (drive : DriveSelect) : ∀ i < 16,
    (drive.code ||| UInt8.ofNat i) &&& 0x0F = UInt8.ofNat i ∧
      (if (drive.code ||| UInt8.ofNat i) &&& 0x10 = 0 then DriveSelect.masterdrive
        else .slavedrive) = drive := by
  cases drive <;> decide

theorem nibble_lt (sector : Nat) : sector >>> 24 &&& 0x0F < 16 := by
  rw [show 0x0F = 2 ^ 4 - 1 from rfl, Nat.and_two_pow_sub_one_eq_mod]
  exact Nat.mod_lt _ (by decide)

@[simp] theorem drive_address (sector : Nat) (d : Driver) :
    (address sector d).drive = d.driveSelect :=
  (select_spec d.driveSelect _ (nibble_lt sector)).2

@[simp] theorem drives_address (sector : Nat) (d : Driver) :
    (address sector d).drives = d.channel.drives := rfl

@[simp] theorem sectors_address (sector : Nat) (d : Driver) : (address sector d).sectors = 1 := rfl

/-- The registers take the low 28 bits. -/
@[simp] theorem lba_address (sector : Nat) (d : Driver) :
    (address sector d).lba = sector % 2 ^ 28 := by
  have hbyte : ∀ k, (UInt8.ofNat (k &&& 0xFF)).toNat = k % 256 := by
    intro k
    rw [UInt8.toNat_ofNat', show k &&& 0xFF = k % 2 ^ 8 from Nat.and_two_pow_sub_one_eq_mod k 8]
    exact Nat.mod_mod k 256
  have hhigh : ((d.driveSelect.code ||| UInt8.ofNat (sector >>> 24 &&& 0x0F)) &&& 0x0F).toNat =
      sector / 2 ^ 24 % 16 := by
    rw [(select_spec d.driveSelect _ (nibble_lt sector)).1, UInt8.toNat_ofNat',
      Nat.mod_eq_of_lt (Nat.lt_trans (nibble_lt sector) (by decide)),
      ← Nat.shiftRight_eq_div_pow]
    exact Nat.and_two_pow_sub_one_eq_mod _ 4
  rw [address_eq, Channel.lba, hbyte, hbyte, hbyte, hhigh, Nat.shiftRight_eq_div_pow,
    Nat.shiftRight_eq_div_pow]
  omega

/-- The drive has the sector ready. -/
theorem command_read (h : d.channel.drives d.driveSelect = some disk) :
    (address sector d).command commandReadSectors =
      (address sector d).work (.toHost (Storage.readSector disk (sector % 2 ^ 28))) := by
  rw [Channel.command, drives_address, drive_address, h, sectors_address, lba_address]
  exact congrArg (fun bytes => (address sector d).work (.toHost bytes)) (List.append_nil _)

theorem command_write (h : d.channel.drives d.driveSelect = some disk) :
    (address sector d).command commandWriteSectors =
      (address sector d).work (.toDrive (sector % 2 ^ 28) 1 []) := by
  rw [Channel.command, drives_address, drive_address, h, sectors_address, lba_address]
  rfl

/-! ### Waiting -/

/-- What a drive that is there shows: it is busy, or has data to transfer, or neither. -/
theorem status_of_busy (h : c.drives c.drive = some disk) (hb : c.busy ≠ 0) : c.status = 0x80 := by
  rw [Channel.status, h]
  exact if_pos hb

theorem status_ready (h : c.drives c.drive = some disk) :
    c.ready.status = if c.transfer = .none then 0x50 else 0x58 := by
  rw [Channel.status, show c.ready.drives c.ready.drive = some disk from h]
  simp only [Channel.ready, ne_eq, not_true, if_false]
  cases c.transfer <;> rfl

/-- A wait that goes on while the drive is busy, and ends at what it then shows. -/
theorem waitWhile_eq {p : UInt8 → Bool} (h : c.drives c.drive = some disk) (hp : p 0x80 = true)
    (hready : p c.ready.status = false) : c.waitWhile p = .ok c.ready := by
  obtain ⟨n, hn⟩ : ∃ n, c.busy = n := ⟨_, rfl⟩
  rw [Channel.waitWhile, loop, hn]
  induction n generalizing c with
  | zero =>
      have hc : c.ready = c := by rw [Channel.ready, ← hn]
      rw [hc] at hready ⊢
      have hinb : c.inb = (c.status, c) := by
        rw [Channel.inb, hn]
        exact Prod.ext rfl hc
      rw [turns, Channel.waitTurn, hinb]
      simp only [hready]
      rfl
  | succ n ih =>
      have hstatus : c.status = 0x80 := status_of_busy h (by rw [hn]; exact Nat.succ_ne_zero n)
      have hturn : Channel.waitTurn p c = .ok (.inl { c with busy := n }) := by
        simp only [Channel.waitTurn, Channel.inb, hstatus, hp, hn, if_true, Nat.add_sub_cancel]
      rw [turns, hturn]
      exact ih (c := { c with busy := n }) h hready rfl

theorem waitWhile_bsy (h : c.drives c.drive = some disk) :
    (c.waitWhile fun status => status &&& statusBsy ≠ 0) = .ok c.ready := by
  refine waitWhile_eq h (by decide) ?_
  rw [status_ready h]
  split <;> decide

theorem waitWhile_drq (h : c.drives c.drive = some disk) (ht : c.transfer ≠ .none) :
    (c.waitWhile fun status => status &&& statusDrq = 0) = .ok c.ready := by
  refine waitWhile_eq h (by decide) ?_
  rw [status_ready h, if_neg ht]
  decide

/-- A drive that is there does not show 0. -/
theorem status_ne_zero (h : c.drives c.drive = some disk) : c.status ≠ 0 := by
  rw [Channel.status, h]
  dsimp only
  split
  · decide
  · split <;> decide

/-! ### Transfers -/

/-- A word has the two bytes it was made of. -/
theorem toLE_word (h : bytes.length = 2) : toLE 2 (UInt16.ofNat (ofLE bytes)).toNat = bytes := by
  have hlt : ofLE bytes < 256 ^ bytes.length := ofLE_lt
  have hback : toLE bytes.length (ofLE bytes) = bytes := toLE_ofLE
  rw [h] at hlt hback
  rw [UInt16.toNat_ofNat', Nat.mod_eq_of_lt (show ofLE bytes < 2 ^ 16 from hlt), hback]

/-- The words of a transfer arrive in order. -/
theorem readWords_eq (h : c.transfer = .toHost bytes) (hn : 2 * n ≤ bytes.length) :
    (readWords n c).1 = bytes.take (2 * n) ∧ (readWords n c).2.drives = c.drives := by
  induction n generalizing c bytes with
  | zero => exact ⟨rfl, rfl⟩
  | succ n ih =>
      obtain ⟨lo, hi, rest, rfl⟩ : ∃ lo hi rest, bytes = lo :: hi :: rest := by
        match bytes, hn with
        | lo :: hi :: rest, _ => exact ⟨lo, hi, rest, rfl⟩
      have hword : toLE 2 (UInt16.ofNat (ofLE [lo, hi])).toNat = [lo, hi] := toLE_word rfl
      have hinw : c.inw = (UInt16.ofNat (ofLE [lo, hi]),
          { c with transfer := if rest = [] then .none else .toHost rest }) := by
        rw [Channel.inw, h]
      simp only [readWords, hinw, hword]
      have hrest : 2 * n ≤ rest.length := by
        simp only [List.length_cons] at hn
        omega
      rcases n with - | n
      · exact ⟨rfl, rfl⟩
      · have hne : rest ≠ [] := by
          rintro rfl
          simp at hrest
        obtain ⟨hbuf, hdrives⟩ := ih
          (c := { c with transfer := if rest = [] then .none else .toHost rest }) (if_neg hne) hrest
        refine ⟨?_, hdrives⟩
        rw [hbuf]
        rfl

theorem toLE_wordAt {i : Nat} (hi : 2 * i + 2 ≤ conts.length) :
    toLE 2 (wordAt conts i).toNat = (conts.drop (2 * i)).take 2 := by
  refine toLE_word ?_
  rw [List.length_take, List.length_drop]
  omega

theorem outw_transfer {i lba sectors : Nat} (hi : 2 * i + 2 ≤ conts.length)
    (h : c.transfer = .toDrive lba sectors (conts.take (2 * i))) :
    c.outw (wordAt conts i) =
      if 2 * i + 2 < 512 then
        { c with transfer := .toDrive lba sectors (conts.take (2 * i + 2)) }
      else c.storeSector lba sectors (conts.take (2 * i + 2)) := by
  have htake : conts.take (2 * i) ++ (conts.drop (2 * i)).take 2 = conts.take (2 * i + 2) :=
    (List.take_add ..).symm
  have hlen : (conts.take (2 * i + 2)).length = 2 * i + 2 := by
    rw [List.length_take, Nat.min_eq_left hi]
  simp only [Channel.outw, h, toLE_wordAt hi, htake, hlen]

/-- All but the last word of a sector. -/
theorem writeWords_lt {lba sectors : Nat} (hlen : 512 ≤ conts.length) (hn : n < 256)
    (h : c.transfer = .toDrive lba sectors []) :
    writeWords conts n c = { c with transfer := .toDrive lba sectors (conts.take (2 * n)) } := by
  induction n with
  | zero => rw [← show c.transfer = .toDrive lba sectors (conts.take (2 * 0)) from h]; rfl
  | succ n ih =>
      have ih := ih (by omega)
      rw [writeWords] at ih
      rw [writeWords, List.range_succ, List.foldl_append, ih, List.foldl_cons, List.foldl_nil,
        outw_transfer (by omega) rfl, if_pos (by omega)]
      rfl

/-- A whole sector. -/
theorem writeWords_eq {lba sectors : Nat} (hlen : 512 ≤ conts.length)
    (h : c.transfer = .toDrive lba sectors []) :
    writeWords conts 256 c =
      Channel.storeSector lba sectors (conts.take 512)
        { c with transfer := .toDrive lba sectors (conts.take 510) } := by
  have hlast := writeWords_lt hlen (show 255 < 256 by decide) h
  rw [writeWords] at hlast
  rw [writeWords, show List.range 256 = List.range 255 ++ [255] from List.range_succ,
    List.foldl_append, hlast, List.foldl_cons, List.foldl_nil, outw_transfer (by omega) rfl,
    if_neg (by omega)]

/-! ### Sectors -/

@[simp] theorem drive_work (transfer : Transfer) (c : Channel) :
    (c.work transfer).drive = c.drive := rfl

theorem fetch_eq (h : c.drives c.drive = some disk) (ht : c.transfer = .toHost bytes)
    {buflen : Nat} (hlen : 2 * min 256 buflen ≤ bytes.length) :
    ∃ c', fetch buflen c = .ok (bytes.take (2 * min 256 buflen), c') ∧ c'.drives = c.drives := by
  have hsome : c.transfer ≠ .none := by rw [ht]; nofun
  have hbsy : (c.inb.2.waitWhile fun status => status &&& statusBsy ≠ 0) = .ok c.ready :=
    waitWhile_bsy h
  have hdrq : (c.ready.waitWhile fun status => status &&& statusDrq = 0) = .ok c.ready :=
    waitWhile_drq h hsome
  obtain ⟨hbuf, hdrives⟩ := readWords_eq (c := c.ready) ht hlen
  refine ⟨(readWords (min 256 buflen) c.ready).2, ?_, hdrives⟩
  change (if c.status = 0 then _ else Channel.waitWhile _ c.inb.2 >>= _) = _
  rw [if_neg (status_ne_zero h), hbsy, ok_bind, hdrq, ok_bind, ← hbuf]
  rfl

theorem deliver_eq (h : c.drives c.drive = some disk) {lba : Nat}
    (ht : c.transfer = .toDrive lba 1 []) (hlen : 512 ≤ conts.length) :
    ∃ c', deliver conts c = .ok c' ∧ c'.drives = Function.update c.drives c.drive
      (some (Function.update disk lba (store (disk lba) 0 (conts.take 512)))) := by
  have hsome : c.transfer ≠ .none := by rw [ht]; nofun
  have hdrq : (c.ready.waitWhile fun status => status &&& statusDrq = 0) = .ok c.ready :=
    waitWhile_drq h hsome
  set disk' : Disk := Function.update disk lba (store (disk lba) 0 (conts.take 512))
  -- the channel behind the last word
  obtain ⟨c', hwords, hdrive, hdrives⟩ : ∃ c', writeWords conts 256 c.ready = c' ∧
      c'.drive = c.drive ∧ c'.drives = Function.update c.drives c.drive (some disk') := by
    refine ⟨_, writeWords_eq (c := c.ready) hlen ht, rfl, ?_⟩
    exact congrArg (fun disk : Option Disk => Function.update c.drives c.drive
      (disk.map fun disk => Function.update disk lba (store (disk lba) 0 (conts.take 512)))) h
  have hthere : c'.drives c'.drive = some disk' := by rw [hdrives, hdrive, Function.update_self]
  have hstatus : ¬ c'.ready.status &&& statusErr ≠ 0 := by
    rw [status_ready hthere]
    split <;> decide
  refine ⟨c'.ready.inb.2, ?_, hdrives⟩
  rw [deliver, waitWhile_bsy h, ok_bind, hdrq, ok_bind, hwords, waitWhile_bsy hthere, ok_bind]
  exact if_neg hstatus

/-- **Reading**: the sector the low 28 bits name, as far as the count of words goes. -/
theorem readSector_eq (h : d.channel.drives d.driveSelect = some disk) (buflen sector : Nat) :
    ∃ c, readSector buflen sector d =
        .ok ((.Sucess, (Storage.readSector disk (sector % 2 ^ 28)).take (2 * min 256 buflen)),
          ⟨d.driveSelect, c⟩) ∧ c.drives = d.channel.drives := by
  have hdrive := (congrArg d.channel.drives (drive_address sector d)).trans h
  set bytes := Storage.readSector disk (sector % 2 ^ 28) with hbytes
  have hlen : bytes.length = 512 := by rw [hbytes, Storage.readSector_eq_load, length_load]
  obtain ⟨c, hfetch, hdrives⟩ := fetch_eq (c := (address sector d).work (.toHost bytes)) hdrive rfl
    (show 2 * min 256 buflen ≤ bytes.length by omega)
  refine ⟨c, ?_, hdrives⟩
  rw [readSector, outb_command, command_read h, hfetch]
  rfl


theorem writeWhole_eq (h : d.channel.drives d.driveSelect = some disk) (hlen : 512 ≤ conts.length)
    (sector : Nat) : ∃ c, writeWhole conts sector d = .ok (.Sucess, ⟨d.driveSelect, c⟩) ∧
      c.drives = Function.update d.channel.drives d.driveSelect
        (some (Function.update disk (sector % 2 ^ 28)
          (store (disk (sector % 2 ^ 28)) 0 (conts.take 512)))) := by
  have hdrive := (congrArg d.channel.drives (drive_address sector d)).trans h
  obtain ⟨c, hdeliver, hdrives⟩ := deliver_eq
    (c := (address sector d).work (.toDrive (sector % 2 ^ 28) 1 [])) hdrive rfl hlen
  refine ⟨c, ?_, by rw [hdrives, drive_work, drive_address]; rfl⟩
  rw [writeWhole, outb_command, command_write h, hdeliver]
  rfl

/-- Behind the first `n` bytes of a sector. -/
theorem drop_readSector (disk : Disk) (sector : Nat) (hn : n ≤ 512) :
    (Storage.readSector disk sector).drop n = load (disk sector) n (512 - n) := by
  have hlen : (load (disk sector) 0 n).length = n := length_load
  rw [Storage.readSector_eq_load, show 512 = n + (512 - n) by omega, load_add, Nat.zero_add,
    Nat.add_sub_cancel_left]
  exact (congrArg (List.drop · _) hlen.symm).trans List.drop_left

/-- **Writing**: `len` bytes, or the whole sector, and the rest of the sector is as it was. -/
theorem writeSector_eq (h : d.channel.drives d.driveSelect = some disk) {len : Nat}
    (hlen : len ≤ conts.length) (sector : Nat) :
    ∃ c, writeSector conts len sector d = .ok (.Sucess, ⟨d.driveSelect, c⟩) ∧
      c.drives = Function.update d.channel.drives d.driveSelect
        (some (Function.update disk (sector % 2 ^ 28)
          (store (disk (sector % 2 ^ 28)) 0 (conts.take (min len 512))))) := by
  by_cases hshort : len < 512
  · -- the sector with its first `len` bytes replaced
    obtain ⟨c₀, hread, hdrives₀⟩ := readSector_eq h 512 sector
    set old := Storage.readSector disk (sector % 2 ^ 28) with hold
    have hlast : old.length = 512 := by rw [hold, Storage.readSector_eq_load, length_load]
    have hwhole : old.take (2 * min 256 512) = old := List.take_of_length_le (by rw [hlast]; decide)
    have htake : (conts.take len).length = len := by rw [List.length_take, Nat.min_eq_left hlen]
    have hsector : (conts.take len ++ old.drop len).length = 512 := by
      rw [List.length_append, htake, List.length_drop, hlast]
      omega
    have h₀ : c₀.drives d.driveSelect = some disk := by rw [hdrives₀, h]
    obtain ⟨c, hwrite, hdrives⟩ := writeWhole_eq (d := ⟨d.driveSelect, c₀⟩) h₀
      (Nat.le_of_eq hsector.symm) sector
    refine ⟨c, ?_, ?_⟩
    · rw [writeSector, if_pos hshort, hread, ok_bind]
      dsimp only
      rw [hwhole, hwrite]
    · have hstore : store (disk (sector % 2 ^ 28)) 0 (conts.take len ++ old.drop len) =
          store (disk (sector % 2 ^ 28)) 0 (conts.take len) := by
        rw [hold, drop_readSector disk _ (Nat.le_of_lt hshort)]
        have happ : store (disk (sector % 2 ^ 28)) 0 (conts.take len ++
            load (disk (sector % 2 ^ 28)) (0 + (conts.take len).length) (512 - len)) = _ :=
          store_append_load (512 - len)
        rwa [htake, Nat.zero_add] at happ
      rw [hdrives, List.take_of_length_le (Nat.le_of_eq hsector), hstore,
        Nat.min_eq_left (Nat.le_of_lt hshort)]
      dsimp only
      rw [hdrives₀]
  · rw [writeSector, if_neg hshort, Nat.min_eq_right (by omega)]
    exact writeWhole_eq h (by omega) sector

end AtaPio
end RivOS
