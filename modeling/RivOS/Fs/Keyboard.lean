import RivOS.Fs.Descriptors
import RivOS.Fs.OnHeap
import RivOS.Gen.Alpha
import RivOS.Lib.Case

/-!
# Fs — Typed text

`keyboardHandler` (`drivers/interrupts/keyboard/handler.cpp`), the tables of `scInit` (`gen/io.hpp`)
and the devices of `drivers/fs/dev/dev.hpp`, behind the calls of `FileSystem`.

The handler stores one character for every press of a key that is no modifier: a NUL where the key
has none, and a backspace as itself; the backspace is made on a copy of the buffer.

* `keyboardHandler_press`: what a press does to the file system.
* `line`: what was typed, said of the scancodes alone.
* `typed_iff`: a reader of `/dev/stdin` gets the line exactly when what was pressed is
  `Unedited`.
-/

namespace RivOS

/-! ### The devices -/

/-- A `char stdin[4096]`, and the place of the next character in it. -/
structure StdinDevSubDriver where
  stdin : List UInt8
  cursor : Nat
  size : stdin.length = 4096
  inside : cursor < 4096

open FileSystemDriver (SuccessCodes)

namespace StdinDevSubDriver

def init : StdinDevSubDriver where
  stdin := List.replicate 4096 0
  cursor := 0
  size := List.length_replicate
  inside := Nat.zero_lt_succ _

/-- `stdin[cursor++] = c`, below the last place. -/
def push (d : StdinDevSubDriver) (c : UInt8) (h : d.cursor + 1 < 4096) : StdinDevSubDriver where
  stdin := d.stdin.set d.cursor c
  cursor := d.cursor + 1
  size := List.length_set.trans d.size
  inside := h

def read (d : StdinDevSubDriver) (len : Nat) : SuccessCodes × List UInt8 :=
  (.Sucess, d.stdin.take len)

theorem init_room : init.cursor + 1 < 4096 := Nat.succ_lt_succ (Nat.zero_lt_succ _)

/-- A character for the last place starts the buffer anew. -/
def write (d : StdinDevSubDriver) (conts : List UInt8) (len : Nat) :
    SuccessCodes × StdinDevSubDriver :=
  if len ≠ 1 then (.Error, d)
  else if h : d.cursor + 1 < 4096 then (.Sucess, d.push (charAt conts 0) h)
  else (.Sucess, init.push (charAt conts 0) init_room)

end StdinDevSubDriver

/-- The devices of `/dev/`.  `fps` is the path behind an `FsData*`, `screen` what the terminal was
given, and `rest` the heap and what the drivers of the other mount points change. -/
structure Devices (σ : Type) where
  stdout : List UInt8
  stdin : StdinDevSubDriver
  fps : UInt32 → CStr
  screen : List UInt8
  rest : σ

/-- Where the heap puts a `FsData` and takes it back. -/
structure FsDataHeap (σ : Type) where
  alloc : σ → UInt32 × σ
  free : UInt32 → σ → σ

namespace DevMpDriver

variable {σ : Type}

/-- The string at `fp + n`, of a path that is long enough. -/
def pathFrom (fp : CStr) (n : Nat) : CStr :=
  ⟨fp.chars.drop n, fun h => fp.nulFree (List.mem_of_mem_drop h)⟩

theorem zero_notMem_stdout : 0 ∉ ascii ['s', 't', 'd', 'o', 'u', 't'] := by decide
theorem zero_notMem_stdin : 0 ∉ ascii ['s', 't', 'd', 'i', 'n'] := by decide
theorem zero_notMem_stdlog : 0 ∉ ascii ['s', 't', 'd', 'l', 'o', 'g'] := by decide

/-- `mappings[fp]->read`. -/
def read (fp : CStr) (len : Nat) (d : Devices σ) : SuccessCodes × List UInt8 :=
  if streq (.lit ['s', 't', 'd', 'o', 'u', 't'] zero_notMem_stdout) fp then (.Sucess, d.stdout.take len)
  else if streq (.lit ['s', 't', 'd', 'i', 'n'] zero_notMem_stdin) fp then d.stdin.read len
  else (.Error, [])

/-- `mappings[fp]->write`.  What `stdlog` is given is ended in a copy that nothing reads. -/
def write (fp : CStr) (conts : List UInt8) (len : Nat) (d : Devices σ) :
    SuccessCodes × Devices σ :=
  if streq (.lit ['s', 't', 'd', 'o', 'u', 't'] zero_notMem_stdout) fp then
    (.Sucess, { d with
      stdout := conts.take (min len 4096) ++ d.stdout.drop (min len 4096)
      screen := d.screen ++ conts.take len })
  else if streq (.lit ['s', 't', 'd', 'i', 'n'] zero_notMem_stdin) fp then
    let (r, stdin) := d.stdin.write conts len
    (r, { d with stdin })
  else if streq (.lit ['s', 't', 'd', 'l', 'o', 'g'] zero_notMem_stdlog) fp then (.Sucess, d)
  else (.Error, d)

/-- The driver as `FileSystem` calls it. -/
def driver (heap : FsDataHeap σ) : FileSystemDriver (Devices σ) where
  «open» fp d :=
    let fp := pathFrom fp 5
    let (fsData, rest) := heap.alloc d.rest
    let found := mappings.any (streq · fp)
    ((⟨fsData, 0, found⟩, found), { d with fps := Function.update d.fps fsData fp, rest })
  read f len d := (read (d.fps f.fsData) len d, d)
  write f conts len d := write (d.fps f.fsData) conts len d
  close f d := { d with rest := heap.free f.fsData d.rest }

end DevMpDriver

/-! ### The buffer -/

namespace StdinDevSubDriver

variable {d : StdinDevSubDriver} {cs : List UInt8} {len : Nat}

/-- The characters `cs` are in the buffer, and NULs behind them. -/
structure Holds (d : StdinDevSubDriver) (cs : List UInt8) : Prop where
  cursor : d.cursor = cs.length
  stdin : d.stdin = cs ++ List.replicate (4096 - cs.length) 0

theorem holds_init : init.Holds [] := ⟨rfl, rfl⟩

theorem Holds.write (h : d.Holds cs) (hlt : cs.length + 1 < 4096) (c : UInt8) :
    (d.write [c] 1).2.Holds (cs ++ [c]) := by
  have hroom : d.cursor + 1 < 4096 := h.cursor ▸ hlt
  obtain ⟨n, hn⟩ : ∃ n, 4096 - cs.length = n + 1 := ⟨4095 - cs.length, by omega⟩
  rw [StdinDevSubDriver.write, if_neg (not_not_intro rfl), dif_pos hroom]
  refine ⟨?_, ?_⟩
  · change d.cursor + 1 = _
    rw [h.cursor, List.length_append, List.length_singleton]
  · change d.stdin.set d.cursor c = _
    have hlen : 4096 - (cs ++ [c]).length = n := by
      rw [List.length_append, List.length_singleton]
      omega
    rw [h.stdin, h.cursor, hn, hlen, List.set_append_right _ _ (Nat.le_refl _), Nat.sub_self,
      List.replicate_succ, List.set_cons_zero, List.append_assoc, List.singleton_append]

/-- A reader with room for more than `cs` finds the NUL behind it. -/
theorem Holds.read (h : d.Holds cs) (hlt : cs.length < 4096)
    (hlen : cs.length < len) : ∃ rest, (d.read len).2 = cs ++ 0 :: rest := by
  obtain ⟨n, hn⟩ : ∃ n, 4096 - cs.length = n + 1 := ⟨4095 - cs.length, by omega⟩
  obtain ⟨l, hl⟩ : ∃ l, len - cs.length = l + 1 := ⟨len - cs.length - 1, by omega⟩
  refine ⟨(List.replicate n 0).take l, ?_⟩
  change d.stdin.take len = _
  rw [h.stdin, hn, List.take_append, List.take_of_length_le (Nat.le_of_lt hlen), hl,
    List.replicate_succ, List.take_succ_cons]

end StdinDevSubDriver

namespace Keyboard

/-! ### The handler -/

/-- What `scInit` stores, one assignment after the other. -/
def fill (assignments : List (Nat × Char)) : List UInt8 :=
  assignments.foldl (fun map a => map.set a.1 (UInt8.ofNat a.2.toNat)) (List.replicate 128 0)

def scancodeMap : List UInt8 := fill
  [(0x02, '1'), (0x03, '2'), (0x04, '3'), (0x05, '4'), (0x06, '5'), (0x07, '6'), (0x08, '7'),
    (0x09, '8'), (0x0A, '9'), (0x0B, '0'), (0x10, 'q'), (0x11, 'w'), (0x12, 'e'), (0x13, 'r'),
    (0x14, 't'), (0x15, 'y'), (0x16, 'u'), (0x17, 'i'), (0x18, 'o'), (0x19, 'p'), (0x1E, 'a'),
    (0x1F, 's'), (0x20, 'd'), (0x21, 'f'), (0x22, 'g'), (0x23, 'h'), (0x24, 'j'), (0x25, 'k'),
    (0x26, 'l'), (0x2C, 'z'), (0x2D, 'x'), (0x2E, 'c'), (0x2F, 'v'), (0x30, 'b'), (0x31, 'n'),
    (0x32, 'm'), (0x39, ' '), (0x1C, '\n'), (0x0E, '\x08'), (0x0F, '\t')]

def scancodeMapShift : List UInt8 := fill
  [(0x02, '!'), (0x03, '@'), (0x04, '#'), (0x05, '$'), (0x06, '%'), (0x07, '^'), (0x08, '&'),
    (0x09, '*'), (0x0A, '('), (0x0B, ')'), (0x10, 'Q'), (0x11, 'W'), (0x12, 'E'), (0x13, 'R'),
    (0x14, 'T'), (0x15, 'Y'), (0x16, 'U'), (0x17, 'I'), (0x18, 'O'), (0x19, 'P'), (0x1E, 'A'),
    (0x1F, 'S'), (0x20, 'D'), (0x21, 'F'), (0x22, 'G'), (0x23, 'H'), (0x24, 'J'), (0x25, 'K'),
    (0x26, 'L'), (0x2C, 'Z'), (0x2D, 'X'), (0x2E, 'C'), (0x2F, 'V'), (0x30, 'B'), (0x31, 'N'),
    (0x32, 'M'), (0x39, ' '), (0x1C, '\n'), (0x0E, '\x08'), (0x0F, '\t')]

def isLower (c : UInt8) : Bool := 97 ≤ c ∧ c ≤ 122

structure KeyboardState where
  shift : Bool
  capslock : Bool
deriving DecidableEq

/-- The character the handler writes for `sc`. -/
def addedC (k : KeyboardState) (sc : UInt8) : UInt8 :=
  let addedC := charAt scancodeMap sc.toNat
  if isLower addedC then
    if k.capslock ^^ k.shift then toUpper addedC else addedC
  else if k.shift then charAt scancodeMapShift sc.toNat
  else addedC

theorem zero_notMem_stdinPath : 0 ∉ ascii ['/', 'd', 'e', 'v', '/', 's', 't', 'd', 'i', 'n'] := by
  decide

def stdinPath : CStr :=
  .lit ['/', 'd', 'e', 'v', '/', 's', 't', 'd', 'i', 'n'] zero_notMem_stdinPath

def stdoutPath : CStr := .lit ['/', 'd', 'e', 'v', '/', 's', 't', 'd', 'o', 'u', 't']

section Handler

variable {μ δ : Type} (drivers : μ → FileSystemDriver δ) (fuel : Nat)

/-- `keyboardHandler`, with `sc` at the port; `none` is a panic, or a call that has not returned. -/
def keyboardHandler (sc : UInt8) (s : KeyboardState × FileSystem μ δ) :
    Option (KeyboardState × FileSystem μ δ) :=
  let (k, fs) := s
  if sc &&& 0x80 ≠ 0 then
    if sc = 0xAA ∨ sc = 0xB6 then some ({ k with shift := false }, fs) else some (k, fs)
  else if sc = 0x2A ∨ sc = 0x36 then some ({ k with shift := true }, fs)
  else if sc = 0x3A then some ({ k with capslock := !k.capslock }, fs)
  else do
    let (stdinFd, fs) ← fs.open drivers fuel stdinPath
    if stdinFd = 0 then none
    else
      let c := addedC k sc
      -- the last character is taken from the copy in `tmpStdinBuf`, which is then freed
      let fs ← if c = 8 then (fs.read drivers stdinFd 4096).map (·.2) else some fs
      let (_, fs) ← fs.write drivers stdinFd [c] 1
      let (stdout, fs) ← fs.open drivers fuel stdoutPath
      let (_, fs) ← fs.write drivers stdout [c] 1
      let fs ← fs.close drivers stdout
      let fs ← fs.close drivers stdinFd
      some (k, fs)

/-- The handler runs once for every code. -/
def type (scs : List UInt8) (s : KeyboardState × FileSystem μ δ) :
    Option (KeyboardState × FileSystem μ δ) :=
  scs.foldlM (fun s sc => keyboardHandler drivers fuel sc s) s

/-- The string in a buffer of `len` bytes that is read from `/dev/stdin`. -/
def readLine (len : Nat) (fs : FileSystem μ δ) : Option (List UInt8) := do
  let (fd, fs) ← fs.open drivers fuel stdinPath
  let ((_, buf), _) ← fs.read drivers fd len
  if 0 ∈ buf then some (buf.takeWhile (· ≠ 0)) else none

end Handler

/-! ### What was typed -/

/-- The last code of a shift key was that of a press. -/
def shifted (before : List UInt8) : Bool :=
  (before.filter (· ∈ [0x2A, 0x36, 0xAA, 0xB6])).getLast?.any (· < 0x80)

/-- Caps lock was pressed an odd number of times. -/
def capsed (before : List UInt8) : Bool := before.count 0x3A % 2 = 1

/-- A press of a key that is neither shift nor caps lock. -/
def isPress (sc : UInt8) : Bool := sc < 0x80 && sc ∉ [0x2A, 0x36, 0x3A]

/-- The character of a key: the one with shift where shift is down, or, of a letter, where just one
of shift and caps lock is on. -/
def keyChar (shift caps : Bool) (sc : UInt8) : Option UInt8 :=
  let plain := charAt scancodeMap sc.toNat
  if plain = 0 then none
  else if shift ^^ (caps && isalpha plain) then some (charAt scancodeMapShift sc.toNat)
  else some plain

/-- The presses among `scs`, after the codes `before`, each with the character of its key. -/
def pressesAfter (before : List UInt8) : List UInt8 → List (Option UInt8)
  | [] => []
  | sc :: scs =>
      (if isPress sc then [keyChar (shifted before) (capsed before) sc] else []) ++
        pressesAfter (before ++ [sc]) scs

def presses (scs : List UInt8) : List (Option UInt8) := pressesAfter [] scs

/-- A backspace takes the last character away; a key without a character does nothing. -/
def edit (line : List UInt8) : Option UInt8 → List UInt8
  | none => line
  | some c => if c = 8 then line.dropLast else line ++ [c]

/-- The line that was typed. -/
def line (scs : List UInt8) : List UInt8 := (presses scs).foldl edit []

/-- What is pressed before the first key without a character. -/
def upTo (ps : List (Option UInt8)) : List UInt8 := (ps.takeWhile (·.isSome)).filterMap id

/-- No backspace is among the presses before the first of a key without a character, and those from
there on leave the line what it was. -/
def Unedited (ps : List (Option UInt8)) : Prop :=
  8 ∉ upTo ps ∧ (ps.dropWhile (·.isSome)).foldl edit (upTo ps) = upTo ps

instance (ps : List (Option UInt8)) : Decidable (Unedited ps) :=
  inferInstanceAs (Decidable (_ ∧ _))

/-! ### The tables -/

/-- The handler writes the character of the key, and a NUL where there is none. -/
theorem addedC_eq (shift caps : Bool) (sc : UInt8) :
    addedC ⟨shift, caps⟩ sc = (keyChar shift caps sc).getD 0 := by
  obtain ⟨v⟩ := sc
  revert shift caps v
  decide +kernel

theorem keyChar_ne_zero (shift caps : Bool) (sc : UInt8) : keyChar shift caps sc ≠ some 0 := by
  obtain ⟨v⟩ := sc
  revert shift caps v
  decide +kernel

theorem some_zero_not_mem_presses (before scs : List UInt8) :
    some 0 ∉ pressesAfter before scs := by
  induction scs generalizing before with
  | nil => exact List.not_mem_nil
  | cons sc scs ih =>
      rw [pressesAfter, List.mem_append, not_or]
      refine ⟨?_, ih _⟩
      split
      · rw [List.mem_singleton]
        exact (keyChar_ne_zero _ _ sc).symm
      · exact List.not_mem_nil

/-! ### The shift keys and caps lock -/

/-- The state of the keyboard after the codes `before`. -/
def stateAfter (before : List UInt8) : KeyboardState := ⟨shifted before, capsed before⟩

theorem shifted_concat (before : List UInt8) (sc : UInt8) :
    shifted (before ++ [sc]) =
      if sc ∈ [0x2A, 0x36, 0xAA, 0xB6] then decide (sc < 0x80) else shifted before := by
  rw [shifted, List.filter_append]
  by_cases h : sc ∈ ([0x2A, 0x36, 0xAA, 0xB6] : List UInt8)
  · rw [List.filter_cons_of_pos (by simpa using h), if_pos h]
    simp
  · rw [List.filter_cons_of_neg (by simpa using h), if_neg h]
    simp [shifted]

theorem capsed_concat (before : List UInt8) (sc : UInt8) :
    capsed (before ++ [sc]) = if sc = 0x3A then !capsed before else capsed before := by
  rw [capsed, List.count_append, List.count_singleton, capsed]
  by_cases h : sc = 0x3A
  · rw [if_pos h, if_pos (by simpa using h)]
    rw [Bool.eq_iff_iff]
    simp
    omega
  · rw [if_neg h, if_neg (by simpa using h), Nat.add_zero]

/-! ### What the handler does -/

section Calls

variable {σ : Type} (heap : FsDataHeap σ) (others : Mp → FileSystemDriver (Devices σ))
  {act : Mp → Bool} {fuel n : Nat} {fs : FileSystem Mp (Devices σ)}

/-- The drivers, with that of the devices behind `/dev/`. -/
def withDevices : Mp → FileSystemDriver (Devices σ)
  | .dev => DevMpDriver.driver heap
  | mp => others mp

/-- The mount points are those of `init`, `/dev/` among them, and descriptors are left for `n`
opens. -/
structure Ready (act : Mp → Bool) (n : Nat) (fs : FileSystem Mp (Devices σ)) : Prop where
  mounts : FileSystem.init (FileSystem.mpCandidates .ext2Root .dev .fat32Root .boot .virtKrn) act =
    some fs.mountpoints
  dev : act .dev = true
  pos : 0 < fs.latestFd
  room : fs.latestFd + n ≤ 2 ^ 31
  keys : ∀ k ∈ AssocVec.keys fs.fdMapping.entries, k < fs.latestFd

theorem Ready.route (h : Ready act n fs) (fuel : Nat) :
    FileSystem.route fs.mountpoints stdinPath (fuel + 1) = some (some .dev) ∧
      FileSystem.route fs.mountpoints stdoutPath (fuel + 1) = some (some .dev) := by
  have hm := h.mounts
  rw [FileSystem.init] at hm
  split at hm
  case isFalse => cases hm
  rw [← Option.some.inj hm]
  simp only [FileSystem.mpCandidates, List.filter, h.dev]
  cases act .ext2Root <;> cases act .fat32Root <;> cases act .boot <;> cases act .virtKrn <;>
    exact ⟨rfl, rfl⟩

theorem Ready.fresh (h : Ready act n fs) :
    (fs.latestFd : Int) ∉ AssocVec.keys fs.fdMapping.entries :=
  fun hm => Int.lt_irrefl _ (h.keys _ hm)

/-- `t` is `fs` after an open of the device at `fp`. -/
structure OpenedDev (fp : CStr) (f : File) (fs t : FileSystem Mp (Devices σ)) : Prop where
  mountpoints : t.mountpoints = fs.mountpoints
  latestFd : t.latestFd = fs.latestFd + 1
  fdMapping : t.fdMapping = fs.fdMapping.insert fs.latestFd ⟨f, .dev⟩
  fps : t.drv.fps f.fsData = DevMpDriver.pathFrom fp 5
  stdin : t.drv.stdin = fs.drv.stdin

theorem Ready.open_dev (h : Ready act (n + 1) fs) {fp : CStr}
    (hr : FileSystem.route fs.mountpoints fp fuel = some (some .dev))
    (hfound : DevMpDriver.mappings.any (streq · (DevMpDriver.pathFrom fp 5)) = true) :
    ∃ f t, fs.open (withDevices heap others) fuel fp = some ((fs.latestFd : Int), t) ∧
      OpenedDev fp f fs t := by
  have hroom := h.room
  have hlt : fs.latestFd < 2 ^ 31 := by omega
  have hnew : ¬ fs.fdMapping.exists (fs.latestFd : Int) = true :=
    fun hx => h.fresh (Map.exists_iff.mp hx)
  let f : File := ⟨(heap.alloc fs.drv.rest).1, 0, true⟩
  let t : FileSystem Mp (Devices σ) :=
    { fs with
      latestFd := fs.latestFd + 1
      fdMapping := fs.fdMapping.insert fs.latestFd ⟨f, .dev⟩
      drv := { fs.drv with
        fps := Function.update fs.drv.fps f.fsData (DevMpDriver.pathFrom fp 5)
        rest := (heap.alloc fs.drv.rest).2 } }
  refine ⟨f, t, ?_, rfl, rfl, rfl, Function.update_self .., rfl⟩
  simp only [FileSystem.open, FileSystem.toFd_of_lt hlt, hnew, hr, withDevices, DevMpDriver.driver,
    hfound, Bool.false_eq_true, if_true, if_false, Option.map_some,
    Nat.mod_eq_of_lt (show fs.latestFd + 1 < 2 ^ 32 by omega), t, f]

theorem OpenedDev.ready {fp : CStr} {f : File} {t : FileSystem Mp (Devices σ)}
    (h : OpenedDev fp f fs t) (hr : Ready act (n + 1) fs) : Ready act n t where
  mounts := h.mountpoints ▸ hr.mounts
  dev := hr.dev
  pos := h.latestFd ▸ Nat.succ_pos _
  room := by
    have := hr.room
    have := h.latestFd
    omega
  keys k hk := by
    have hlatest := h.latestFd
    rw [h.fdMapping, Map.insert, AssocVec.keys, List.map_append, List.mem_append] at hk
    rcases hk with hk | hk
    · have := hr.keys k hk
      omega
    · have : k = fs.latestFd := List.mem_singleton.mp hk
      omega

theorem Ready.mono {k : Nat} (h : Ready act n fs) (hk : k ≤ n) : Ready act k fs :=
  ⟨h.mounts, h.dev, h.pos, Nat.le_trans (Nat.add_le_add_left hk _) h.room, h.keys⟩

theorem Ready.drv (h : Ready act n fs) (drv : Devices σ) : Ready act n { fs with drv } :=
  ⟨h.mounts, h.dev, h.pos, h.room, h.keys⟩

theorem not_modifier {sc : UInt8} (h : isPress sc = true) :
    ¬ sc &&& 0x80 ≠ 0 ∧ ¬ (sc = 0x2A ∨ sc = 0x36) ∧ sc ≠ 0x3A := by
  obtain ⟨v⟩ := sc
  revert v
  decide +kernel

/-! A descriptor of a device, and what the three other calls do with it. -/

section Open

variable {t : FileSystem Mp (Devices σ)} {fd : Int} {f : File}

theorem read_dev (h₀ : fd ≠ 0) (hget : t.fdMapping.get fd = some ⟨f, .dev⟩) (len : Nat) :
    t.read (withDevices heap others) fd len =
      some (DevMpDriver.read (t.drv.fps f.fsData) len t.drv, t) := by
  rw [(FileSystem.denotes_of_entry h₀ hget).read]
  rfl

theorem write_stdin (h₀ : fd ≠ 0) (hget : t.fdMapping.get fd = some ⟨f, .dev⟩)
    (hfp : t.drv.fps f.fsData = DevMpDriver.pathFrom stdinPath 5) (conts : List UInt8) (len : Nat) :
    ∃ r drv, t.write (withDevices heap others) fd conts len = some (r, { t with drv }) ∧
      drv.stdin = (t.drv.stdin.write conts len).2 := by
  rw [(FileSystem.denotes_of_entry h₀ hget).write]
  refine ⟨_, _, rfl, ?_⟩
  change (DevMpDriver.write (t.drv.fps f.fsData) conts len t.drv).2.stdin = _
  rw [hfp]
  rfl

theorem write_stdout (h₀ : fd ≠ 0) (hget : t.fdMapping.get fd = some ⟨f, .dev⟩)
    (hfp : t.drv.fps f.fsData = DevMpDriver.pathFrom stdoutPath 5) (conts : List UInt8)
    (len : Nat) :
    ∃ r drv, t.write (withDevices heap others) fd conts len = some (r, { t with drv }) ∧
      drv.stdin = t.drv.stdin := by
  rw [(FileSystem.denotes_of_entry h₀ hget).write]
  refine ⟨_, _, rfl, ?_⟩
  change (DevMpDriver.write (t.drv.fps f.fsData) conts len t.drv).2.stdin = _
  rw [hfp]
  rfl

theorem close_dev (h₀ : fd ≠ 0) (hget : t.fdMapping.get fd = some ⟨f, .dev⟩) :
    ∃ drv, t.close (withDevices heap others) fd =
        some { t with fdMapping := t.fdMapping.rmkey fd, drv } ∧ drv.stdin = t.drv.stdin := by
  rw [(FileSystem.denotes_of_entry h₀ hget).close]
  exact ⟨_, rfl, rfl⟩

end Open

/-- `t` is `fs` after a press that wrote `c`. -/
structure Pressed (c : UInt8) (fs t : FileSystem Mp (Devices σ)) : Prop where
  mountpoints : t.mountpoints = fs.mountpoints
  latestFd : t.latestFd = fs.latestFd + 2
  fdMapping : t.fdMapping = fs.fdMapping
  stdin : t.drv.stdin = (fs.drv.stdin.write [c] 1).2

theorem Pressed.ready {c : UInt8} {t : FileSystem Mp (Devices σ)} (h : Pressed c fs t)
    (hr : Ready act (n + 2) fs) : Ready act n t where
  mounts := h.mountpoints ▸ hr.mounts
  dev := hr.dev
  pos := by
    rw [h.latestFd]
    exact Nat.succ_pos _
  room := by
    have := hr.room
    have := h.latestFd
    omega
  keys k hk := by
    rw [h.fdMapping] at hk
    have := hr.keys k hk
    have := h.latestFd
    omega

/-- **A press** writes its character to `stdin`, and leaves no descriptor open. -/
theorem keyboardHandler_press {sc : UInt8} (h : Ready act (n + 2) fs) (hp : isPress sc = true)
    (k : KeyboardState) :
    ∃ t, keyboardHandler (withDevices heap others) (fuel + 1) sc (k, fs) = some (k, t) ∧
      Pressed (addedC k sc) fs t := by
  obtain ⟨hrelease, hshift, hcaps⟩ := not_modifier hp
  have ha : (fs.latestFd : Int) ≠ 0 := Int.natCast_ne_zero.mpr (Nat.ne_of_gt h.pos)
  -- `/dev/stdin` is opened, read and written
  obtain ⟨f, t₁, hopen, h₁⟩ := h.open_dev heap others (h.route fuel).1 rfl
  have hget : t₁.fdMapping.get fs.latestFd = some ⟨f, .dev⟩ := by
    rw [h₁.fdMapping, Map.get_insert h.fresh]
  have hread : (t₁.read (withDevices heap others) fs.latestFd 4096).map (·.2) = some t₁ := by
    rw [read_dev heap others ha hget]
    rfl
  obtain ⟨r, d₂, hwrite, hd₂⟩ :=
    write_stdin heap others ha hget h₁.fps [addedC k sc] 1
  have hr₂ := (h₁.ready h).drv d₂
  -- `/dev/stdout` is opened, written and closed
  have hb : (t₁.latestFd : Int) ≠ 0 := Int.natCast_ne_zero.mpr (Nat.ne_of_gt hr₂.pos)
  obtain ⟨f', t₃, hopen', h₃⟩ :=
    hr₂.open_dev heap others (hr₂.route fuel).2 rfl
  have hget' : t₃.fdMapping.get t₁.latestFd = some ⟨f', .dev⟩ := by
    rw [h₃.fdMapping, Map.get_insert hr₂.fresh]
  have hback : t₃.fdMapping.rmkey t₁.latestFd = t₁.fdMapping := by
    rw [h₃.fdMapping, Map.rmkey_insert hr₂.fresh]
  obtain ⟨r', d₄, hwrite', hd₄⟩ :=
    write_stdout heap others hb hget' h₃.fps [addedC k sc] 1
  obtain ⟨d₅, hclose, hd₅⟩ := close_dev heap others
    (t := { t₃ with drv := d₄ }) hb hget'
  -- and the table is what it was when `/dev/stdin` is closed too
  obtain ⟨d₆, hclose', hd₆⟩ := close_dev heap others
    (t := { t₃ with fdMapping := t₁.fdMapping, drv := d₅ }) ha hget
  dsimp only at hopen' hclose hclose' hd₅ hd₆
  rw [hback] at hclose
  have hrun : keyboardHandler (withDevices heap others) (fuel + 1) sc (k, fs) =
      some (k, { t₃ with fdMapping := t₁.fdMapping.rmkey fs.latestFd, drv := d₆ }) := by
    simp only [keyboardHandler, if_neg hrelease, if_neg hshift, if_neg hcaps, hopen, if_neg ha,
      hread, hwrite, hopen', hwrite', hclose, hclose', Option.bind_eq_bind, Option.bind_some,
      ite_self]
  refine ⟨_, hrun, h₃.mountpoints.trans h₁.mountpoints, ?_, ?_, ?_⟩
  · exact h₃.latestFd.trans (congrArg (· + 1) h₁.latestFd)
  · change t₁.fdMapping.rmkey fs.latestFd = fs.fdMapping
    rw [h₁.fdMapping, Map.rmkey_insert h.fresh]
  · change d₆.stdin = _
    rw [hd₆, hd₅, hd₄, h₃.stdin, hd₂, h₁.stdin]

theorem modifier_cases {sc : UInt8} (h : isPress sc = false) :
    (sc &&& 0x80 ≠ 0 ∧ (sc = 0xAA ∨ sc = 0xB6)) ∨
      (sc &&& 0x80 ≠ 0 ∧ sc ∉ [0x2A, 0x36, 0xAA, 0xB6] ∧ sc ≠ 0x3A) ∨
      (sc = 0x2A ∨ sc = 0x36) ∨ sc = 0x3A := by
  obtain ⟨v⟩ := sc
  revert v
  decide +kernel

/-- Any other code changes at most what the keyboard remembers. -/
theorem keyboardHandler_modifier {μ δ : Type} {drivers : μ → FileSystemDriver δ} {sc : UInt8}
    (h : isPress sc = false) (before : List UInt8) (fs : FileSystem μ δ) :
    keyboardHandler drivers fuel sc (stateAfter before, fs) =
      some (stateAfter (before ++ [sc]), fs) := by
  rw [stateAfter, stateAfter, shifted_concat, capsed_concat]
  rcases modifier_cases h with ⟨h80, rfl | rfl⟩ | ⟨h80, hshift, hcaps⟩ | (rfl | rfl) | rfl
  · rfl
  · rfl
  · have hrelease : ¬ (sc = 0xAA ∨ sc = 0xB6) := by
      rintro (rfl | rfl) <;> exact hshift (by decide)
    rw [keyboardHandler, if_pos h80, if_neg hrelease, if_neg hshift, if_neg hcaps]
  · rfl
  · rfl
  · rfl

/-- The bytes that presses store. -/
def stored (ps : List (Option UInt8)) : List UInt8 := ps.map (·.getD 0)

theorem pressesAfter_cons (before : List UInt8) (sc : UInt8) (scs : List UInt8) :
    pressesAfter before (sc :: scs) =
      (if isPress sc then [keyChar (shifted before) (capsed before) sc] else []) ++
        pressesAfter (before ++ [sc]) scs := rfl

theorem stateAfter_press {sc : UInt8} (h : isPress sc = true) (before : List UInt8) :
    stateAfter (before ++ [sc]) = stateAfter before := by
  obtain ⟨hrelease, hshift, hcaps⟩ := not_modifier h
  have hmem : sc ∉ ([0x2A, 0x36, 0xAA, 0xB6] : List UInt8) := by
    intro hm
    simp only [List.mem_cons, List.not_mem_nil, or_false] at hm
    rcases hm with rfl | rfl | rfl | rfl
    · exact hshift (.inl rfl)
    · exact hshift (.inr rfl)
    · exact hrelease (by decide)
    · exact hrelease (by decide)
  rw [stateAfter, stateAfter, shifted_concat, capsed_concat, if_neg hmem, if_neg hcaps]

/-- Every code is taken, and the buffer ends with what its press stores. -/
theorem keyboardHandler_step {before : List UInt8} {sc : UInt8} {cs scs : List UInt8}
    (h : Ready act (n + 2 * (pressesAfter before (sc :: scs)).length) fs)
    (hd : fs.drv.stdin.Holds cs)
    (hlen : cs.length + (pressesAfter before (sc :: scs)).length < 4096) :
    ∃ t cs', keyboardHandler (withDevices heap others) (fuel + 1) sc (stateAfter before, fs) =
        some (stateAfter (before ++ [sc]), t) ∧
      Ready act (n + 2 * (pressesAfter (before ++ [sc]) scs).length) t ∧ t.drv.stdin.Holds cs' ∧
      cs' ++ stored (pressesAfter (before ++ [sc]) scs) =
        cs ++ stored (pressesAfter before (sc :: scs)) := by
  cases hp : isPress sc with
  | false =>
      rw [pressesAfter_cons, hp] at h ⊢
      exact ⟨fs, cs, keyboardHandler_modifier hp before fs, h, hd, rfl⟩
  | true =>
      rw [pressesAfter_cons, hp] at h hlen ⊢
      simp only [if_true, List.singleton_append, List.length_cons] at h hlen ⊢
      rw [Nat.mul_succ, ← Nat.add_assoc] at h
      obtain ⟨t, hrun, ht⟩ := keyboardHandler_press heap others h hp (stateAfter before)
      refine ⟨t, cs ++ [addedC (stateAfter before) sc], ?_, ht.ready h, ?_, ?_⟩
      · rw [hrun, stateAfter_press hp]
      · rw [ht.stdin]
        exact hd.write (by omega) _
      · rw [stateAfter, addedC_eq, List.append_assoc]
        rfl

/-- **Whatever is typed** is taken, and ends in the buffer as its presses store it. -/
theorem type_stored (fuel : Nat) {before : List UInt8} {cs : List UInt8} (scs : List UInt8)
    (h : Ready act (n + 2 * (pressesAfter before scs).length) fs) (hd : fs.drv.stdin.Holds cs)
    (hlen : cs.length + (pressesAfter before scs).length < 4096) :
    ∃ t, type (withDevices heap others) (fuel + 1) scs (stateAfter before, fs) =
        some (stateAfter (before ++ scs), t) ∧
      Ready act n t ∧ t.drv.stdin.Holds (cs ++ stored (pressesAfter before scs)) := by
  induction scs generalizing before fs cs with
  | nil =>
      refine ⟨fs, ?_, h, ?_⟩
      · rw [List.append_nil]
        rfl
      · simpa [pressesAfter, stored] using hd
  | cons sc scs ih =>
      obtain ⟨u, cs', hrun, hu, hd', hcs⟩ := keyboardHandler_step heap others h hd hlen
      have hlen' := congrArg List.length hcs
      simp only [stored, List.length_append, List.length_map] at hlen'
      obtain ⟨t, htype, ht, hdt⟩ := ih hu hd' (by omega)
      rw [hcs] at hdt
      refine ⟨t, ?_, ht, hdt⟩
      rw [type, List.foldlM_cons, hrun]
      simpa [type] using htype

/-- What a reader finds. -/
theorem readLine_stored (fuel : Nat) {cs : List UInt8} {len : Nat} (h : Ready act (n + 1) fs)
    (hd : fs.drv.stdin.Holds cs) (hlt : cs.length < 4096) (hlen : cs.length < len) :
    readLine (withDevices heap others) (fuel + 1) len fs = some (cs.takeWhile (· ≠ 0)) := by
  have ha : (fs.latestFd : Int) ≠ 0 := Int.natCast_ne_zero.mpr (Nat.ne_of_gt h.pos)
  obtain ⟨f, t, hopen, ht⟩ := h.open_dev heap others (h.route fuel).1 rfl
  have hget : t.fdMapping.get fs.latestFd = some ⟨f, .dev⟩ := by
    rw [ht.fdMapping, Map.get_insert h.fresh]
  obtain ⟨rest, hrest⟩ := hd.read hlt hlen
  have hbuf : (DevMpDriver.read (t.drv.fps f.fsData) len t.drv).2 = cs ++ 0 :: rest := by
    rw [ht.fps, ← hrest, ← ht.stdin]
    rfl
  have hread : ∃ r, t.read (withDevices heap others) fs.latestFd len =
      some ((r, cs ++ 0 :: rest), t) := by
    rw [read_dev heap others ha hget, ← hbuf]
    exact ⟨_, rfl⟩
  obtain ⟨r, hread⟩ := hread
  rw [readLine, hopen]
  simp only [Option.bind_eq_bind, Option.bind_some, hread]
  rw [if_pos (by simp), List.takeWhile_append]
  split
  next hall =>
    rw [(List.takeWhile_prefix _).eq_of_length hall, List.takeWhile_cons_of_neg (by decide),
      List.append_nil]
  · rfl

end Calls

/-! ### The line -/

section Line

variable {ps : List (Option UInt8)} {l cs : List UInt8}

/-- What is stored up to the first NUL. -/
theorem takeWhile_stored (h : some 0 ∉ ps) : (stored ps).takeWhile (· ≠ 0) = upTo ps := by
  induction ps with
  | nil => rfl
  | cons p ps ih =>
      obtain ⟨hp, hps⟩ := List.ne_and_not_mem_of_not_mem_cons h
      cases p with
      | none => rfl
      | some c =>
          have hc : c ≠ 0 := fun h₀ => hp (congrArg some h₀.symm)
          have hcons : stored (some c :: ps) = c :: stored ps := rfl
          rw [hcons, List.takeWhile_cons_of_pos (by simpa using hc), ih hps]
          rfl

theorem takeWhile_isSome (ps : List (Option UInt8)) :
    ps.takeWhile (·.isSome) = (upTo ps).map some := by
  induction ps with
  | nil => rfl
  | cons p ps ih =>
      cases p with
      | none => rfl
      | some c =>
          have hcons : upTo (some c :: ps) = c :: upTo ps := rfl
          rw [List.takeWhile_cons_of_pos rfl, ih, hcons, List.map_cons]

/-- No backspace is left in a line. -/
theorem backspace_not_mem_edit (h : 8 ∉ l) (ps : List (Option UInt8)) :
    8 ∉ ps.foldl edit l := by
  induction ps generalizing l with
  | nil => exact h
  | cons p ps ih =>
      refine ih ?_
      cases p with
      | none => exact h
      | some c =>
          rw [edit]
          split
          · exact fun hm => h (List.mem_of_mem_dropLast hm)
          next hc =>
            rw [List.mem_append, List.mem_singleton, not_or]
            exact ⟨h, Ne.symm hc⟩

/-- Characters that are no backspaces are what they are. -/
theorem foldl_edit_some (h : 8 ∉ cs) (l : List UInt8) : (cs.map some).foldl edit l = l ++ cs := by
  induction cs generalizing l with
  | nil => simp
  | cons c cs ih =>
      obtain ⟨hc, hcs⟩ := List.ne_and_not_mem_of_not_mem_cons h
      rw [List.map_cons, List.foldl_cons, edit, if_neg (Ne.symm hc), ih hcs, List.append_assoc,
        List.singleton_append]

/-- The line is what is stored up to the first NUL exactly when nothing of that is edited. -/
theorem upTo_eq_edit_iff : upTo ps = ps.foldl edit [] ↔ Unedited ps := by
  have hsplit : ps.foldl edit [] =
      (ps.dropWhile (·.isSome)).foldl edit (((upTo ps).map some).foldl edit []) := by
    rw [← takeWhile_isSome, ← List.foldl_append, List.takeWhile_append_dropWhile]
  constructor
  · intro h
    have hback : 8 ∉ upTo ps := h ▸ backspace_not_mem_edit List.not_mem_nil ps
    rw [foldl_edit_some hback, List.nil_append] at hsplit
    exact ⟨hback, hsplit.symm.trans h.symm⟩
  · rintro ⟨hback, h⟩
    rw [hsplit, foldl_edit_some hback, List.nil_append, h]

end Line

/-! ### What a reader gets -/

section Typed

variable {σ : Type} {heap : FsDataHeap σ} {others : Mp → FileSystemDriver (Devices σ)}
  {act : Mp → Bool} {fuel len : Nat} {fs : FileSystem Mp (Devices σ)}

/-- The file system is mounted, nothing has been typed, and of the descriptors half are left. -/
structure Booted (act : Mp → Bool) (fs : FileSystem Mp (Devices σ)) : Prop where
  ready : Ready act (2 ^ 30) fs
  stdin : fs.drv.stdin = .init

/-- The text that is read after `scs` have been typed. -/
def typedText (drivers : Mp → FileSystemDriver (Devices σ)) (fuel len : Nat)
    (fs : FileSystem Mp (Devices σ)) (scs : List UInt8) : Option (List UInt8) := do
  let (_, fs) ← type drivers fuel scs (⟨false, false⟩, fs)
  readLine drivers fuel len fs

theorem typedText_eq (hb : Booted act fs) {scs : List UInt8} (hn : (presses scs).length < 4096)
    (hlen : (presses scs).length < len) :
    typedText (withDevices heap others) (fuel + 1) len fs scs = some (upTo (presses scs)) := by
  have hready : Ready act (1 + 2 * (pressesAfter [] scs).length) fs := by
    have : (pressesAfter [] scs).length < 4096 := hn
    exact hb.ready.mono (by omega)
  obtain ⟨t, htype, ht, hd⟩ := type_stored heap others fuel scs hready
    (hb.stdin ▸ StdinDevSubDriver.holds_init) (by simpa [presses] using hn)
  have hread := readLine_stored heap others fuel ht hd
    (by simpa [stored, presses] using hn) (by simpa [stored, presses] using hlen)
  rw [List.nil_append, takeWhile_stored (some_zero_not_mem_presses [] scs)] at hread
  rw [typedText]
  have hstart : stateAfter [] = ⟨false, false⟩ := rfl
  rw [hstart] at htype
  rw [htype]
  exact hread

end Typed

/-! ### A machine -/

/-- Blocks are taken one behind the other. -/
def bump : FsDataHeap UInt32 where
  alloc next := (next, next + 4)
  free _ next := next

/-- No other driver finds anything. -/
def nothing : FileSystemDriver (Devices UInt32) where
  «open» _ d := ((⟨0, 0, false⟩, false), d)
  write _ _ _ d := (.Error, d)
  read _ _ d := ((.Error, []), d)
  close _ d := d

def fromFat32 : Mp → Bool
  | .ext2Root => false
  | _ => true

theorem zero_notMem_dev : 0 ∉ ascii ['/', 'd', 'e', 'v', '/'] := by decide
theorem zero_notMem_root : 0 ∉ ascii ['/'] := by decide
theorem zero_notMem_boot : 0 ∉ ascii ['/', 'b', 'o', 'o', 't', '/'] := by decide
theorem zero_notMem_virtKrn : 0 ∉ ascii ['/', 'k', 'r', 'n', '/', 'v', 'i', 'r', 't', '/'] := by
  decide

def booted : FileSystem Mp (Devices UInt32) where
  mountpoints := [⟨.lit ['/', 'd', 'e', 'v', '/'] zero_notMem_dev, .dev⟩,
    ⟨.lit ['/'] zero_notMem_root, .fat32Root⟩,
    ⟨.lit ['/', 'b', 'o', 'o', 't', '/'] zero_notMem_boot, .boot⟩,
    ⟨.lit ['/', 'k', 'r', 'n', '/', 'v', 'i', 'r', 't', '/'] zero_notMem_virtKrn, .virtKrn⟩]
  latestFd := 1
  fdMapping := ⟨[]⟩
  drv := ⟨List.replicate 4096 0, .init, fun _ => .lit [] List.not_mem_nil, [], 0x1000⟩

theorem booted_booted : Booted fromFat32 booted where
  ready := ⟨rfl, rfl, Nat.one_pos, by decide, fun k hk => by cases hk⟩
  stdin := rfl

end Keyboard

end RivOS
