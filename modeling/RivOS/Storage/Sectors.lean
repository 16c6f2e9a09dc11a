import RivOS.Storage.AtaPio
import RivOS.Support.Paging
import RivOS.Support.Runs

/-!
# Storage — The sectors of a drive as an array

Any sequence of `readSector` and `writeSector` calls on one drive.  The registers take 28 bits of the
number of a sector, and neither call asks whether it has more: it then works on the sector that the
low 28 bits name, and still reports `Sucess`.

* `contents`: what the writes with one sector number make of that sector.
* `performAll_eq`: what the calls do, with the numbers cut.
* `sectors_iff`: the calls behave as on an array exactly when every number has 28 bits.
-/

namespace RivOS

namespace AtaPio

open StorageDriver (SuccessCodes)

/-- The arguments of a write: `len` bytes, at most a sector of them, of a buffer that has as many. -/
structure Contents where
  conts : List UInt8
  len : Nat
  short : len ≤ 512
  there : len ≤ conts.length

inductive Call where
  | read (buflen : Nat) (sector : Word)
  | write (data : Contents) (sector : Word)

namespace Call

def sector : Call → Nat
  | read _ sector => sector.toNat
  | write _ sector => sector.toNat

/-- The device has a sector of that number. -/
def Addressable (call : Call) : Prop := call.sector < 2 ^ 28

instance (call : Call) : Decidable call.Addressable := inferInstanceAs (Decidable (_ < _))

end Call

/-- What a call returns, and the bytes it stores for its caller. -/
abbrev Answer : Type := SuccessCodes × List UInt8

def perform : Call → Driver → Except (Option Halt) (Answer × Driver)
  | .read buflen sector, d => readSector buflen sector.toNat d
  | .write data sector, d =>
      (writeSector data.conts data.len sector.toNat d).map fun (code, d) => ((code, []), d)

structure Event where
  call : Call
  answer : Answer

/-- The calls one after the other. -/
def performAll (calls : List Call) (d : Driver) : Except (Option Halt) (List Event × Driver) :=
  calls.foldlM (fun (es, d) call => do
    let (answer, d) ← perform call d
    return (es ++ [⟨call, answer⟩], d)) ([], d)

/-! ### The array -/

/-- A sector after a call: the first `len` bytes of its own sector are what a write replaces. -/
def Call.after (s : Nat) (bytes : Nat → UInt8) : Call → Nat → UInt8
  | .read _ _ => bytes
  | .write data sector =>
      if sector.toNat = s then store bytes 0 (data.conts.take data.len) else bytes

/-- Sector `s` after these calls. -/
def contents (disk : Disk) (calls : List Call) (s : Nat) : Nat → UInt8 :=
  calls.foldl (Call.after s) (disk s)

/-- The answer to a call after these. -/
def expected (disk : Disk) (calls : List Call) : Call → Answer
  | .read buflen sector =>
      if sector.toNat < 2 ^ 28 then
        (.Sucess, (load (contents disk calls sector.toNat) 0 512).take (2 * min 256 buflen))
      else (.Error, [])
  | .write _ sector => (if sector.toNat < 2 ^ 28 then .Sucess else .Error, [])

/-- Every call is answered as on an array, and the drive is left with what the array would hold. -/
structure ActsAsArray (d : Driver) (disk : Disk) (es : List Event) (t : Driver) : Prop where
  answers : Along (fun pre e => e.answer = expected disk (pre.map (·.call)) e.call) es
  drive : t.driveSelect = d.driveSelect
  sectors : ∃ disk', t.channel.drives = Function.update d.channel.drives d.driveSelect (some disk') ∧
    ∀ s < 2 ^ 28, disk' s = contents disk (es.map (·.call)) s

/-! ### What the calls do -/

variable {d t : Driver} {disk : Disk} {call : Call} {calls : List Call} {es : List Event}

/-- What the code makes of the sectors. -/
def Call.effect (disk : Disk) : Call → Disk
  | .read _ _ => disk
  | .write data sector => Function.update disk (sector.toNat % 2 ^ 28)
      (store (disk (sector.toNat % 2 ^ 28)) 0 (data.conts.take data.len))

/-- What the code answers. -/
def Call.answer (disk : Disk) : Call → Answer
  | .read buflen sector =>
      (.Sucess, (Storage.readSector disk (sector.toNat % 2 ^ 28)).take (2 * min 256 buflen))
  | .write _ _ => (.Sucess, [])

theorem perform_eq (h : d.channel.drives d.driveSelect = some disk) (call : Call) :
    ∃ c, perform call d = .ok (call.answer disk, ⟨d.driveSelect, c⟩) ∧
      c.drives = Function.update d.channel.drives d.driveSelect (some (call.effect disk)) := by
  cases call with
  | read buflen sector =>
      obtain ⟨c, hread, hdrives⟩ := readSector_eq h buflen sector.toNat
      refine ⟨c, hread, hdrives.trans ?_⟩
      rw [Call.effect, ← h, Function.update_eq_self]
  | write data sector =>
      obtain ⟨c, hwrite, hdrives⟩ := writeSector_eq h data.there sector.toNat
      refine ⟨c, ?_, ?_⟩
      · rw [perform, hwrite]
        rfl
      · rw [hdrives, Nat.min_eq_left data.short]
        rfl

theorem performAll_concat (calls : List Call) (call : Call) (d : Driver) :
    performAll (calls ++ [call]) d = (do
      let (es, d) ← performAll calls d
      let (answer, d) ← perform call d
      return (es ++ [⟨call, answer⟩], d)) := by
  rw [performAll, List.foldlM_append]
  refine congrArg _ (funext fun x => ?_)
  rw [List.foldlM_cons]
  exact bind_pure _

/-- **A sequence of calls**: each answered from what the drive has in it, by the low 28 bits. -/
theorem performAll_eq (h : d.channel.drives d.driveSelect = some disk) (calls : List Call) :
    ∃ es c, performAll calls d = .ok (es, ⟨d.driveSelect, c⟩) ∧ es.map (·.call) = calls ∧
      c.drives = Function.update d.channel.drives d.driveSelect
        (some (calls.foldl Call.effect disk)) ∧
      Along (fun pre e => e.answer =
        e.call.answer ((pre.map (·.call)).foldl Call.effect disk)) es := by
  induction calls using List.reverseRecOn with
  | nil =>
      refine ⟨[], d.channel, rfl, rfl, ?_, along_nil _⟩
      rw [List.foldl_nil, ← h, Function.update_eq_self]
  | append_singleton calls call ih =>
      obtain ⟨es, c, hall, hcalls, hdrives, hanswers⟩ := ih
      have h' : c.drives d.driveSelect = some (calls.foldl Call.effect disk) := by
        rw [hdrives, Function.update_self]
      obtain ⟨c', hcall, hdrives'⟩ := perform_eq (d := ⟨d.driveSelect, c⟩) h' call
      refine ⟨es ++ [⟨call, call.answer (calls.foldl Call.effect disk)⟩], c', ?_, ?_, ?_, ?_⟩
      · rw [performAll_concat, hall, ok_bind]
        dsimp only
        rw [hcall]
        rfl
      · rw [List.map_append, hcalls]
        rfl
      · rw [hdrives', List.foldl_append]
        dsimp only
        rw [hdrives, Function.update_idem]
        rfl
      · refine (along_concat_iff es _).mpr ⟨hanswers, ?_⟩
        rw [hcalls]

/-! ### Numbers of 28 bits -/

theorem Call.effect_apply (h : call.Addressable) (disk : Disk) (s : Nat) :
    call.effect disk s = call.after s (disk s) := by
  cases call with
  | read _ _ => rfl
  | write data sector =>
      have hmod : sector.toNat % 2 ^ 28 = sector.toNat := Nat.mod_eq_of_lt h
      rw [Call.effect, Call.after, hmod]
      by_cases hs : sector.toNat = s
      · rw [if_pos hs, ← hs, Function.update_self]
      · rw [if_neg hs, Function.update_of_ne (Ne.symm hs)]

theorem foldl_effect_eq (h : ∀ call ∈ calls, call.Addressable) (disk : Disk) :
    calls.foldl Call.effect disk = contents disk calls := by
  funext s
  induction calls using List.reverseRecOn with
  | nil => rfl
  | append_singleton calls call ih =>
      have ih := ih fun call' hmem => h call' (List.mem_append_left _ hmem)
      rw [contents] at ih ⊢
      rw [List.foldl_append, List.foldl_append, List.foldl_cons, List.foldl_nil, List.foldl_cons,
        List.foldl_nil, Call.effect_apply (h call (by simp)), ih]

theorem Call.answer_eq (h : call.Addressable) (disk : Disk) (calls : List Call) :
    call.answer (contents disk calls) = expected disk calls call := by
  cases call with
  | read buflen sector =>
      rw [expected, if_pos (show sector.toNat < 2 ^ 28 from h), Call.answer,
        Storage.readSector_eq_load, Nat.mod_eq_of_lt (show sector.toNat < 2 ^ 28 from h)]
  | write data sector => rw [expected, if_pos (show sector.toNat < 2 ^ 28 from h), Call.answer]

/-- The code has no `Error` to report. -/
theorem Call.answer_ne (h : ¬ call.Addressable) (disk disk' : Disk) (calls : List Call) :
    call.answer disk' ≠ expected disk calls call := by
  intro he
  have hcode := congrArg Prod.fst he
  cases call with
  | read buflen sector =>
      rw [expected, if_neg (show ¬ sector.toNat < 2 ^ 28 from h)] at hcode
      cases hcode
  | write data sector =>
      rw [expected, if_neg (show ¬ sector.toNat < 2 ^ 28 from h)] at hcode
      cases hcode

/-- What a sequence of calls needs. -/
theorem actsAsArray_iff (hdrive : t.driveSelect = d.driveSelect)
    (hdrives : t.channel.drives = Function.update d.channel.drives d.driveSelect
      (some ((es.map (·.call)).foldl Call.effect disk)))
    (hanswers : Along (fun pre e => e.answer =
      e.call.answer ((pre.map (·.call)).foldl Call.effect disk)) es) :
    ActsAsArray d disk es t ↔ ∀ e ∈ es, e.call.Addressable := by
  constructor
  · intro h e he
    by_contra hnot
    obtain ⟨pre, post, rfl⟩ := List.append_of_mem he
    exact Call.answer_ne hnot disk _ _ ((hanswers pre e post rfl).symm.trans
      (h.answers pre e post rfl))
  · intro h
    refine ⟨?_, hdrive, _, hdrives, fun s _ => ?_⟩
    · rintro pre e post rfl
      have hpre : ∀ call ∈ pre.map (·.call), call.Addressable := by
        intro call hcall
        obtain ⟨e', he', rfl⟩ := List.mem_map.mp hcall
        exact h e' (List.mem_append_left _ he')
      rw [hanswers pre e post rfl, foldl_effect_eq hpre]
      exact Call.answer_eq (h e (by simp)) disk _
    · rw [foldl_effect_eq]
      exact List.forall_mem_map.mpr h

/-- **When the sectors of a drive are an array**: no number has more than 28 bits. -/
theorem sectors_iff (h : d.channel.drives d.driveSelect = some disk) (calls : List Call) :
    ∃ es t, performAll calls d = .ok (es, t) ∧ es.map (·.call) = calls ∧
      (ActsAsArray d disk es t ↔ ∀ call ∈ calls, call.Addressable) := by
  obtain ⟨es, c, hall, rfl, hdrives, hanswers⟩ := performAll_eq h calls
  refine ⟨es, _, hall, rfl, ?_⟩
  exact (actsAsArray_iff (d := d) (t := ⟨_, c⟩) rfl hdrives hanswers).trans
    List.forall_mem_map.symm

/-! ### A drive of zeros -/

def blank : Driver :=
  ⟨.masterdrive, ⟨0, 0, 0, 0, 0, .none, 0, 0, fun _ => 0, fun _ => some fun _ _ => 0⟩⟩

theorem blank_drive : blank.channel.drives blank.driveSelect = some fun _ _ => 0 := rfl

/-- One byte, `A`. -/
def oneByte : Contents := ⟨[65], 1, by decide, by decide⟩

theorem sectors_blank : ∃ es t, performAll [.write oneByte 5, .read 256 5] blank = .ok (es, t) ∧
    ActsAsArray blank (fun _ _ => 0) es t := by
  obtain ⟨es, t, hall, -, hiff⟩ :=
    sectors_iff blank_drive [.write oneByte 5, .read 256 5]
  refine ⟨es, t, hall, hiff.mpr ?_⟩
  simp [Call.Addressable, Call.sector]

/-- The first sector behind the last one of the device: the byte is stored in sector 0. -/
theorem sectors_beyond : ∃ es t disk', performAll [.write oneByte 0x10000000] blank = .ok (es, t) ∧
    t.channel.drives .masterdrive = some disk' ∧ disk' 0 0 = 65 ∧
    ¬ ActsAsArray blank (fun _ _ => 0) es t := by
  obtain ⟨es, c, hall, hcalls, hdrives, hanswers⟩ :=
    performAll_eq blank_drive [.write oneByte 0x10000000]
  have hdisk : c.drives .masterdrive = some (Call.effect (fun _ _ => 0)
      (.write oneByte 0x10000000)) := by
    rw [hdrives]
    exact Function.update_self ..
  refine ⟨es, _, _, hall, hdisk, rfl, fun h => ?_⟩
  rw [← hcalls] at hdrives
  have hall := (actsAsArray_iff (d := blank) (t := ⟨_, c⟩) rfl hdrives hanswers).mp h
  have hcall : Call.Addressable (.write oneByte 0x10000000) := by
    refine List.forall_mem_map.mpr hall _ ?_
    rw [hcalls]
    exact List.mem_singleton_self _
  exact absurd hcall (by decide)

end AtaPio

end RivOS
