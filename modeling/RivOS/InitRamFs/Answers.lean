import RivOS.InitRamFs.Parsed

/-!
# InitRamFs — When the Python reader answers

`_walk` follows the offsets of the image, and calls itself once more for every directory that lies
in another.  Nothing keeps a directory from lying in itself.

* `Entered`: a directory so many levels below this one is come to before anything is found corrupt,
  said of the image alone; `walk_recursionError_iff` is its meaning for `_walk`.
* `entered_of_progress`: directories that lie in one another in a circle are entered at every level.
* `answers_iff`: the reader answers, with a tree or with `RivFsCorrupt`, exactly where no directory
  lies as deep as the calls of `_walk` that fit.
-/

namespace RivOS.RivFsData

variable (data : List UInt8)

/-! ### Directories in one another -/

/-- The list of files at `off` can be read. -/
def FilesRead (off : Nat) : Prop :=
  ∃ files, loop (fileTurn data) .endless (left data) (off, []) = .ok files

/-- The subdirectory at `off` and where the next one is; `none` is the mark at the end. -/
def dirHeader (off : Nat) : Except Raised (Option (DirEntry × Nat)) := do
  match ← readName data off with
  | (none, _) => return none
  | (some name, afterName) => do
      let sub ← readDir data (decodeReplace name) off afterName
      return some (sub, afterName + FPH_FIXED_SIZE)

/-- From `off` the list of subdirectories goes on to `stop`, and all before satisfy `P`. -/
inductive Passed (P : DirEntry → Prop) : Nat → Nat → Prop where
  | refl {off : Nat} : Passed P off off
  | more {off next stop : Nat} {sub : DirEntry} (h : dirHeader data off = .ok (some (sub, next)))
      (hP : P sub) (t : Passed P next stop) : Passed P off stop

/-- The directory can be read, and nothing in it lies `k` levels deep. -/
def ReadWithin : Nat → DirEntry → Prop
  | 0, _ => False
  | k + 1, d => FilesRead data d.fstart ∧ ∃ stop,
      Passed data (ReadWithin k) d.dirstart stop ∧ dirHeader data stop = .ok none

/-- Some directory lies `k` levels below this one, and what comes before it can be read. -/
def Entered : Nat → DirEntry → Prop
  | 0, _ => True
  | k + 1, d => FilesRead data d.fstart ∧ ∃ off sub next,
      Passed data (ReadWithin data k) d.dirstart off ∧
        dirHeader data off = .ok (some (sub, next)) ∧ Entered k sub

/-- Some directory lies `k` levels below the root. -/
def Nested (k : Nat) : Prop :=
  ∃ header warnings root, parseHeader data = .ok (header, warnings) ∧
    readDir data ['/'] header.fphPos header.fphPos = .ok root ∧ Entered data k root

/-- `RivFsImage` is constructed, or `RivFsCorrupt` is raised. -/
def Answers (frames : Nat) : Prop :=
  (∃ image, RivFsImage.init data frames = .ok image) ∨
    ∃ e, RivFsImage.init data frames = .error (.rivFsCorrupt e)

variable {data} {off k n : Nat} {d s : DirEntry} {dirs : List DirEntry} {ws : List Warning}
  {e : Raised} {r : List DirEntry × List Warning}

/-! ### What is raised -/

/-- Only `RivFsCorrupt` is. -/
def OnlyCorrupt {α : Type} (x : Except Raised α) : Prop :=
  ∀ e, x = .error e → ∃ c, e = .rivFsCorrupt c

section Readers

variable {α β : Type} {x : Except Raised α} {g : α → Except Raised β}

theorem onlyCorrupt_ok (a : α) : OnlyCorrupt (Except.ok a) := nofun

theorem onlyCorrupt_corrupt (c : RivFsCorrupt) : OnlyCorrupt (α := α) (.error (.rivFsCorrupt c)) := by
  rintro _ ⟨⟩
  exact ⟨c, rfl⟩

theorem OnlyCorrupt.bind (hx : OnlyCorrupt x) (hg : ∀ a, OnlyCorrupt (g a)) :
    OnlyCorrupt (x >>= g) := by
  intro e he
  rcases x with e' | a
  · cases he
    exact hx e rfl
  · exact hg a e he

theorem OnlyCorrupt.ne_recursionError (h : OnlyCorrupt x) : x ≠ .error .recursionError := by
  intro he
  obtain ⟨c, hc⟩ := h _ he
  cases hc

theorem OnlyCorrupt.ne_endless (h : OnlyCorrupt x) : x ≠ .error .endless := by
  intro he
  obtain ⟨c, hc⟩ := h _ he
  cases hc

theorem onlyCorrupt_checkBounds (off size : Nat) : OnlyCorrupt (checkBounds data off size) := by
  rw [checkBounds]
  split
  · exact onlyCorrupt_corrupt _
  · exact onlyCorrupt_ok _

theorem onlyCorrupt_uint (size off : Nat) : OnlyCorrupt (uint data size off) :=
  (onlyCorrupt_checkBounds _ _).bind fun _ => onlyCorrupt_ok _

theorem onlyCorrupt_readName (off : Nat) : OnlyCorrupt (readName data off) := by
  refine (onlyCorrupt_uint _ _).bind fun length => ?_
  split
  · exact onlyCorrupt_ok _
  · exact (onlyCorrupt_checkBounds _ _).bind fun _ => onlyCorrupt_ok _

theorem onlyCorrupt_readDir (name : Str) (offset pos : Nat) :
    OnlyCorrupt (readDir data name offset pos) :=
  (onlyCorrupt_uint _ _).bind fun _ => (onlyCorrupt_uint _ _).bind fun _ =>
    (onlyCorrupt_uint _ _).bind fun _ => (onlyCorrupt_uint _ _).bind fun _ =>
      (onlyCorrupt_uint _ _).bind fun _ => onlyCorrupt_ok _

theorem onlyCorrupt_parseHeader : OnlyCorrupt (parseHeader data) := by
  rw [parseHeader]
  split
  · exact onlyCorrupt_corrupt _
  · dsimp only
    split
    · exact onlyCorrupt_corrupt _
    · refine (onlyCorrupt_uint _ _).bind fun _ => (onlyCorrupt_uint _ _).bind fun _ =>
        (onlyCorrupt_uint _ _).bind fun _ => (onlyCorrupt_uint _ _).bind fun _ =>
          (onlyCorrupt_uint _ _).bind fun _ => ?_
      split
      · exact onlyCorrupt_corrupt _
      · exact onlyCorrupt_ok _

theorem onlyCorrupt_dirHeader (off : Nat) : OnlyCorrupt (dirHeader data off) := by
  refine (onlyCorrupt_readName _).bind fun q => ?_
  split
  · exact onlyCorrupt_ok _
  · exact (onlyCorrupt_readDir _ _ _).bind fun _ => onlyCorrupt_ok _

theorem onlyCorrupt_fileTurn (q : Nat × List FileEntry) : OnlyCorrupt (fileTurn data q) := by
  refine (onlyCorrupt_readName _).bind fun q => ?_
  split
  · exact onlyCorrupt_ok _
  · exact (onlyCorrupt_uint _ _).bind fun _ => (onlyCorrupt_checkBounds _ _).bind fun _ =>
      onlyCorrupt_ok _

end Readers

/-- The loop over the files ends, and raises nothing else. -/
theorem onlyCorrupt_files (off : Nat) :
    OnlyCorrupt (loop (fileTurn data) .endless (left data) (off, [])) := by
  intro e he
  rcases e with c | _ | _
  · exact ⟨c, rfl⟩
  · exact absurd he (turns_ne_error (by simp) fun u _ => (onlyCorrupt_fileTurn u).ne_recursionError)
  · exact absurd he (loop_ne_out fileTurn_shrinks fun u => (onlyCorrupt_fileTurn u).ne_endless)

/-! ### A turn of the loop over the subdirectories -/

variable {walk : DirEntry → Except Raised (DirEntry × List Warning)}

theorem dirTurn_end (h : dirHeader data off = .ok none) (dirs : List DirEntry)
    (ws : List Warning) : dirTurn data walk (off, dirs, ws) = .ok (.inr (dirs, ws)) := by
  obtain ⟨⟨_ | name, after⟩, hname, h⟩ := bind_eq_ok.mp h
  · rw [dirTurn, hname]
    rfl
  · obtain ⟨sub, -, h⟩ := bind_eq_ok.mp h
    cases h

theorem dirTurn_sub (h : dirHeader data off = .ok (some (s, n))) (dirs : List DirEntry)
    (ws : List Warning) : dirTurn data walk (off, dirs, ws) =
      (walk s).map fun q => .inl (n, dirs ++ [q.1], ws ++ q.2) := by
  obtain ⟨⟨_ | name, after⟩, hname, h⟩ := bind_eq_ok.mp h
  · cases h
  · obtain ⟨sub, hsub, h⟩ := bind_eq_ok.mp h
    cases h
    simp only [dirTurn, hname, hsub, ok_bind]
    rcases walk s with e | q <;> rfl

theorem dirTurn_error (h : dirHeader data off = .error e) (dirs : List DirEntry)
    (ws : List Warning) : dirTurn data walk (off, dirs, ws) = .error e := by
  rcases hname : readName data off with e' | ⟨_ | name, after⟩
  · simp only [dirHeader, hname] at h
    cases h
    simp only [dirTurn, hname]
    rfl
  · simp only [dirHeader, hname, ok_bind] at h
    cases h
  · rcases hsub : readDir data (decodeReplace name) off after with e' | sub
    · simp only [dirHeader, hname, hsub, ok_bind] at h
      cases h
      simp only [dirTurn, hname, hsub, ok_bind]
      rfl
    · simp only [dirHeader, hname, hsub, ok_bind] at h
      cases h

/-! ### The loop over the subdirectories -/

/-- A call of `walk` returns. -/
def Walks (walk : DirEntry → Except Raised (DirEntry × List Warning)) (d : DirEntry) : Prop :=
  ∃ r, walk d = .ok r

theorem passed_of_loop (h : turns (dirTurn data walk) .endless n (off, dirs, ws) = .ok r) :
    ∃ stop, Passed data (Walks walk) off stop ∧ dirHeader data stop = .ok none := by
  induction n generalizing off dirs ws with
  | zero => cases h
  | succ n ih =>
      obtain ⟨q, hq, h⟩ := bind_eq_ok.mp h
      rcases hhead : dirHeader data off with e | _ | ⟨sub, next⟩
      · rw [dirTurn_error hhead] at hq
        cases hq
      · exact ⟨off, .refl, hhead⟩
      · rw [dirTurn_sub hhead] at hq
        obtain ⟨q', hwalk, hq⟩ := map_eq_ok.mp hq
        cases hq
        obtain ⟨stop, hpassed, hend⟩ := ih h
        exact ⟨stop, .more hhead ⟨q', hwalk⟩ hpassed, hend⟩

/-- Up to a place that has been passed the loop is as if it began there. -/
theorem Passed.loop_eq {stop : Nat} (h : Passed data (Walks walk) off stop) (dirs : List DirEntry)
    (ws : List Warning) : ∃ dirs' ws', loop (dirTurn data walk) .endless (left data) (off, dirs, ws) =
      loop (dirTurn data walk) .endless (left data) (stop, dirs', ws') := by
  induction h generalizing dirs ws with
  | refl => exact ⟨dirs, ws, rfl⟩
  | more hhead hwalk _ ih =>
      obtain ⟨q, hwalk⟩ := hwalk
      obtain ⟨dirs', ws', hloop⟩ := ih (dirs ++ [q.1]) (ws ++ q.2)
      refine ⟨dirs', ws', Eq.trans (loop_turn dirTurn_shrinks ?_) hloop⟩
      rw [dirTurn_sub hhead, hwalk]
      rfl

/-- The recursion limit is met in a call, after others that have returned. -/
theorem entered_of_loop (h : turns (dirTurn data walk) .endless n (off, dirs, ws) =
      .error .recursionError) : ∃ stop sub next, Passed data (Walks walk) off stop ∧
        dirHeader data stop = .ok (some (sub, next)) ∧ walk sub = .error .recursionError := by
  induction n generalizing off dirs ws with
  | zero => cases h
  | succ n ih =>
      rw [turns] at h
      rcases hhead : dirHeader data off with e | _ | ⟨sub, next⟩
      · rw [dirTurn_error hhead] at h
        cases h
        exact absurd hhead (onlyCorrupt_dirHeader off).ne_recursionError
      · rw [dirTurn_end hhead] at h
        cases h
      · rw [dirTurn_sub hhead] at h
        rcases hwalk : walk sub with e | q
        · rw [hwalk] at h
          cases h
          exact ⟨off, sub, next, .refl, hhead, hwalk⟩
        · rw [hwalk] at h
          obtain ⟨stop, sub', next', hpassed, hrest⟩ := ih h
          exact ⟨stop, sub', next', .more hhead ⟨q, hwalk⟩ hpassed, hrest⟩

theorem Passed.congr {P Q : DirEntry → Prop} {stop : Nat} (hPQ : ∀ d, P d ↔ Q d) :
    Passed data P off stop ↔ Passed data Q off stop := by
  rw [show P = Q from funext fun d => propext (hPQ d)]

/-! ### `_walk` -/

theorem walk_ok_iff : (∃ r, RivFsData.walk data k d = .ok r) ↔ ReadWithin data k d := by
  induction k generalizing d with
  | zero => simp [RivFsData.walk, ReadWithin]
  | succ k ih =>
      rw [ReadWithin]
      constructor
      · rintro ⟨r, hr⟩
        obtain ⟨files, hfiles, hr⟩ := bind_eq_ok.mp hr
        obtain ⟨q, hdirs, -⟩ := bind_eq_ok.mp hr
        obtain ⟨stop, hpassed, hend⟩ := passed_of_loop hdirs
        exact ⟨⟨files, hfiles⟩, stop, (Passed.congr fun s => ih).mp hpassed, hend⟩
      · rintro ⟨⟨files, hfiles⟩, stop, hpassed, hend⟩
        obtain ⟨dirs, ws, hloop⟩ := ((Passed.congr fun s => ih).mpr hpassed).loop_eq []
          (if files.length ≠ d.fAm then [.fileCount d.name d.fAm files.length] else [])
        rw [loop_leave (dirTurn_end hend dirs ws)] at hloop
        rw [RivFsData.walk, hfiles, ok_bind]
        dsimp only
        rw [hloop]
        exact ⟨_, rfl⟩

theorem walk_recursionError_iff :
    RivFsData.walk data k d = .error .recursionError ↔ Entered data k d := by
  induction k generalizing d with
  | zero => simp [RivFsData.walk, Entered]
  | succ k ih =>
      rw [Entered, RivFsData.walk]
      constructor
      · intro h
        rcases bind_eq_error.mp h with hfiles | ⟨files, hfiles, h⟩
        · exact absurd hfiles (onlyCorrupt_files _).ne_recursionError
        rcases bind_eq_error.mp h with hdirs | ⟨q, -, h⟩
        · obtain ⟨stop, sub, next, hpassed, hhead, hsub⟩ := entered_of_loop hdirs
          exact ⟨⟨files, hfiles⟩, stop, sub, next, (Passed.congr fun s => walk_ok_iff).mp hpassed,
            hhead, ih.mp hsub⟩
        · cases h
      · rintro ⟨⟨files, hfiles⟩, stop, sub, next, hpassed, hhead, hsub⟩
        obtain ⟨dirs, ws, hloop⟩ := ((Passed.congr fun s => walk_ok_iff).mpr hpassed).loop_eq []
          (if files.length ≠ d.fAm then [.fileCount d.name d.fAm files.length] else [])
        have hturn : loop (dirTurn data (RivFsData.walk data k)) .endless (left data)
            (stop, dirs, ws) = .error .recursionError := by
          rw [RivOS.loop_eq dirTurn_shrinks, dirTurn_sub hhead, ih.mpr hsub]
          rfl
        rw [hfiles, ok_bind]
        dsimp only
        rw [hloop, hturn]
        rfl

theorem walk_ne_endless : RivFsData.walk data k d ≠ .error .endless := by
  induction k generalizing d with
  | zero => simp [RivFsData.walk]
  | succ k ih =>
      refine bind_ne_error (onlyCorrupt_files _).ne_endless fun files _ => ?_
      refine bind_ne_error (loop_ne_out dirTurn_shrinks fun u => ?_) fun q _ => nofun
      obtain ⟨off, dirs, ws⟩ := u
      rcases hhead : dirHeader data off with e | _ | ⟨sub, next⟩
      · rw [dirTurn_error hhead]
        rintro ⟨⟩
        exact (onlyCorrupt_dirHeader off).ne_endless hhead
      · rw [dirTurn_end hhead]
        nofun
      · rw [dirTurn_sub hhead]
        intro he
        rcases hwalk : RivFsData.walk data k sub with e | q
        · rw [hwalk] at he
          cases he
          exact ih hwalk
        · rw [hwalk] at he
          cases he

/-! ### The reader -/

theorem init_recursionError_iff (frames : Nat) :
    RivFsImage.init data frames = .error .recursionError ↔ Nested data frames := by
  rw [RivFsImage.init, Nested]
  constructor
  · intro h
    rcases bind_eq_error.mp h with hhead | ⟨⟨header, ws⟩, hhead, h⟩
    · exact absurd hhead onlyCorrupt_parseHeader.ne_recursionError
    rcases bind_eq_error.mp h with h | ⟨q, -, h⟩
    · rcases bind_eq_error.mp h with hroot | ⟨root, hroot, h⟩
      · exact absurd hroot (onlyCorrupt_readDir _ _ _).ne_recursionError
      rcases bind_eq_error.mp h with hwalk | ⟨q, -, h⟩
      · exact ⟨header, ws, root, hhead, hroot, walk_recursionError_iff.mp hwalk⟩
      · cases h
    · cases h
  · rintro ⟨header, ws, root, hhead, hroot, hentered⟩
    have hparse : parseRoot data frames header = .error .recursionError := by
      rw [parseRoot, hroot]
      simp only [ok_bind, walk_recursionError_iff.mpr hentered]
      rfl
    rw [hhead]
    simp only [ok_bind, hparse]
    rfl

theorem init_ne_endless (frames : Nat) : RivFsImage.init data frames ≠ .error .endless :=
  bind_ne_error onlyCorrupt_parseHeader.ne_endless fun _ _ =>
    bind_ne_error (bind_ne_error (onlyCorrupt_readDir _ _ _).ne_endless fun _ _ =>
      bind_ne_error walk_ne_endless fun _ _ => nofun) fun _ _ => nofun

/-- **The reader answers** exactly where no directory lies as deep as the calls that fit. -/
theorem answers_iff (data : List UInt8) (frames : Nat) :
    Answers data frames ↔ ¬ Nested data frames := by
  rw [← init_recursionError_iff, Answers]
  rcases hinit : RivFsImage.init data frames with (c | _ | _) | image
  · simp
  · simp
  · exact absurd hinit (init_ne_endless frames)
  · simp

/-! ### Directories in a circle -/

variable (data) in
/-- The first subdirectory. -/
def First (d s : DirEntry) : Prop :=
  FilesRead data d.fstart ∧ ∃ next, dirHeader data d.dirstart = .ok (some (s, next))

/-- Where the first subdirectory always has a first subdirectory there is no last level. -/
theorem entered_of_progress {I : DirEntry → Prop} (hI : ∀ d, I d → ∃ s, First data d s ∧ I s)
    (h : I d) : Entered data k d := by
  induction k generalizing d with
  | zero => trivial
  | succ k ih =>
      obtain ⟨s, ⟨hfiles, next, hhead⟩, hs⟩ := hI d h
      exact ⟨hfiles, d.dirstart, s, next, .refl, hhead, ih hs⟩

/-- A root with one directory, `a`, whose only subdirectory is itself. -/
def ringImage : List UInt8 :=
  Genfs.MAGIC ++ toLE 4 16 ++ toLE 4 19 ++ [0, 0] ++ toLE 4 1 ++
    toLE 2 1 ++ toLE 2 0 ++ toLE 4 39 ++ toLE 4 35 ++ toLE 4 0 ++
      toLE 4 0 ++
        (toLE 4 1 ++ [97] ++ toLE 2 1 ++ toLE 2 0 ++ toLE 4 39 ++ toLE 4 35 ++ toLE 4 0) ++ toLE 4 0

def ringDir (name : Str) (offset : Nat) : DirEntry := ⟨name, offset, 1, 0, 39, 35, 0, [], []⟩

theorem ring_first (name : Str) (offset : Nat) :
    First ringImage (ringDir name offset) (ringDir (decodeReplace [97]) 39) :=
  ⟨⟨[], loop_leave rfl⟩, 60, rfl⟩

/-- Whatever the limit is, it is met. -/
theorem not_answers_ring : ¬ ∃ frames, Answers ringImage frames := by
  rintro ⟨frames, h⟩
  have hring : Entered ringImage frames (ringDir ['/'] 19) := by
    refine entered_of_progress (I := fun d => ∃ name offset, d = ringDir name offset) ?_ ⟨_, _, rfl⟩
    rintro _ ⟨name, offset, rfl⟩
    exact ⟨_, ring_first name offset, _, _, rfl⟩
  have herror : RivFsImage.init ringImage frames = .error .recursionError :=
    (init_recursionError_iff frames).mpr ⟨_, _, _, rfl, rfl, hring⟩
  rcases h with ⟨image, hinit⟩ | ⟨e, hinit⟩ <;> cases herror.symm.trans hinit

end RivOS.RivFsData
