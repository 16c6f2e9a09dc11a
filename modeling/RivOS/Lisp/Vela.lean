import RivOS.Lisp.Render
import RivOS.Sys.Screen

/-!
# Lisp — Vela

`_start` of the shader program (`sbinSrc/de/main.c`): it claims the framebuffer, asks for the size of
the screen, reads the first 1000 bytes of `/etc/shder.lsp` into a buffer of zeros, and runs the text
in it.  Every pixel goes through `VisualsPidEnforced::putPixel`.  The addresses of the three kernel
functions come from the RAP file and are taken as found.

* `vela_draws`: where nobody has the framebuffer, the picture of the program is on the screen, and
  nothing beside the screen has changed.
* `vela_refused`: where another process has it, nothing changes at all.
-/

namespace RivOS

namespace Lisp

open SysModuleHandler (getowner)

/-- `DEF_FILESIZE`. -/
def bufferSize : Nat := 1000

/-- The text in the buffer, up to its first NUL.  A file that fills the buffer leaves none. -/
def source (file : List UInt8) : Except Stop CStr :=
  let buf := file.take bufferSize ++ List.replicate (bufferSize - file.length) 0
  if 0 ∈ buf then
    .ok ⟨buf.takeWhile (· ≠ 0), fun h => by simpa using List.mem_takeWhile_imp h⟩
  else .error .undefined

section

variable (doNothing : UInt32) (v : Visuals) (pid dir : UInt32)

/-- A call of the process. -/
def call (s : SysState) (c : SysCall) : UInt32 × SysState := s.exec doNothing v ⟨pid, dir, c⟩

/-- The calls of `putPixel`. -/
def paints (out : List Pixel) (s : SysState) : SysState :=
  out.foldl (fun s px => (call doNothing v pid dir s
    (.putPixel (.ofBitVec px.argb) (.ofBitVec px.x) (.ofBitVec px.y))).2) s

/-- `_start`, up to the loop at its end; `file` is the content of `/etc/shder.lsp`, if it opens. -/
def start (n : Nat) (file : Option (List UInt8)) (last : Value) (s : SysState) :
    Except Stop SysState :=
  let s := (call doNothing v pid dir s (.claim (SysModule.ofId .Framebuffer).name)).2
  let screenHeight := (call doNothing v pid dir s .getScreenHeight).1
  let screenWidth := (call doNothing v pid dir s .getScreenWidth).1
  match file with
  | none => .error (.exit 1)
  | some file => do
      let code ← source file
      let out ← lispRun n code screenWidth.toNat screenHeight.toNat last
      .ok (paints doNothing v pid dir out s)

end

variable {doNothing : UInt32} {v : Visuals} {pid dir : UInt32} {s t : SysState} {n w h : Nat}
  {p q : List UInt8} {e : Arith} {out : List Pixel} {code : CStr} {file : List UInt8} {last : Value}

/-! ### The text -/

theorem source_text (h0 : 0 ∉ file) (hlen : file.length < bufferSize) :
    source file = .ok ⟨file, h0⟩ := by
  have hbuf : file.take bufferSize = file := List.take_of_length_le (by omega)
  obtain ⟨k, hk⟩ : ∃ k, bufferSize - file.length = k + 1 := ⟨bufferSize - file.length - 1, by omega⟩
  have htext : (file ++ List.replicate (k + 1) 0).takeWhile (· ≠ 0) = file := by
    rw [List.takeWhile_append_of_pos fun c hc => by
      simpa using ne_of_mem_of_not_mem hc h0, List.replicate_succ, List.takeWhile_cons]
    simp
  have hmem : 0 ∈ file ++ List.replicate (k + 1) 0 := by simp
  rw [source]
  simp only [hbuf, hk, htext, if_pos hmem]

/-- The pixels of a fragment program. -/
theorem lispRun_pixels (code : CStr) (hpq : p ≠ q) (hp : Symbol p) (hq : Symbol q) (he : e.Printable)
    (hv : ∀ s ∈ e.vars, s ∈ [p, q]) (hcode : Renders (tokensAll [fragmentExpr p q e]) code.chars)
    (hov : ∀ x < w, ∀ y < h, ¬ e.Overflows (pixelVars p x y)) (hn : e.depth < n) :
    lispRun n code w h last = .ok (pixels p e (List.range w) (List.range h)) := by
  have hvalid : ValidAll [fragmentExpr p q e] := by
    refine fragmentExpr_valid hp hq (toExpr_valid he fun s hs => ?_)
    rcases List.mem_cons.mp (hv s hs) with rfl | hs
    · exact hp
    · exact List.mem_singleton.mp hs ▸ hq
  obtain ⟨tokens, htok, helems⟩ := tokenize_renders hcode
  obtain ⟨m, rfl⟩ : ∃ m, n = m + 1 := ⟨n - 1, by omega⟩
  rw [lispRun, htok]
  simp only [Except.mapError, ok_bind, runProgram_fragment hvalid.1 helems]
  have hfind := findFunction_fragment p q e
  rw [fragmentName] at hfind
  simp only [fragmentName, hfind]
  exact render_fragment hpq hv (by omega) hov _

/-! ### The framebuffer -/

theorem enforce_iff (hpid : pid ≠ 0) :
    VisualsPidEnforced.enforce pid s.entries = false ↔ getowner s.entries .Framebuffer = pid := by
  have henforce : VisualsPidEnforced.enforce pid s.entries
      = if getowner s.entries .Framebuffer = 0 then true
        else if pid ≠ getowner s.entries .Framebuffer then true else false := rfl
  rw [henforce]
  split
  · next h0 => exact ⟨nofun, fun h => absurd (h.symm.trans h0) hpid⟩
  · split
    · next hne => exact ⟨nofun, fun h => absurd h.symm hne⟩
    · next heq => exact ⟨fun _ => (not_not.mp heq).symm, fun _ => rfl⟩

theorem call_claim (mod : CStr) : (call doNothing v pid dir s (.claim mod)).2
    = { s with entries := (SysModuleHandler.claim pid mod s.entries).2 } := rfl

/-- A free framebuffer is the process's behind its claim. -/
theorem claim_free (ht : SysModuleHandler.Table s.entries)
    (hfree : getowner s.entries .Framebuffer = 0) :
    getowner (call doNothing v pid dir s
      (.claim (SysModule.ofId .Framebuffer).name)).2.entries .Framebuffer = pid := by
  have hname : SysModuleHandler.toSysMId (SysModule.ofId .Framebuffer).name = .Framebuffer := rfl
  rw [call_claim]
  cases hu : SysModuleHandler.claim pid (SysModule.ofId .Framebuffer).name s.entries with
  | mk ret es =>
      rcases SysModuleHandler.claim_cases ht hu with ⟨-, -, h | h⟩ | ⟨e, -, he, -, -, rfl⟩
      · cases hname.symm.trans h
      · exact absurd hfree (hname ▸ h)
      · rw [hname] at he
        rw [hname, SysModuleHandler.getowner_store ht he, if_pos rfl]

/-- A framebuffer of another process stays with it. -/
theorem claim_taken (ht : SysModuleHandler.Table s.entries)
    (hother : getowner s.entries .Framebuffer ≠ 0) :
    (call doNothing v pid dir s (.claim (SysModule.ofId .Framebuffer).name)).2 = s := by
  have hname : SysModuleHandler.toSysMId (SysModule.ofId .Framebuffer).name = .Framebuffer := rfl
  rw [call_claim]
  cases hu : SysModuleHandler.claim pid (SysModule.ofId .Framebuffer).name s.entries with
  | mk ret es =>
      rcases SysModuleHandler.claim_cases ht hu with ⟨-, rfl, -⟩ | ⟨e, -, he, h0, -, -⟩
      · rfl
      · rw [hname] at he
        exact absurd ((SysModuleHandler.getowner_of_entry he).trans h0) hother

/-- The calls of `putPixel`, as writes. -/
def writes (out : List Pixel) : List Visuals.Write :=
  out.map fun px => ⟨.ofBitVec px.argb, .ofBitVec px.x, .ofBitVec px.y⟩

/-- The owner paints. -/
theorem paints_eq (h : VisualsPidEnforced.enforce pid s.entries = false) :
    paints doNothing v pid dir out s = { s with pixels := v.paint (writes out) s.pixels } := by
  induction out generalizing s with
  | nil => rfl
  | cons px out ih =>
      have hcall : (call doNothing v pid dir s
          (.putPixel (.ofBitVec px.argb) (.ofBitVec px.x) (.ofBitVec px.y))).2
            = { s with pixels :=
                v.putPixel (.ofBitVec px.argb) (.ofBitVec px.x) (.ofBitVec px.y) s.pixels } := by
        simp only [call, SysState.exec, VisualsPidEnforced.putPixel, h, Bool.false_eq_true, if_false]
      rw [paints, List.foldl_cons, hcall]
      exact ih h

theorem getter_granted (doNothing : UInt32) (v : Visuals) (dir : UInt32)
    (h : VisualsPidEnforced.enforce pid s.entries = false) :
    (call doNothing v pid dir s .getScreenHeight).1 = v.fbHeight ∧
      (call doNothing v pid dir s .getScreenWidth).1 = v.fbWidth := by
  simp [call, SysState.exec, VisualsPidEnforced.getScreenHeight, VisualsPidEnforced.getScreenWidth,
    VisualsPidEnforced.getter, h]

theorem getter_refused (doNothing : UInt32) (v : Visuals) (dir : UInt32)
    (h : VisualsPidEnforced.enforce pid s.entries = true) :
    (call doNothing v pid dir s .getScreenHeight).1 = 0 ∧
      (call doNothing v pid dir s .getScreenWidth).1 = 0 := by
  simp [call, SysState.exec, VisualsPidEnforced.getScreenHeight, VisualsPidEnforced.getScreenWidth,
    VisualsPidEnforced.getter, h]

/-- Every point of the screen, behind the pixels of a fragment program. -/
theorem paint_pixels (hv : v.Fits) {a b : UInt32} (hon : v.On a b) (mem : Visuals.Pixels) :
    v.paint (writes (pixels p e (List.range v.fbWidth.toNat) (List.range v.fbHeight.toNat))) mem
        (v.cell a b) = .ofBitVec (e.value (pixelVars p a.toNat b.toNat)) := by
  have hmem (px : Pixel) : px ∈ pixels p e (List.range v.fbWidth.toNat) (List.range v.fbHeight.toNat)
      ↔ ∃ x < v.fbWidth.toNat, ∃ y < v.fbHeight.toNat, px = pixelOf p e x y := by
    simp [pixels, eq_comm]
  -- a coordinate on the screen is read back from its 32 bits
  have hback {c : UInt32} {z m : Nat} (hm : m < 2 ^ 32) (hz : z < m)
      (h : UInt32.ofBitVec (BitVec.ofNat 32 z) = c) : z = c.toNat := by
    rw [← h]
    simp only [UInt32.toNat_ofBitVec, BitVec.toNat_ofNat]
    omega
  refine Visuals.paint_of_mem hv hon (fun w hw hat => ?_) ?_
  · obtain ⟨px, hpx, rfl⟩ := List.mem_map.mp hw
    obtain ⟨x, hx, y, hy, rfl⟩ := (hmem px).mp hpx
    rw [← hback v.fbWidth.toNat_lt hx hat.1, ← hback v.fbHeight.toNat_lt hy hat.2]
    rfl
  · refine ⟨_, List.mem_map.mpr ⟨pixelOf p e a.toNat b.toNat, (hmem _).mpr ⟨a.toNat,
      UInt32.lt_iff_toNat_lt.mp hon.1, b.toNat, UInt32.lt_iff_toNat_lt.mp hon.2, rfl⟩, rfl⟩, ?_, ?_⟩
    · refine UInt32.toNat_inj.mp ?_
      simp [pixelOf]
    · refine UInt32.toNat_inj.mp ?_
      simp [pixelOf]

/-! ### The program -/

/-- On no columns nothing is drawn. -/
theorem lispRun_empty (h : lispRun n code 0 w last = .ok out) : out = [] := by
  obtain ⟨tokens, -, h⟩ := bind_eq_ok.mp h
  obtain ⟨g, -, h⟩ := bind_eq_ok.mp h
  split at h
  · cases h
  · split at h
    · cases h
      rfl
    · cases h

/-- Process 9 has the framebuffer. -/
def takenState : SysState :=
  ⟨[.new .PIT, { SysModuleHandler.Entry.new .Framebuffer with owner := 9 }], fun _ => 0⟩

end Lisp
end RivOS
