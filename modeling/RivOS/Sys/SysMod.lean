import RivOS.Lib.CString

/-!
# Sys — Modules and the framebuffer

`sys/sysmod.hpp`, `vis/vis.hpp` and `vis/vis.cpp`.  A process claims a kernel module by name,
installs a function for it and releases it; the framebuffer calls are answered only to the owner
of the module `Framebuffer`.

Pids and pointers are 32-bit words, `0` is the null pointer and the pid of no process.  The
address of `SysModuleHandler::doNothing` is a parameter.
-/

namespace RivOS

/-! ### `SysModuleHandler` -/

inductive SysModuleId where
  | Unknown
  | PIT
  | Framebuffer
deriving DecidableEq

structure SysModule where
  id : SysModuleId
  name : CStr

def SysModule.ofId : SysModuleId → SysModule
  | .PIT => ⟨.PIT, .lit ['P', 'I', 'T']⟩
  | .Framebuffer => ⟨.Framebuffer, .lit ['F', 'r', 'a', 'm', 'e', 'b', 'u', 'f', 'f', 'e', 'r']⟩
  | .Unknown => ⟨.Unknown, .lit ['U', 'n', 'k', 'n', 'o', 'w', 'n']⟩

namespace SysModuleHandler

structure Entry where
  module : SysModule
  owner : UInt32
  func : UInt32
  ownerDir : UInt32

/-- The constructor `Entry(SysModule)`. -/
def Entry.new (m : SysModuleId) : Entry := ⟨.ofId m, 0, 0, 0⟩

/-- The index of the entry `find` points to. -/
def find (entries : List Entry) (id : SysModuleId) : Option Nat :=
  entries.findIdx? fun e => e.module.id = id

def init : List Entry := [.new .PIT, .new .Framebuffer]

def toSysMId (mod : CStr) : SysModuleId :=
  if streq mod (SysModule.ofId .PIT).name then .PIT
  else if streq mod (SysModule.ofId .Framebuffer).name then .Framebuffer
  else .Unknown

/-- `find` as the entry itself, `nullptr` being `none`. -/
def entry (entries : List Entry) (id : SysModuleId) : Option Entry :=
  (find entries id).bind (entries[·]?)

/-- A store through the pointer `find` returned. -/
def store (entries : List Entry) (id : SysModuleId) (e : Entry) : List Entry :=
  (find entries id).elim entries (entries.set · e)

/-- What `claim`, `release` and `setFunc` share: the store `f` through the pointer `find` returned,
or `1` when there is none or the entry is refused. -/
def update (entries : List Entry) (id : SysModuleId) (refuse : Entry → Bool) (f : Entry → Entry) :
    UInt32 × List Entry :=
  match entry entries id with
  | none => (1, entries)
  | some e => if refuse e then (1, entries) else (0, store entries id (f e))

def claim (activeProcessPid : UInt32) (mod : CStr) (entries : List Entry) : UInt32 × List Entry :=
  let modId := toSysMId mod
  if modId = .Unknown then (1, entries)
  else update entries modId (fun e => e.owner ≠ 0) fun e => { e with owner := activeProcessPid }

/-- The only one of the three that does not test for `Unknown`. -/
def release (doNothing activeProcessPid : UInt32) (mod : CStr) (entries : List Entry) :
    UInt32 × List Entry :=
  let modId := toSysMId mod
  update entries modId (fun e => e.owner ≠ activeProcessPid) fun e =>
    { e with owner := 0, func := doNothing }

def setFunc (activeProcessPid activeDirectory : UInt32) (mod : CStr) (func : UInt32)
    (entries : List Entry) : UInt32 × List Entry :=
  let modId := toSysMId mod
  if modId = .Unknown then (1, entries)
  else update entries modId (fun e => e.owner ≠ activeProcessPid) fun e =>
    { e with func := func, ownerDir := activeDirectory }

def getFunc (doNothing : UInt32) (entries : List Entry) (id : SysModuleId) : UInt32 :=
  match entry entries id with
  | none => doNothing
  | some e => if e.func = 0 then doNothing else e.func

/-- `nullptr` when the module has no function. -/
def getFuncEntry (entries : List Entry) (id : SysModuleId) : Option Entry :=
  (entry entries id).filter fun e => e.func ≠ 0

def getowner (entries : List Entry) (id : SysModuleId) : UInt32 :=
  match entry entries id with
  | none => 0
  | some e => e.owner

end SysModuleHandler

/-! ### `Visuals` -/

/-- The framebuffer's geometry, as the multiboot tag gives it, and where its pixels start. -/
structure Visuals where
  pixels : UInt32
  fbPitch : UInt32
  fbWidth : UInt32
  fbHeight : UInt32
  fbAddr : UInt64

namespace Visuals

/-- `y * (fbPitch / 4) + x`, as 32-bit arithmetic computes it. -/
def idx (v : Visuals) (x y : UInt32) : UInt32 := y * (v.fbPitch / 4) + x

/-- The address of the cell `putPixel` writes for `(x, y)`: `&pixels[idx]`. -/
def cell (v : Visuals) (x y : UInt32) : UInt32 := v.pixels + v.idx x y * 4

/-- The stored pixels, by the address of their cell. -/
abbrev Pixels := UInt32 → UInt32

def putPixel (v : Visuals) (argb x y : UInt32) (mem : Pixels) : Pixels :=
  if x ≥ v.fbWidth ∨ y ≥ v.fbHeight then mem
  else fun a => if a = v.cell x y then argb else mem a

def getFbPhysAddr (v : Visuals) : UInt32 := v.fbAddr.toUInt32

def getFbSizeBytes (v : Visuals) : UInt32 := v.fbPitch * v.fbHeight

end Visuals

/-! ### `VisualsPidEnforced` -/

namespace VisualsPidEnforced
open SysModuleHandler

/-- `true` when the call is refused. -/
def enforce (activeProcessPid : UInt32) (entries : List SysModuleHandler.Entry) : Bool :=
  let ownerOfFb := getowner entries .Framebuffer
  if ownerOfFb = 0 then true
  else if activeProcessPid ≠ ownerOfFb then true
  else false

def putPixel (activeProcessPid : UInt32) (entries : List SysModuleHandler.Entry) (v : Visuals)
    (argb x y : UInt32) (mem : Visuals.Pixels) : UInt32 × Visuals.Pixels :=
  if enforce activeProcessPid entries then (1, mem) else (0, v.putPixel argb x y mem)

/-- The getters share one body: the value, or `0` when the call is refused. -/
def getter (activeProcessPid : UInt32) (entries : List SysModuleHandler.Entry) (value : UInt32) :
    UInt32 :=
  if enforce activeProcessPid entries then 0 else value

def getFbPhysAddr (pid : UInt32) (entries : List SysModuleHandler.Entry) (v : Visuals) : UInt32 :=
  getter pid entries v.getFbPhysAddr

def getFbSizeBytes (pid : UInt32) (entries : List SysModuleHandler.Entry) (v : Visuals) : UInt32 :=
  getter pid entries v.getFbSizeBytes

def getScreenHeight (pid : UInt32) (entries : List SysModuleHandler.Entry) (v : Visuals) : UInt32 :=
  getter pid entries v.fbHeight

def getScreenWidth (pid : UInt32) (entries : List SysModuleHandler.Entry) (v : Visuals) : UInt32 :=
  getter pid entries v.fbWidth

def getPitch (pid : UInt32) (entries : List SysModuleHandler.Entry) (v : Visuals) : UInt32 :=
  getter pid entries v.fbPitch

end VisualsPidEnforced

/-! ### Requests -/

/-- The calls a process can make on modules and on the framebuffer. -/
inductive SysCall where
  | claim (mod : CStr)
  | release (mod : CStr)
  | setFunc (mod : CStr) (func : UInt32)
  | putPixel (argb x y : UInt32)
  | getFbPhysAddr
  | getFbSizeBytes
  | getScreenHeight
  | getScreenWidth
  | getPitch

/-- A call with the pid and the page directory that are active when it is made. -/
structure Request where
  pid : UInt32
  dir : UInt32
  call : SysCall

structure SysState where
  entries : List SysModuleHandler.Entry
  pixels : Visuals.Pixels

/-- The value a request returns, and the state after it. -/
def SysState.exec (doNothing : UInt32) (v : Visuals) (s : SysState) (r : Request) :
    UInt32 × SysState :=
  match r.call with
  | .claim mod =>
      let (ret, es) := SysModuleHandler.claim r.pid mod s.entries
      (ret, { s with entries := es })
  | .release mod =>
      let (ret, es) := SysModuleHandler.release doNothing r.pid mod s.entries
      (ret, { s with entries := es })
  | .setFunc mod func =>
      let (ret, es) := SysModuleHandler.setFunc r.pid r.dir mod func s.entries
      (ret, { s with entries := es })
  | .putPixel argb x y =>
      let (ret, px) := VisualsPidEnforced.putPixel r.pid s.entries v argb x y s.pixels
      (ret, { s with pixels := px })
  | .getFbPhysAddr => (VisualsPidEnforced.getFbPhysAddr r.pid s.entries v, s)
  | .getFbSizeBytes => (VisualsPidEnforced.getFbSizeBytes r.pid s.entries v, s)
  | .getScreenHeight => (VisualsPidEnforced.getScreenHeight r.pid s.entries v, s)
  | .getScreenWidth => (VisualsPidEnforced.getScreenWidth r.pid s.entries v, s)
  | .getPitch => (VisualsPidEnforced.getPitch r.pid s.entries v, s)

end RivOS
