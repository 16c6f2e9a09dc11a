import RivOS.Lisp.Parse

/-!
# Lisp — The interpreter

`execExpr` and what it calls (`sbinSrc/de/lisp/lisp.c`).  The variables and the functions are
global.  `execExpr` takes a bound on how deep its calls nest, and the built-in forms take the
function that executes their parts.  What a program prints is not modelled.

`findFunction` returns a pointer into the vector of the functions; it dangles as soon as that
vector gets new storage, which is when its capacity changes (`alive`).  The parameters and the
body that the entry points to stay where they are, and `paramc` and `bodyc` are their lengths.
-/

namespace RivOS

namespace Lisp

inductive Value where
  | none
  | int (intVal : Word)
  | string (strVal : List UInt8)
deriving DecidableEq

/-- `val.intVal`, whatever the type: the member shares its place with the length of a string. -/
def Value.intVal : Value → Word
  | .none => 0
  | .int v => v
  | .string s => BitVec.ofNat 32 s.length

structure VariableMapEntry where
  name : List UInt8
  val : Value

structure FunctionEntry where
  fnName : List UInt8
  body : List Expr
  params : List (List UInt8)

structure Enviroment where
  functions : Vector FunctionEntry
  variableMap : Vector VariableMapEntry

/-- `globalScope` and `lastReturnvalue`. -/
structure Globals where
  scope : Enviroment
  lastReturnvalue : Value

/-! ### Variables and functions -/

def enviromentInit : Enviroment := ⟨.init, .init⟩

def svEq (sv₁ sv₂ : List UInt8) : Bool := sv₁ = sv₂

/-- Compares as many characters as the view has, and does not ask whether the literal ends. -/
def svEqLit (sv cstr : List UInt8) : Bool := sv.isPrefixOf (cstr ++ [0])

def addFunction (env : Enviroment) (fnName : List UInt8) (paraml : List (List UInt8))
    (body : List Expr) : Enviroment :=
  { env with functions := env.functions.pushBack ⟨fnName, body, paraml⟩ }

def findFunction (env : Enviroment) (fnName : List UInt8) : Option FunctionEntry :=
  env.functions.elems.find? fun f => svEq f.fnName fnName

def createVariable (env : Enviroment) (name : List UInt8) (init : Value) : Enviroment :=
  if env.variableMap.elems.any fun e => svEq e.name name then env
  else { env with variableMap := env.variableMap.pushBack ⟨name, init⟩ }

/-- Stops the program where the variable does not exist. -/
def setVariable (env : Enviroment) (name : List UInt8) (init : Value) : Except Stop Enviroment :=
  match env.variableMap.elems.findIdx? fun e => svEq name e.name with
  | some i => .ok { env with variableMap := env.variableMap.set i ⟨name, init⟩ }
  | none =>
      if env.variableMap.size = 0 then .error (.outOfBounds 0 0)
      else .error (.hang "Undefined variable")

def getVariable (env : Enviroment) (name : List UInt8) : Except Stop Value :=
  match env.variableMap.elems.find? fun e => svEq e.name name with
  | some e => .ok e.val
  | none => .error (.hang "Undefined variable")

/-! ### Integer operations -/

/-- The quotient or the remainder of a division: 0 by zero, and a trap of the processor where the
quotient is no 32-bit number. -/
def divide (q : Word → Word → Word) (a b : Word) : Except Stop Word :=
  if b = 0 then .ok 0
  else if a = BitVec.intMin 32 ∧ b = -1 then .error .divideError
  else .ok (q a b)

def mathOps : List (List UInt8) := [[43], [45], [42], [47], [37], [94], [38], [124], [126]]

/-- The operators `+ - * / % ^ & | ~`, by name. -/
def mathOp (name : List UInt8) (a b : Word) : Except Stop Word :=
  if svEqLit name [43] then .ok (a + b)
  else if svEqLit name [45] then .ok (a - b)
  else if svEqLit name [42] then .ok (a * b)
  else if svEqLit name [47] then divide BitVec.sdiv a b
  else if svEqLit name [37] then divide BitVec.srem a b
  else if svEqLit name [94] then .ok (a ^^^ b)
  else if svEqLit name [38] then .ok (a &&& b)
  else if svEqLit name [124] then .ok (a ||| b)
  else if svEqLit name [126] then .ok (~~~a)
  else .error (.hang "Vela: Unknown function")

/-- `while (x > PI) x -= TWO_PI`. -/
def wrapDown (x : Word) : Except Stop (Word ⊕ Word) :=
  .ok (if 3141 < x.toInt then .inl (x - 6283) else .inr x)

/-- `while (x < -PI) x += TWO_PI`. -/
def wrapUp (x : Word) : Except Stop (Word ⊕ Word) :=
  .ok (if x.toInt < -3141 then .inl (x + 6283) else .inr x)

/-- `x < 0 ? -x : x`. -/
def absInt (x : Word) : Word := if x.toInt < 0 then -x else x

def sinInt (x : Word) : Except Stop Word := do
  let x ← loop wrapDown .fuel (fun x => x.toInt.natAbs) x
  let x ← loop wrapUp .fuel (fun x => x.toInt.natAbs) x
  let y := (x * (1000 - (absInt x * 1000).sdiv 3141)).sdiv 1000
  .ok ((225 * ((y * absInt y).sdiv 1000 - y)).sdiv 1000 + y)

/-! ### The built-in forms -/

abbrev Eval := Expr → Globals → Except Stop (Value × Globals)

section

variable (exec : Eval) (items : List Expr) (g : Globals)

def execMath (name : List UInt8) : Except Stop (Value × Globals) := do
  let a ← itemAt items 1
  let b ← itemAt items 2
  let (va, g) ← exec a g
  let (vb, g) ← exec b g
  match va, vb with
  | .int x, .int y => (mathOp name x y).map fun v => (.int v, g)
  | _, _ => .error (.hang "Invalid type (math op)")

/-- `glob` and `set`: the symbol, and the value of the expression behind it. -/
def symbolInit (msg : String) : Except Stop (List UInt8 × Value × Globals) := do
  let symb ← itemAt items 1
  let initExpr ← itemAt items 2
  match symb with
  | .symbol s => (exec initExpr g).map fun r => (s, r)
  | _ => .error (.hang msg)

def execGlob : Except Stop (Value × Globals) := do
  let (s, init, g) ← symbolInit exec items g "Invalid type for expr (expected symbol)"
  .ok (.none, { g with scope := createVariable g.scope s init })

def execSet : Except Stop (Value × Globals) := do
  let (s, init, g) ← symbolInit exec items g "Usage: (var <name> <init>)"
  let scope ← setVariable g.scope s init
  .ok (.none, { g with scope })

/-- `r`, `g` and `b` keep their low 8 bits. -/
def argb (r g b : Word) : Word :=
  (r &&& 0xFF) <<< 16 ||| (g &&& 0xFF) <<< 8 ||| (b &&& 0xFF)

def execRgb : Except Stop (Value × Globals) := do
  let arg₁ ← itemAt items 1
  let arg₂ ← itemAt items 2
  let arg₃ ← itemAt items 3
  let (v₁, g) ← exec arg₁ g
  let (v₂, g) ← exec arg₂ g
  let (v₃, g) ← exec arg₃ g
  .ok (.int (argb v₁.intVal v₂.intVal v₃.intVal), g)

/-- `print` and `println`. -/
def execPrint : Except Stop (Value × Globals) := do
  let arg ← itemAt items 1
  let (_, g) ← exec arg g
  .ok (.none, g)

/-- The names in the parameter list of a `defun`. -/
def paramNames : List Expr → Except Stop (List (List UInt8))
  | [] => .ok []
  | .symbol s :: args => (paramNames args).map (s :: ·)
  | _ :: _ => .error (.hang "Expected type symbol in defun")

def execDefun : Except Stop (Value × Globals) := do
  let functionNameExpr ← itemAt items 1
  let argsListExpr ← itemAt items 2
  match argsListExpr, functionNameExpr with
  | .list args, .symbol fnName =>
      let params ← paramNames args
      let _ ← itemAt items 3
      .ok (.none, { g with scope := addFunction g.scope fnName params (items.drop 3) })
  | .list _, _ => .error (.hang "Expected symbol (function name)")
  | _, _ => .error (.hang "Expected list (param list)")

def typename : Value → Value
  | .int _ => .string (ascii ['I', 'n', 't', 'e', 'g', 'e', 'r'])
  | .string _ => .string (ascii ['S', 't', 'r', 'i', 'n', 'g'])
  | .none => .string (ascii ['N', 'o', 'n', 'e'])

def execTypename : Except Stop (Value × Globals) := do
  let arg ← itemAt items 1
  match arg with
  | .symbol s => (getVariable g.scope s).map fun v => (typename v, g)
  | _ => .error (.exit 1)

def execSin : Except Stop (Value × Globals) := do
  let arg ← itemAt items 1
  let (v, g) ← exec arg g
  match v with
  | .int x => (sinInt x).map fun y => (.int y, g)
  | _ => .ok (.int 0, g)

def execRet : Except Stop (Value × Globals) := do
  let e ← itemAt items 1
  let (v, g) ← exec e g
  .ok (.none, { g with lastReturnvalue := v })

/-- Reads a `FunctionEntry` that was found when the functions had the capacity `capac`. -/
def alive (capac : Nat) (g : Globals) : Except Stop Unit :=
  if g.scope.functions.capac = capac then .ok () else .error .undefined

/-- The loop over the parameters from the `i`th on. -/
def bindParams (capac : Nat) : Nat → List (List UInt8) → Globals → Except Stop Globals
  | _, [], g => .ok g
  | i, p :: ps, g => do
      let g := { g with scope := createVariable g.scope p (.int 0) }
      let e ← itemAt items (i + 1)
      let (v, g) ← exec e g
      alive capac g
      let scope ← setVariable g.scope p v
      bindParams capac (i + 1) ps { g with scope }

/-- The loop over the body. -/
def runBody (capac : Nat) : List Expr → Globals → Except Stop Globals
  | [], g => .ok g
  | e :: es, g => do
      let (_, g) ← exec e g
      alive capac g
      runBody capac es g

def execCall (name : List UInt8) : Except Stop (Value × Globals) :=
  match findFunction g.scope name with
  | none => .error (.hang "Vela: Unknown function")
  | some fnEntry => do
      let capac := g.scope.functions.capac
      let g ← bindParams exec items capac 0 fnEntry.params g
      let g ← runBody exec capac fnEntry.body g
      .ok (g.lastReturnvalue, g)

/-- The form a list is, by the name at its head. -/
def execForm (name : List UInt8) : Except Stop (Value × Globals) :=
  if mathOps.any (svEqLit name) then execMath exec items g name
  else if svEqLit name (ascii ['g', 'l', 'o', 'b']) then execGlob exec items g
  else if svEqLit name (ascii ['s', 'e', 't']) then execSet exec items g
  else if svEqLit name (ascii ['r', 'g', 'b']) then execRgb exec items g
  else if svEqLit name (ascii ['p', 'r', 'i', 'n', 't']) then execPrint exec items g
  else if svEqLit name (ascii ['d', 'e', 'f', 'u', 'n']) then execDefun items g
  else if svEqLit name (ascii ['p', 'r', 'i', 'n', 't', 'l', 'n']) then execPrint exec items g
  else if svEqLit name (ascii ['t', 'y', 'p', 'e', 'n', 'a', 'm', 'e']) then execTypename items g
  else if svEqLit name (ascii ['s', 'i', 'n']) then execSin exec items g
  else if svEqLit name (ascii ['r', 'e', 't']) then execRet exec items g
  else execCall exec items g name

def execList : Except Stop (Value × Globals) := do
  let first ← itemAt items 0
  match first with
  | .symbol name => execForm exec items g name
  | _ => .error (.hang "First item is not callable\n")

end

/-- `execExpr`, with a bound on the lists it may be inside of. -/
def execExpr : Nat → Eval
  | _, .int v, g => .ok (.int v, g)
  | _, .string s, g => .ok (.string s, g)
  | _, .symbol s, g => (getVariable g.scope s).map fun v => (v, g)
  | 0, .list _, _ => .error .fuel
  | n + 1, .list items, g => execList (execExpr n) items g

/-! ### `lispRun` -/

/-- A call of `putPixel`. -/
structure Pixel where
  argb : Word
  x : Word
  y : Word
deriving DecidableEq

/-- One parameter of the fragment function. -/
def setParam (scope : Enviroment) (name : List UInt8) (v : Word) : Except Stop Enviroment :=
  setVariable (createVariable scope name (.int 0)) name (.int v)

/-- One pixel: the parameters, the body, and the call of `putPixel`. -/
def pixel (exec : Eval) (func : FunctionEntry) (capac : Nat) (s : Globals × List Pixel)
    (x y : Nat) : Except Stop (Globals × List Pixel) := do
  let p ← itemAt func.params 0
  let scope ← setParam s.1.scope p (BitVec.ofNat 32 x)
  let q ← itemAt func.params 1
  let scope ← setParam scope q (BitVec.ofNat 32 y)
  let g ← runBody exec capac func.body { s.1 with scope }
  .ok (g, s.2 ++ [⟨g.lastReturnvalue.intVal, BitVec.ofNat 32 x, BitVec.ofNat 32 y⟩])

/-- The two loops over the screen. -/
def render (exec : Eval) (func : FunctionEntry) (screenWidth screenHeight : Nat) (g : Globals) :
    Except Stop (List Pixel) := do
  let capac := g.scope.functions.capac
  let (_, out) ← (List.range screenWidth).foldlM (fun s x =>
    (List.range screenHeight).foldlM (fun s y => pixel exec func capac s x y) s) (g, [])
  .ok out

/-- `while (pos < tokens.size)`: one expression is parsed and executed. -/
def programTurn (exec : Eval) (tokens : Vector Token) (s : Globals × Nat) :
    Except Stop ((Globals × Nat) ⊕ Globals) :=
  if s.2 < tokens.size then do
    let (expr, pos) ← parseExpr tokens s.2
    let (_, g) ← exec expr s.1
    .ok (.inl (g, pos))
  else .ok (.inr s.1)

def runProgram (exec : Eval) (tokens : Vector Token) (g : Globals) : Except Stop Globals :=
  loop (programTurn exec tokens) .fuel (fun s => tokens.size - s.2) (g, 0)

/-- `lispRun`: the calls of `putPixel`; `n` bounds the lists that are executed inside each other,
and `last` is what `lastReturnvalue` holds before. -/
def lispRun (n : Nat) (code : CStr) (screenWidth screenHeight : Nat) (last : Value) :
    Except Stop (List Pixel) := do
  let tokens ← (tokenize code .init).mapError fun _ => .undefined
  let g ← runProgram (execExpr n) tokens ⟨enviromentInit, last⟩
  match findFunction g.scope (ascii ['f', 'r', 'a', 'g', 'm', 'e', 'n', 't']) with
  | none => .error (.hang "Expected fragment function: none was found.")
  | some func =>
      if func.params.length = 2 then render (execExpr n) func screenWidth screenHeight g
      else .error (.hang "Invalid signature of fragment shader: expected paramc==2")

end Lisp
end RivOS
