/-
Constant expressions.  An expression is run as the body of the only function of
a module made for it, and its value is the first one it leaves.
-/
import WasmVm.Machine.Run
import WasmVm.Module.Decode

namespace WasmVm

/-- Frames that calls may pile up unless said otherwise. -/
def defaultMaxDepth : Nat := 65536

namespace ConstExpr

/-- A section of a module.  Modules for expressions are put together by the encoder
`wasm-encoder`, which is not part of this development.  It is taken to write sections
in their standard form: the id, then the size as the shortest number of its value,
then the contents. -/
def encodeSection (id : UInt8) (contents : List UInt8) : List UInt8 :=
  id :: (Leb128.encode contents.length ++ contents)

/-- The module made for an expression: one signature without parameters and
results, and one function of it, without locals, that holds the expression.  These
bytes stand for what the encoder writes: a header of version one, then the type,
function and code sections with one entry each, all counts and sizes in their
shortest form. -/
def wrap (expr : List UInt8) : List UInt8 :=
  let body := 0 :: expr
  [0x00, 0x61, 0x73, 0x6d, 1, 0, 0, 0]
    ++ encodeSection 1 [1, 0x60, 0, 0]
    ++ encodeSection 3 [1, 0]
    ++ encodeSection 10 (1 :: (Leb128.encode body.length ++ body))

/-- Decodes the module made for an expression.  It has no data segments, so
nothing has to be evaluated for it. -/
def decode (expr : List UInt8) : Except Halt Module :=
  Module.decodeWith (fun _ => .error .outOfFuel) (wrap expr).toArray

/-- The surroundings of a constant expression: nothing to call and nobody to see. -/
def env (m : Module) : Env Unit Unit :=
  { module := m, hosts := #[], observer := .silent, maxDepth := defaultMaxDepth }

/-- Evaluates an expression that ends with `end`. -/
def evaluate (fuel : Nat) (expr : List UInt8) : Except Halt Value :=
  match decode expr with
  | .error h => .error h
  | .ok m =>
    match (env m).evaluate fuel ⟨.ofModule m, (), ()⟩ 0 with
    | (.error h, _) => .error h
    | (.ok [], _) => .error (.error (.trap .noConstant none))
    | (.ok (v :: _), _) => .ok v

end ConstExpr

/-- Decodes a binary.  The fuel bounds the run of every constant expression. -/
def Module.decode (fuel : Nat) (bytes : Array UInt8) : Except Halt Module :=
  Module.decodeWith (ConstExpr.evaluate fuel) bytes

end WasmVm
