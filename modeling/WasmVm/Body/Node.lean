/-
Bodies as trees.  Every scope holds the instructions inside it; a body as a
whole is a block of its own.
-/
import WasmVm.Body.Instr

namespace WasmVm

/-- The kinds of scopes. -/
inductive ScopeKind where
  | block | loop | ifThen | tryBlock
  deriving DecidableEq

/-- The opcode that opens a scope of the kind. -/
def ScopeKind.opcode : ScopeKind → Opcode
  | block => .block
  | loop => .loop
  | ifThen => .ifThen
  | tryBlock => .tryBlock

/-- One instruction of a body and, for a scope, what lies inside it.  The `id`
is the instruction's position in the body, counted from one; the body itself
has the `id` zero. -/
inductive Node where
  | plain (id : Nat) (instr : Instr)
  /-- The `alternative` holds what follows an `else`, or the handlers of a
  `try` behind their marks; it is absent if there is neither. -/
  | scope (id : Nat) (kind : ScopeKind) (type : BlockType) (body : List Node)
      (alternative : Option (List Node))

namespace Node

/-- The position in the body. -/
def id : Node → Nat
  | plain id _ => id
  | scope id .. => id

/-- The opcode of a node. -/
def opcode : Node → Opcode
  | plain _ instr => instr.opcode
  | scope _ kind .. => kind.opcode

/-- Operands as a listing shows them. -/
def operands : Node → String
  | plain _ instr => instr.operands
  | scope _ _ type .. => type.operands

/-- The instructions inside a scope. -/
def body : Node → List Node
  | plain .. => []
  | scope _ _ _ body _ => body

/-- The type of a scope; other instructions count as empty. -/
def blockType : Node → BlockType
  | plain .. => .empty
  | scope _ _ type .. => type

/-- Whether the node is a `delegate`. -/
def isDelegate : Node → Bool
  | plain _ (.delegate _) => true
  | _ => false

/-- Whether the node marks a `catch_all` handler. -/
def isCatchAll : Node → Bool
  | plain _ .catchAll => true
  | _ => false

/-- Whether the scope ends with a `delegate` and so has no `end` of its own. -/
def isDelegated (n : Node) : Bool :=
  n.body.getLast?.any isDelegate

end Node

end WasmVm
