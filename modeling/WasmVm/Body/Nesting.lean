/-
Nesting instructions into a body.  The scopes that are open form a stack with
the body itself at the bottom; every instruction is placed into the innermost
one.
-/
import WasmVm.Body.Item

namespace WasmVm

/-- A scope whose end has not been reached. -/
structure OpenScope where
  id : Nat
  kind : ScopeKind
  type : BlockType
  body : Array Node := #[]
  /-- What follows an `else` or the first handler, once that has been seen. -/
  alternative : Option (Array Node) := none

namespace OpenScope

/-- Adds a node where the scope now stands. -/
def push (s : OpenScope) (node : Node) : OpenScope :=
  match s.alternative with
  | none => { s with body := s.body.push node }
  | some nodes => { s with alternative := some (nodes.push node) }

/-- Starts a handler with its mark. -/
def pushHandler (s : OpenScope) (node : Node) : OpenScope :=
  { s with alternative := some ((s.alternative.getD #[]).push node) }

/-- The scope as a node. -/
def toNode (s : OpenScope) : Node :=
  .scope s.id s.kind s.type s.body.toList (s.alternative.map Array.toList)

/-- Whether an `else` may come next. -/
def takesElse (s : OpenScope) : Bool :=
  s.kind == .ifThen && s.alternative.isNone

/-- Whether a handler may come next: none may follow a `catch_all`. -/
def takesHandler (s : OpenScope) : Bool :=
  s.kind == .tryBlock && !(s.alternative.any fun nodes => nodes.any Node.isCatchAll)

/-- Whether a `delegate` may come next. -/
def takesDelegate (s : OpenScope) : Bool :=
  s.kind == .tryBlock && s.alternative.isNone

end OpenScope

/-- The open scopes: the innermost one and those around it. -/
structure Scopes where
  top : OpenScope
  outer : List OpenScope

namespace Scopes

/-- A body of a type, with nothing in it yet. -/
def start (type : BlockType) : Scopes :=
  ⟨{ id := 0, kind := .block, type }, []⟩

/-- How many scopes are open, the body itself included. -/
def count (s : Scopes) : Nat :=
  s.outer.length + 1

/-- Adds a node to the innermost scope. -/
def push (s : Scopes) (node : Node) : Scopes :=
  { s with top := s.top.push node }

end Scopes

/-- What placing an instruction leads to. -/
inductive Placed where
  | more (scopes : Scopes)
  /-- The body is complete. -/
  | done (root : Node)

namespace Scopes

/-- Ends the innermost scope: it becomes a node of the scope around it, or the
whole body. -/
def close (s : Scopes) : Placed :=
  match s.outer with
  | [] => .done s.top.toNode
  | next :: outer => .more ⟨next.push s.top.toNode, outer⟩

/-- Places the instruction number `id`, read at `offset`. -/
def place (owner : String) (id offset : Nat) (s : Scopes) :
    Item → Except StructureFault Placed
  | .nop => .ok (.more s)
  | .openScope kind type => .ok (.more ⟨{ id, kind, type }, s.top :: s.outer⟩)
  | .otherwise =>
    if s.top.takesElse then
      .ok (.more { s with top := { s.top with alternative := some #[] } })
    else .error (.strayElse owner offset)
  | .catchTag tag =>
    if s.top.takesHandler then
      .ok (.more { s with top := s.top.pushHandler (.plain id (.catchTag tag)) })
    else .error (.strayHandler owner .catchTag offset)
  | .catchAll =>
    if s.top.takesHandler then
      .ok (.more { s with top := s.top.pushHandler (.plain id .catchAll) })
    else .error (.strayHandler owner .catchAll offset)
  | .delegate depth =>
    if s.top.takesDelegate then .ok (s.push (.plain id (.delegate depth))).close
    else .error (.strayHandler owner .delegate offset)
  | .close => .ok s.close
  | .plain instr => .ok (.more (s.push (.plain id instr)))

end Scopes

namespace Reading

/-- Places instructions until the body is complete.  Every turn reads a byte at
least, so as much fuel as there are bytes never runs out first. -/
def nest (m : Module) (owner : String) : (fuel id : Nat) → Scopes → Reading Node
  | 0, _, scopes => fun c => .error (.structural (.missingEnd owner scopes.count)) c
  | fuel + 1, id, scopes => fun c =>
    if c.isFinished then .error (.structural (.missingEnd owner scopes.count)) c
    else
      match item m owner c with
      | .error e c => .error e c
      | .ok item after =>
        match scopes.place owner id c.offset item with
        | .error fault => .error (.structural fault) after
        | .ok (.done root) => .ok root after
        | .ok (.more scopes) => nest m owner fuel (id + 1) scopes after

/-- An instruction sequence up to and including its final `end`, as a block of
the type given. -/
def body (m : Module) (owner : String) (type : BlockType) : Reading Node := fun c =>
  nest m owner c.remaining 1 (.start type) c

end Reading

end WasmVm
