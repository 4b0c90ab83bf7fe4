/-
A body back in textual order: every instruction, and the `else` and `end` marks
that the tree leaves out.
-/
import WasmVm.Body.Node

namespace WasmVm

/-- What an entry stands for. -/
inductive Mark where
  | instruction
  /-- The `else` of a scope. -/
  | otherwise
  /-- The `end` of a scope. -/
  | close
  deriving DecidableEq

/-- One line of a body in textual order. -/
structure FlatEntry where
  mark : Mark
  /-- The instruction, or the scope that the mark belongs to. -/
  node : Node
  /-- How many scopes lie around the entry.  Marks count as outside their own
  scope. -/
  depth : Nat

mutual

/-- The entries of one node at a depth. -/
def Node.flatten (depth : Nat) : Node → List FlatEntry
  | .plain id instr =>
    [⟨.instruction, .plain id instr, if instr.opcode.isHandler then depth - 1
      else depth⟩]
  | .scope id kind type body alternative =>
    let node := Node.scope id kind type body alternative
    ⟨.instruction, node, depth⟩ :: (flattenAll (depth + 1) body
      ++ (match alternative with
        | none => []
        | some nodes =>
          (if kind = .tryBlock then [] else [⟨.otherwise, node, depth⟩])
            ++ flattenAll (depth + 1) nodes)
      ++ if node.isDelegated then [] else [⟨.close, node, depth⟩])
termination_by structural node => node

/-- The entries of a run of nodes at a depth. -/
def flattenAll (depth : Nat) : List Node → List FlatEntry
  | [] => []
  | node :: nodes => node.flatten depth ++ flattenAll depth nodes
termination_by structural nodes => nodes

end

/-- The entries of a whole body, without the body itself and its final `end`. -/
def Node.entries (root : Node) : List FlatEntry :=
  flattenAll 0 root.body

end WasmVm
