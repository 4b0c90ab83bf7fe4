/-
Functions that a module imports.
-/
import WasmVm.Memory

namespace WasmVm

/-- How a host function answers. -/
structure HostReply (ω : Type) where
  /-- A value or none, or the reasons of a failure, the outermost first. -/
  result : Except (List String) (Option Value)
  /-- The memory afterwards. -/
  memory : Option Memory
  /-- The host's state afterwards. -/
  state : ω

/-- A host function over states of the type `ω`.  It is handed the memory of the
instance, if there is one, and the arguments. -/
abbrev HostFunction (ω : Type) := ω → Option Memory → List Value → HostReply ω

/-- The memory after a host call: a host may change the memory it is handed, but
neither make one nor take it away. -/
def HostReply.memoryAfter {ω : Type} (reply : HostReply ω) (before : Option Memory) :
    Option Memory :=
  before.map fun m => reply.memory.getD m

end WasmVm
