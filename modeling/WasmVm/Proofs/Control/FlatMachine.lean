/-
A machine over the entries of a body.  Its only state is the number of the next
entry; scopes are found by counting openers and ends.
-/
import WasmVm.Body.Flat
import WasmVm.Stack

namespace WasmVm

namespace FlatEntry

/-- Whether a scope starts with the entry. -/
def opens (e : FlatEntry) : Bool :=
  match e.mark, e.node with
  | .instruction, .scope .. => true
  | _, _ => false

/-- Whether a scope stops with the entry: with its `end`, or with a `delegate`. -/
def closes (e : FlatEntry) : Bool :=
  match e.mark, e.node with
  | .close, _ => true
  | .instruction, .plain _ (.delegate _) => true
  | _, _ => false

/-- Whether a handler starts with the entry. -/
def isCatch (e : FlatEntry) : Bool :=
  match e.mark, e.node with
  | .instruction, .plain _ (.catchTag _) => true
  | .instruction, .plain _ .catchAll => true
  | _, _ => false

/-- Whether what is above the entry and what is below it never run in one go. -/
def divides (e : FlatEntry) : Bool :=
  e.mark == .otherwise || e.isCatch

/-- Whether the entry opens a loop. -/
def opensLoop (e : FlatEntry) : Bool :=
  match e.mark, e.node with
  | .instruction, .scope _ .loop .. => true
  | _, _ => false

end FlatEntry

/-- A scope around a position: where it opens, and whether the position lies in one
of its handlers. -/
structure Opener where
  position : Nat
  inHandler : Bool

/-- What a node does to the flow of control. -/
inductive Decision where
  /-- Goes on with the next entry. -/
  | onward
  /-- Passes over the first half of an `if`. -/
  | skip
  | branch (depth : Nat)
  /-- Ends the frame. -/
  | leave
  deriving DecidableEq

/-- The entries of a body as a program. -/
abbrev FlatProgram := List FlatEntry

namespace FlatProgram

/-- How many entries there are up to the end of the scope `level` levels out, that
end included.  If `atElse` is set, an `else` of that scope counts as its end. -/
def passed (atElse : Bool) : (level : Nat) → List FlatEntry → Nat
  | _, [] => 0
  | level, e :: entries =>
    if e.opens then passed atElse (level + 1) entries + 1
    else if e.closes then
      match level with
      | 0 => 1
      | level + 1 => passed atElse level entries + 1
    else if atElse && level == 0 && e.mark == .otherwise then 1
    else passed atElse level entries + 1

section Passing

variable {atElse : Bool} {level : Nat} {e : FlatEntry} {entries : List FlatEntry}

theorem passed_opens (hopens : e.opens = true) :
    passed atElse level (e :: entries) = passed atElse (level + 1) entries + 1 := by
  simp [passed, hopens]

theorem passed_closes_zero (hopens : e.opens = false) (hcloses : e.closes = true) :
    passed atElse 0 (e :: entries) = 1 := by
  simp [passed, hopens, hcloses]

theorem passed_closes_succ (hopens : e.opens = false) (hcloses : e.closes = true) :
    passed atElse (level + 1) (e :: entries) = passed atElse level entries + 1 := by
  simp [passed, hopens, hcloses]

theorem passed_else_zero {node : Node} {depth : Nat} :
    passed true 0 (⟨.otherwise, node, depth⟩ :: entries) = 1 := by
  simp [passed, FlatEntry.opens, FlatEntry.closes]

end Passing

/-- The position just past the end of the scope around `pc`. -/
def past (p : FlatProgram) (pc : Nat) : Nat :=
  pc + passed false 0 (p.drop pc)

/-- The scopes open behind an entry, the innermost first. -/
def openersBehind (position : Nat) (openers : List Opener) (e : FlatEntry) :
    List Opener :=
  if e.opens then ⟨position, false⟩ :: openers
  else if e.closes then openers.tail
  else if e.isCatch then
    match openers with
    | [] => []
    | opener :: openers => { opener with inHandler := true } :: openers
  else openers

theorem openersBehind_opens {position : Nat} {openers : List Opener} {e : FlatEntry}
    (hopens : e.opens = true) :
    openersBehind position openers e = ⟨position, false⟩ :: openers := by
  unfold openersBehind
  rw [if_pos hopens]

theorem openersBehind_closes {position : Nat} {openers : List Opener} {e : FlatEntry}
    (hopens : e.opens = false) (hcloses : e.closes = true) :
    openersBehind position openers e = openers.tail := by
  simp [openersBehind, hopens, hcloses]

@[simp] theorem openersBehind_else (position : Nat)
    (openers : List Opener) (node : Node)
    (depth : Nat) : openersBehind position openers
      ⟨.otherwise, node, depth⟩ = openers := by
  simp [openersBehind, FlatEntry.opens, FlatEntry.closes, FlatEntry.isCatch]

/-- The scopes open behind some entries, of which the first has the number
`position`. -/
def openersAfter : (position : Nat) → List Opener → List FlatEntry → List Opener
  | _, openers, [] => openers
  | position, openers, e :: entries =>
    openersAfter (position + 1) (openersBehind position openers e) entries

/-- The scopes around a position, the innermost first. -/
def enclosing (p : FlatProgram) (pc : Nat) : List Opener :=
  openersAfter 0 [] (p.take pc)

theorem le_past (p : FlatProgram) (pc : Nat) : pc ≤ p.past pc :=
  Nat.le_add_right _ _

/-- The next entry that is an instruction to run.  An `end` is stepped over; an
`else` or a handler reached from above is passed over with all that belongs to it. -/
def settle (p : FlatProgram) (pc : Nat) : Nat :=
  if h : pc < p.length then
    if p[pc].mark = .close then settle p (pc + 1)
    else if p[pc].divides then settle p (p.past (pc + 1))
    else pc
  else pc
termination_by p.length - pc
decreasing_by
  · omega
  · have := le_past p (pc + 1)
    omega

/-- Where the machine goes from an instruction; nowhere if a branch leads too far
out. -/
def next (p : FlatProgram) (pc : Nat) : Decision → Option Nat
  | .onward => some (pc + 1)
  | .skip => some (pc + 1 + passed true 0 (p.drop (pc + 1)))
  | .leave => some p.length
  | .branch depth =>
    match (p.enclosing pc)[depth]? with
    | some opener =>
      if (p[opener.position]?).any FlatEntry.opensLoop then some (opener.position + 1)
      else some (p.past (opener.position + 1))
    | none => if depth = (p.enclosing pc).length then some p.length else none

section Settling

variable {p : FlatProgram} {pc : Nat} {e : FlatEntry}

theorem settle_close (h : p[pc]? = some e) (hclose : e.mark = .close) :
    p.settle pc = p.settle (pc + 1) := by
  obtain ⟨hlt, rfl⟩ := List.getElem?_eq_some_iff.mp h
  rw [settle, dif_pos hlt, if_pos hclose]

theorem settle_divides (h : p[pc]? = some e) (hclose : e.mark ≠ .close)
    (hdivides : e.divides = true) : p.settle pc = p.settle (p.past (pc + 1)) := by
  obtain ⟨hlt, rfl⟩ := List.getElem?_eq_some_iff.mp h
  rw [settle, dif_pos hlt, if_neg hclose, if_pos hdivides]

theorem settle_instruction (h : p[pc]? = some e) (hclose : e.mark ≠ .close)
    (hdivides : e.divides = false) : p.settle pc = pc := by
  obtain ⟨hlt, rfl⟩ := List.getElem?_eq_some_iff.mp h
  rw [settle, dif_pos hlt, if_neg hclose, hdivides, if_neg Bool.false_ne_true]

theorem settle_length (p : FlatProgram) : p.settle p.length = p.length := by
  rw [settle, dif_neg (Nat.lt_irrefl _)]

end Settling

/-- The node that the machine runs next; none at the end of the program. -/
def fetch (p : FlatProgram) (pc : Nat) : Option Node :=
  (p[p.settle pc]?).map (·.node)

/-- Runs of the machine from its start: the nodes run, with what each decided, and
where the machine stands then. -/
inductive Runs (p : FlatProgram) : List (Node × Decision) → Nat → Prop
  | start : Runs p [] 0
  | step {log pc node decision pc'} (hrun : Runs p log pc)
      (hfetch : p.fetch pc = some node)
      (hnext : p.next (p.settle pc) decision = some pc') :
      Runs p (log ++ [(node, decision)]) pc'

end FlatProgram

/-- What a node decides on a value stack.  Without the value it wants it decides
nothing, since it traps. -/
def Node.decision (stack : Stack) : Node → Decision
  | plain _ (.br depth) => .branch depth
  | plain _ (.brIf depth) =>
    match stack.popCondition with
    | .ok (true, _) => .branch depth
    | _ => .onward
  | plain _ (.brTable targets fallback) =>
    match stack.popI32 with
    | .ok (index, _) => .branch ((targets[index.toNat]?).getD fallback)
    | .error _ => .onward
  | plain _ .returnOp => .leave
  | scope _ .ifThen .. =>
    match stack.popCondition with
    | .ok (false, _) => .skip
    | _ => .onward
  | _ => .onward

end WasmVm
