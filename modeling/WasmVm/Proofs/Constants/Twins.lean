/-
Two frames with the same code.  The frame of a constant expression and that of an
initializer differ in what their body hands on to a branch: nothing in the one, a value
in the other.  Until there is such a branch they do the same.
-/
import WasmVm.Proofs.Constants.SelfContained

namespace WasmVm

/-! ### Results side by side -/

/-- Two computations both fail, or both succeed with results that are related. -/
inductive Matches {α β : Type} (R : α → β → Prop) : Except Trap α → Except Trap β → Prop
  | ok {a b} (h : R a b) : Matches R (.ok a) (.ok b)
  | error {t t'} : Matches R (.error t) (.error t')

namespace Matches

variable {α β γ : Type} {R : α → β → Prop}

/-- Two ways to go on from the same result. -/
theorem bind {x : Except Trap γ} {f : γ → Except Trap α} {g : γ → Except Trap β}
    (h : ∀ c, x = .ok c → Matches R (f c) (g c)) : Matches R (x >>= f) (x >>= g) := by
  cases x with
  | ok c => exact h c rfl
  | error t => exact .error

theorem andThen {δ : Type} {S : γ → δ → Prop} {x : Except Trap γ} {y : Except Trap δ}
    {f : γ → Except Trap α} {g : δ → Except Trap β} (h : Matches S x y)
    (hnext : ∀ c d, S c d → Matches R (f c) (g d)) : Matches R (x >>= f) (y >>= g) := by
  cases h with
  | ok h => exact hnext _ _ h
  | error => exact .error

theorem of_fails {x : Except Trap α} {y : Except Trap β}
    (hx : Returns (fun _ => False) x)
    (hy : Returns (fun _ => False) y) : Matches R x y := by
  cases x with
  | ok a => exact absurd hx id
  | error t =>
      cases y with
      | ok b => exact absurd hy id
      | error t' => exact .error

end Matches

/-! ### Scopes -/

/-- The open scopes of two bodies, of which the one is left with nothing by a branch
and the other with a value. -/
inductive ScopeTwins : List Scope → List Scope → Prop
  | finished : ScopeTwins [] []
  | root {rest body} : ScopeTwins [⟨rest, body, 0, 0, false⟩]
      [⟨rest, body, 0, 1, false⟩]
  | inner {scope first c g} (h : ScopeTwins c (first :: g)) :
      ScopeTwins (scope :: c) (scope :: first :: g)

namespace ScopeTwins

variable {c g : List Scope}

theorem length_eq (h : ScopeTwins c g) : c.length = g.length := by
  induction h with
  | finished | root => rfl
  | inner _ ih => exact congrArg (· + 1) ih

/-- Inside the body a branch finds the same scope. -/
theorem drop (h : ScopeTwins c g) {depth : Nat} (hdepth : depth + 1 < g.length) :
    ∃ scope c' first g', c.drop depth = scope :: c' ∧
      g.drop depth = scope :: first :: g' ∧ ScopeTwins c' (first :: g') := by
  induction h generalizing depth with
  | finished => cases hdepth
  | root => exact absurd (Nat.lt_of_succ_lt_succ hdepth) (Nat.not_lt_zero depth)
  | @inner scope first c g h ih =>
      cases depth with
      | zero => exact ⟨scope, c, first, g, rfl, rfl, h⟩
      | succ depth => exact ih (Nat.lt_of_succ_lt_succ hdepth)

/-- The outermost scope is the body. -/
theorem drop_root (h : ScopeTwins c g) {depth : Nat} (hdepth : depth + 1 = g.length) :
    ∃ rest body, c.drop depth = [⟨rest, body, 0, 0, false⟩] ∧
      g.drop depth = [⟨rest, body, 0, 1, false⟩] := by
  induction h generalizing depth with
  | finished => cases hdepth
  | @root rest body =>
      cases Nat.succ.inj hdepth
      exact ⟨rest, body, rfl, rfl⟩
  | @inner scope first c g h ih =>
      cases depth with
      | zero => cases Nat.succ.inj hdepth
      | succ depth => exact ih (Nat.succ.inj hdepth)

/-- Scopes are both at their end, both done with the innermost one, or about to run the
same node. -/
theorem next (h : ScopeTwins c g) :
    (c = [] ∧ g = []) ∨
    (∃ scope scope' outer outer', c = scope :: outer ∧ g = scope' :: outer' ∧
      scope.rest = [] ∧ scope'.rest = [] ∧ ScopeTwins outer outer') ∨
    ∃ scope scope' outer outer' node rest, c = scope :: outer ∧ g = scope' :: outer' ∧
      scope.rest = node :: rest ∧ scope'.rest = node :: rest ∧
      ScopeTwins ({ scope with rest } :: outer) ({ scope' with rest } :: outer') := by
  cases h with
  | finished => exact .inl ⟨rfl, rfl⟩
  | @root rest body =>
      cases rest with
      | nil => exact .inr (.inl ⟨_, _, _, _, rfl, rfl, rfl, rfl, .finished⟩)
      | cons node rest =>
          exact .inr (.inr ⟨_, _, _, _, node, rest, rfl, rfl, rfl, rfl, .root⟩)
  | @inner scope first c g h =>
      obtain ⟨rest, body, height, arity, isLoop⟩ := scope
      cases rest with
      | nil => exact .inr (.inl ⟨_, _, _, _, rfl, rfl, rfl, rfl, h⟩)
      | cons node rest =>
          exact .inr (.inr ⟨_, _, _, _, node, rest, rfl, rfl, rfl, rfl, .inner h⟩)

end ScopeTwins

/-! ### Frames -/

theorem Frame.fetch?_of_rest {f : Frame} {scope : Scope}
    {outer : List Scope} {node : Node}
    {rest : List Node} (hscopes : f.scopes = scope :: outer)
    (hrest : scope.rest = node :: rest) :
    f.fetch? = some (node, { f with scopes := { scope with rest } :: outer }) := by
  obtain ⟨_, body, height, arity, isLoop⟩ := scope
  cases hrest
  rw [Frame.fetch?, hscopes]

/-- What a scope takes and leaves is the same in every module, unless a signature says
it. -/
theorem Module.blockArity_of_isSelfContained (m m' : Module) {kind : ScopeKind}
    {type : BlockType} (h : (Item.openScope kind type).isSelfContained = true) :
    m.blockArity type = m'.blockArity type := by
  cases type with
  | func index => cases h
  | empty | value => rfl

/-- The frame of a constant expression and that of a global's initializer, at the same
point of the same code. -/
inductive Frame.Twins (index : Nat) : Frame → Frame → Prop
  | mk {stack c g} (hscopes : ScopeTwins c g) :
      Twins index ⟨.constant, #[], stack, c, none⟩ ⟨.global index, #[], stack, g, none⟩

/-- The node takes a branch of a depth, with what is left of the stack. -/
inductive Node.BranchesTo : Node → Stack → Nat → Stack → Prop
  | br {id depth stack} : BranchesTo (.plain id (.br depth)) stack depth stack
  | brIf {id depth stack below} (hpop : stack.popCondition = .ok (true, below)) :
      BranchesTo (.plain id (.brIf depth)) stack depth below
  | brTable {id targets fallback stack below} {entry : BitVec 32}
      (hpop : stack.popI32 = .ok (entry, below)) :
      BranchesTo (.plain id (.brTable targets fallback)) stack
        ((targets[entry.toNat]?).getD fallback) below

/-- An action that touches neither frames nor globals nor memory. -/
inductive Action.Slight : Action → Prop
  | proceed : Slight .proceed
  | dropSegment {segment} : Slight (.dropSegment segment)

namespace Frame

variable {index : Nat}

/-- What two instructions side by side leave behind. -/
inductive TwinResults (index : Nat) : Frame × Action → Frame × Action → Prop
  | mk {c g action} (hframes : Twins index c g) (haction : action.Slight) :
      TwinResults index (c, action) (g, action)

theorem execute_of_branchesTo {m : Module} {store : Store} {f : Frame}
    {node : Node} {depth : Nat} {stack : Stack}
    (h : node.BranchesTo f.stack depth stack) :
    f.execute m store node =
      ({ f with stack }.branch depth >>= fun g => pure (g, Action.proceed)) := by
  generalize hstack : f.stack = operands at h
  cases h with
  | br =>
      subst hstack
      rfl
  | brIf hpop =>
      simp only [execute, executePlain, hstack, hpop]
      rfl
  | brTable hpop =>
      simp only [execute, executePlain, hstack, hpop]
      rfl

/-- A branch that stays inside the body. -/
theorem branch_inside {stack : Stack} {c g : List Scope}
    (h : ScopeTwins c g) {depth : Nat} (hdepth : depth + 1 ≠ g.length) :
    Matches (Twins index) (branch ⟨.constant, #[], stack, c, none⟩ depth)
      (branch ⟨.global index, #[], stack, g, none⟩ depth) := by
  rcases Nat.lt_or_gt_of_ne hdepth with hinside | houtside
  · obtain ⟨scope, c', first, g', hc, hg, hrest⟩ := h.drop hinside
    simp only [branch, hc, hg]
    refine .bind fun kept _ => ?_
    by_cases hloop : scope.isLoop = true
    · simp only [hloop, if_true]
      exact .ok (.mk (.inner hrest))
    · simp only [hloop]
      exact .ok (.mk hrest)
  · have hg : g.drop depth = [] := List.drop_eq_nil_of_le (by omega)
    have hc : c.drop depth = [] := List.drop_eq_nil_of_le (by rw [h.length_eq]; omega)
    simp only [branch, hc, hg]
    exact .error

/-- A branch to the body itself leaves nothing in the one frame, and in the other the
value on top, if there is one. -/
theorem branch_root (index : Nat) (stack : Stack) {c g : List Scope}
    (h : ScopeTwins c g) {depth : Nat} (hdepth : depth + 1 = g.length) :
    branch ⟨.constant, #[], stack, c, none⟩ depth = .ok ⟨.constant, #[], [], [], none⟩ ∧
      branch ⟨.global index, #[], stack, g, none⟩ depth =
        stack.head?.elim (.error (.shortStack 1 0)) fun v =>
          .ok ⟨.global index, #[], [v], [], none⟩ := by
  obtain ⟨rest, body, hc, hg⟩ := h.drop_root hdepth
  simp only [branch, hc, hg]
  constructor
  · simp [Stack.popMany, Stack.pushMany, bind, Except.bind, pure, Except.pure]
  · cases stack with
    | nil => rfl
    | cons v below =>
        simp [Stack.popMany, Stack.pushMany, bind, Except.bind, pure, Except.pure]

/-! ### Instructions -/

/-- Without memory nothing can be done to it. -/
theorem executeMemory_fails {store : Store}
    (hstore : store.memory = none) (stack : Stack)
    {instr : Instr} (hinstr : ∀ segment, instr ≠ .dataDrop segment) :
    Returns (fun _ => False) (executeMemory store stack instr) := by
  have hneed {next : Memory → Except Trap (Stack × Action)} :
      Returns (fun _ => False) (store.needMemory >>= next) := by
    rw [Store.needMemory, hstore]
    trivial
  cases instr with
  | load | memoryGrow => exact .bind fun _ _ => hneed
  | store => exact .bind fun _ _ => .bind fun _ _ => hneed
  | memorySize => exact hneed
  | memoryFill | memoryCopy => exact .bind fun _ _ => .bind fun _ _ => .bind fun _ _ =>
      hneed
  | memoryInit segment =>
      refine .bind fun _ _ => .bind fun _ _ => .bind fun _ _ => ?_
      dsimp only
      split
      · trivial
      · split
        · trivial
        · exact hneed
  | dataDrop segment => exact absurd rfl (hinstr segment)
  | _ => trivial

theorem executeMemory_twins {store store' : Store} (hstore : store.memory = none)
    (hstore' : store'.memory = none) (stack : Stack) (instr : Instr) :
    Matches (fun a b => a = b ∧ a.2.Slight) (executeMemory store stack instr)
      (executeMemory store' stack instr) := by
  by_cases hdrop : ∃ segment, instr = .dataDrop segment
  · obtain ⟨segment, rfl⟩ := hdrop
    exact .ok ⟨rfl, .dropSegment⟩
  · have hinstr : ∀ segment, instr ≠ .dataDrop segment :=
      fun segment h => hdrop ⟨segment, h⟩
    exact .of_fails (executeMemory_fails hstore stack hinstr)
      (executeMemory_fails hstore' stack hinstr)

section

variable {c g : List Scope} {store store' : Store}

/-- A branch goes to the body itself, or does the same to both frames. -/
theorem branch_twins (h : ScopeTwins c g) {node : Node}
    {stack below : Stack} {depth : Nat}
    {m m' : Module} (hbranch : node.BranchesTo stack depth below) :
    node.BranchesTo stack (g.length - 1) below ∨
      Matches (TwinResults index)
        (execute m store ⟨.constant, #[], stack, c, none⟩ node)
        (execute m' store' ⟨.global index, #[], stack, g, none⟩ node) := by
  by_cases hdepth : depth + 1 = g.length
  · left
    rwa [← hdepth, Nat.add_sub_cancel]
  · right
    rw [execute_of_branchesTo hbranch, execute_of_branchesTo hbranch]
    exact (branch_inside h hdepth).andThen fun _ _ hframes => .ok (.mk hframes .proceed)

theorem executePlain_twins (h : ScopeTwins c g) (hstore : store.memory = none)
    (hstore' : store'.memory = none) (m m' : Module) (stack : Stack)
    {id : Nat} {instr : Instr}
    (hinstr : (Node.plain id instr).item.isSelfContained = true) :
    (∃ below, (Node.plain id instr).BranchesTo stack (g.length - 1) below) ∨
      Matches (TwinResults index)
        (execute m store ⟨.constant, #[], stack, c, none⟩ (.plain id instr))
        (execute m' store' ⟨.global index, #[], stack, g, none⟩ (.plain id instr)) := by
  have hsame {below : Stack} {action : Action} (haction : action.Slight) :
      Matches (TwinResults index) (.ok (⟨.constant, #[], below, c, none⟩, action))
        (.ok (⟨.global index, #[], below, g, none⟩, action)) :=
          .ok (.mk (.mk h) haction)
  cases instr with
  | call | globalGet | globalSet => cases hinstr
  | br depth => exact (branch_twins h .br).imp_left fun hroot => ⟨stack, hroot⟩
  | brIf depth =>
      cases hpop : stack.popCondition with
      | error t =>
          simp only [execute, executePlain, hpop]
          exact .inr .error
      | ok popped =>
          obtain ⟨condition, below⟩ := popped
          cases condition with
          | true => exact (branch_twins h (.brIf hpop)).imp_left fun hroot =>
              ⟨below, hroot⟩
          | false =>
              simp only [execute, executePlain, hpop]
              exact .inr (hsame .proceed)
  | brTable targets fallback =>
      cases hpop : stack.popI32 with
      | error t =>
          simp only [execute, executePlain, hpop]
          exact .inr .error
      | ok popped =>
          obtain ⟨entry, below⟩ := popped
          exact (branch_twins h (.brTable hpop)).imp_left fun hroot => ⟨below, hroot⟩
  | unreachable | throwTag | rethrow | catchTag | catchAll | callIndirect =>
      exact .inr .error
  | delegate | const => exact .inr (hsame .proceed)
  | returnOp => exact .inr (.ok (.mk (.mk .finished) .proceed))
  | drop | numeric => exact .inr (.bind fun _ _ => hsame .proceed)
  | select => exact .inr (.bind fun _ _ => .bind fun _ _ =>
      .bind fun _ _ => hsame .proceed)
  | localGet => exact .inr .error
  | localSet | localTee => exact .inr (.bind fun _ _ => .error)
  | load | store | memorySize | memoryGrow | memoryCopy | memoryFill |
      memoryInit | dataDrop =>
      refine .inr ((executeMemory_twins hstore hstore' stack _).andThen ?_)
      rintro ⟨below, action⟩ _ ⟨rfl, haction⟩
      exact hsame haction

theorem execute_twins (h : ScopeTwins c g) (hopen : g ≠ [])
    (hstore : store.memory = none)
    (hstore' : store'.memory = none) (m m' : Module) (stack : Stack) {node : Node}
    (hnode : node.item.isSelfContained = true) :
    (∃ below, node.BranchesTo stack (g.length - 1) below) ∨
      Matches (TwinResults index)
        (execute m store ⟨.constant, #[], stack, c, none⟩ node)
        (execute m' store' ⟨.global index, #[], stack, g, none⟩ node) := by
  cases node with
  | plain id instr => exact executePlain_twins h hstore hstore' m m' stack hnode
  | scope id kind type body alternative =>
      right
      have henter (below : Stack) (nodes : List Node) :
          Matches (TwinResults index)
            (.ok (enter m ⟨.constant, #[], below, c, none⟩ kind type nodes, .proceed))
            (.ok (enter m' ⟨.global index, #[], below, g, none⟩ kind type nodes,
              .proceed)) := by
        obtain ⟨first, g, rfl⟩ := List.exists_cons_of_ne_nil hopen
        simp only [enter, Module.blockArity_of_isSelfContained m m' hnode]
        exact .ok (.mk (.mk (.inner h)) .proceed)
      cases kind with
      | block | loop | tryBlock => exact henter stack body
      | ifThen =>
          refine .bind fun popped _ => ?_
          obtain ⟨condition, below⟩ := popped
          cases condition with
          | true => exact henter below body
          | false =>
              cases alternative with
              | none => exact .ok (.mk (.mk h) .proceed)
              | some other => exact henter below other

end

namespace Twins

variable {c g : Frame}

/-- An instruction that stands for itself takes a branch to the body, or does the same
to both frames. -/
theorem execute (h : Twins index c g) (hopen : g.scopes ≠ []) {store store' : Store}
    (hstore : store.memory = none) (hstore' : store'.memory = none)
    (m m' : Module) {node : Node} (hnode : node.item.isSelfContained = true) :
    (∃ below, node.BranchesTo c.stack (c.scopes.length - 1) below) ∨
      Matches (TwinResults index) (c.execute m store node)
        (g.execute m' store' node) := by
  cases h with
  | @mk stack _ _ hscopes =>
      rw [hscopes.length_eq]
      exact execute_twins hscopes hopen hstore hstore' m m' stack hnode

/-- A branch to the body leaves nothing in the one frame, and in the other the value on
top, if there is one. -/
theorem execute_leaving (h : Twins index c g) (hopen : g.scopes ≠ []) (m m' : Module)
    (store store' : Store) {node : Node} {below : Stack}
    (hnode : node.BranchesTo c.stack (c.scopes.length - 1) below) :
    c.execute m store node = .ok (⟨.constant, #[], [], [], none⟩, .proceed) ∧
      g.execute m' store' node =
        below.head?.elim (.error (.shortStack 1 0)) fun v =>
          .ok (⟨.global index, #[], [v], [], none⟩, .proceed) := by
  cases h with
  | @mk stack inner inner' hscopes =>
      have hpos : 0 < inner'.length := List.length_pos_iff.mpr hopen
      have hbranch : node.BranchesTo stack (inner'.length - 1) below := by
        rw [← hscopes.length_eq]
        exact hnode
      obtain ⟨hc, hg⟩ := branch_root index below hscopes (Nat.sub_add_cancel hpos)
      constructor
      · rw [execute_of_branchesTo hbranch, hc]
        rfl
      · rw [execute_of_branchesTo hbranch, hg]
        cases below with
        | nil => rfl
        | cons v below => rfl

/-- Both frames are at their end, at the end of a scope, or about to run the same node.
-/
theorem next (h : Twins index c g) :
    (c.scopes = [] ∧ g.scopes = []) ∨
    (∃ scope scope' outer outer', c.scopes = scope :: outer ∧ scope.rest = [] ∧
      g.scopes = scope' :: outer' ∧ scope'.rest = [] ∧
      Twins index { c with scopes := outer } { g with scopes := outer' }) ∨
    ∃ node c' g', c.fetch? = some (node, c') ∧ g.fetch? = some (node, g') ∧
      Twins index c' g' ∧ g'.scopes ≠ [] := by
  cases h with
  | mk hscopes =>
      rcases hscopes.next with hends |
        ⟨scope, scope', outer, outer', rfl, rfl, hrest, hrest', hnext⟩ |
        ⟨scope, scope', outer, outer', node, rest, rfl, rfl, hrest, hrest', hnext⟩
      · exact .inl hends
      · exact .inr (.inl ⟨scope, scope', outer, outer', rfl, hrest, rfl,
          hrest', .mk hnext⟩)
      · refine .inr (.inr ⟨node, _, _, fetch?_of_rest rfl hrest,
          fetch?_of_rest rfl hrest', ?_⟩)
        exact ⟨.mk hnext, List.cons_ne_nil _ _⟩

end Twins

end Frame

end WasmVm
