/-
One instruction on both machines.  What it does to the open scopes of its frame
depends only on what it decides, and the machine over the entries moves to the
position where the scopes then stand.
-/
import WasmVm.Proofs.Control.Position
import WasmVm.Proofs.Machine.Step

namespace WasmVm

open FlatProgram

/-- What a node does to the open scopes, by what it decides. -/
inductive Moves : Node → Decision → List Scope → List Scope → Prop
  | plain {id instr scopes} : Moves (.plain id instr) .onward scopes scopes
  | enter {id kind type body alternative scopes} {scope : Scope}
      (hrest : scope.rest = body)
      (hbody : scope.body = body) (hloop : scope.isLoop = (kind == .loop)) :
      Moves (.scope id kind type body alternative) .onward scopes (scope :: scopes)
  | other {id type body other scopes} {scope : Scope} (hrest : scope.rest = other)
      (hloop : scope.isLoop = false) :
      Moves (.scope id .ifThen type body (some other)) .skip scopes (scope :: scopes)
  | skip {id type body scopes} : Moves (.scope id .ifThen type body none)
      .skip scopes scopes
  | branch {node depth scopes outer} {scope : Scope}
      (hdrop : scopes.drop depth = scope :: outer) :
      Moves node (.branch depth) scopes
        (if scope.isLoop then { scope with rest := scope.body } :: outer else outer)
  | leave {node scopes} : Moves node .leave scopes []

namespace Located

variable {p : FlatProgram} {scope : Scope} {scopes : List Scope} {openers : List Nat}
  {before after : List FlatEntry} {node : Node} {rest : List Node}

/-- The scopes around the instruction to be fetched. -/
theorem enclosing_eq (h : Located p (scope :: scopes) openers before after)
    (hrest : scope.rest = node :: rest) :
    p.enclosing before.length = openers.map fun q => ⟨q, false⟩ := by
  have hsome : scope.rest ≠ [] := by simp [hrest]
  rw [enclosing, ← h.program, List.take_left, h.scan hsome]

/-- The first half of an `if` is passed over up to its `else`, or to its `end`. -/
theorem next_skip {id depth : Nat} {type : BlockType} {body : List Node}
    {alternative : Option (List Node)} (h : Located p scopes openers
      (before ++ (Node.scope id .ifThen type body alternative).flatten depth) after)
    (hnode : (Node.scope id .ifThen type body alternative).Nested) :
    p.next before.length .skip =
      some (before.length + 1 + ((flattenAll (depth + 1) body).length + 1)) := by
  have hp := h.program
  rw [Node.flatten_eq, List.append_assoc, List.cons_append] at hp
  rw [next, drop_split hp, List.append_assoc]
  cases hnode with
  | scope hbody =>
      have hpaired := Node.Nested.paired hbody (depth + 1)
      rw [Node.closing_scope hbody, hpaired.passed, List.singleton_append,
        passed_closes_zero rfl rfl]
  | ifElse hbody _ =>
      have hpaired := Node.Nested.paired hbody (depth + 1)
      rw [Node.closing_ifElse hbody, hpaired.passed, List.append_assoc,
        List.cons_append, passed_else_zero]

/-- The machine over the entries goes where the scopes go. -/
theorem moves {decision : Decision} {scopes' : List Scope}
    (h : Located p (scope :: scopes) openers before after)
    (hrest : scope.rest = node :: rest)
    (hmoves : Moves node decision ({ scope with rest } :: scopes) scopes') :
    ∃ openers' before' after', Located p scopes' openers' before' after' ∧
      p.next before.length decision = some before'.length := by
  have hsome : scope.rest ≠ [] := by simp [hrest]
  obtain ⟨depth, after', rfl, hpast, hnode⟩ := h.past_node hrest
  cases hmoves with
  | plain => exact ⟨_, _, _, hpast, by rw [List.length_append]; rfl⟩
  | enter hbody hwhole hloop =>
      have hnested := hnode.resolve_right (by rintro ⟨_, _, ⟨⟩⟩)
      have hinner := Located.body hpast (h.scan hsome) hnested
        (List.nil_append _).symm hbody hwhole hloop
      exact ⟨_, _, _, hinner, by rw [List.length_append]; rfl⟩
  | other hother hloop =>
      have hnested := hnode.resolve_right (by rintro ⟨_, _, ⟨⟩⟩)
      have hinner := Located.other hpast (h.scan hsome) hnested
        (List.nil_append _).symm hother hloop
      refine ⟨_, _, _, hinner, ?_⟩
      rw [hpast.next_skip hnested]
      simp [Nat.add_assoc, Nat.add_comm 1]
  | skip =>
      have hnested := hnode.resolve_right (by rintro ⟨_, _, ⟨⟩⟩)
      refine ⟨_, _, _, hpast, ?_⟩
      rw [hpast.next_skip hnested, Node.flatten_eq]
      cases hnested with
      | scope hbody =>
          rw [Node.closing_scope hbody]
          simp [Nat.add_assoc, Nat.add_comm 1]
  | branch hdrop =>
      obtain ⟨openers', before', after'', htarget, hlanding⟩ := hpast.target hdrop
      refine ⟨openers', before', after'', htarget, ?_⟩
      rw [next_branch _ (h.enclosing_eq hrest), hlanding]
  | leave => exact ⟨_, _, _, .finished, rfl⟩

/-- A branch leads nowhere exactly if there are too few open scopes. -/
theorem next_branch_eq_none {depth : Nat}
    (h : Located p (scope :: scopes) openers before after)
    (hrest : scope.rest = node :: rest) :
    p.next before.length (.branch depth) = none ↔ (scope :: scopes).length ≤ depth := by
  have hlength := h.length_openers
  rw [next_branch _ (h.enclosing_eq hrest), landing, List.length_cons]
  constructor
  · intro hnone
    split at hnone
    · split at hnone <;> cases hnone
    · next hlookup =>
        have hle := List.getElem?_eq_none_iff.mp hlookup
        split at hnone
        · cases hnone
        · omega
  · intro hle
    rw [List.getElem?_eq_none (by omega)]
    simp only
    rw [if_neg (by omega)]

end Located

namespace Frame

variable {f : Frame} {m : Module} {store : Store}

theorem setLocal_scopes (f : Frame) (index : Nat) (v : Value) :
    Returns (fun g => g.scopes = f.scopes) (f.setLocal index v) := by
  unfold setLocal
  split
  · rfl
  · trivial

/-- A branch of a depth that is open goes to the scope of that depth. -/
theorem branch_scopes (f : Frame) (depth : Nat) :
    Returns (fun g => ∃ scope outer, f.scopes.drop depth = scope :: outer ∧
      g.scopes = if scope.isLoop then { scope with rest := scope.body } :: outer
        else outer)
      (f.branch depth) := by
  unfold branch
  split
  · trivial
  · next scope outer hdrop =>
      apply Returns.bind
      rintro ⟨kept, below⟩ -
      dsimp only
      split
      · next hloop => exact ⟨scope, outer, hdrop, by rw [if_pos hloop]⟩
      · next hloop => exact ⟨scope, outer, hdrop, by rw [if_neg hloop]⟩

/-- Only a depth that is not open makes a branch invalid. -/
theorem branch_eq_invalid {depth : Nat} :
    (∃ count, f.branch depth = .error (.invalidBranch depth count)) ↔
    f.scopes.length ≤ depth := by
  unfold branch
  constructor
  · rintro ⟨count, h⟩
    split at h
    · next hdrop => exact List.drop_eq_nil_iff.mp hdrop
    · next scope outer hdrop =>
        unfold Stack.popMany at h
        split at h
        · cases h
        · simp only [bind, Except.bind] at h
          split at h <;> cases h
  · intro hle
    rw [List.drop_eq_nil_of_le hle]
    exact ⟨_, rfl⟩

/-- A branch as the end of an instruction. -/
theorem branch_moves {node : Node} {depth : Nat} {scopes : List Scope}
    (hf : f.scopes = scopes) :
    Returns (fun result => Moves node (.branch depth) scopes result.1.scopes)
      (f.branch depth >>= fun g => pure (g, Action.proceed)) := by
  apply Returns.bind
  intro g hg
  obtain ⟨scope, outer, hdrop, hscopes⟩ := (branch_scopes f depth).ok hg
  change Moves node _ scopes g.scopes
  rw [hscopes]
  rw [hf] at hdrop
  exact .branch hdrop

/-- An instruction that opens no scope does what it decides. -/
theorem executePlain_moves (f : Frame) (store : Store) (id : Nat) (instr : Instr) :
    Returns (fun result => Moves (.plain id instr)
      ((Node.plain id instr).decision f.stack)
      f.scopes result.1.scopes) (f.executePlain store instr) := by
  cases instr with
  | unreachable | throwTag | rethrow | catchTag | catchAll | callIndirect => trivial
  | delegate | const => exact .plain
  | load | store | memorySize | memoryGrow | memoryCopy | memoryFill |
      memoryInit | dataDrop =>
      exact .bind fun _ _ => .plain
  | br depth => exact branch_moves rfl
  | brIf depth =>
      apply Returns.bind
      rintro ⟨condition, stack⟩ hpop
      cases condition with
      | true =>
          simp only [Node.decision, hpop]
          exact branch_moves rfl
      | false =>
          simp only [Node.decision, hpop]
          exact .plain
  | brTable targets fallback =>
      apply Returns.bind
      rintro ⟨index, stack⟩ hpop
      simp only [Node.decision, hpop]
      exact branch_moves rfl
  | returnOp => exact .leave
  | call target =>
      apply Returns.bind
      rintro ⟨args, stack⟩ -
      dsimp only
      split <;> exact .plain
  | drop => exact .bind fun _ _ => .plain
  | select => exact .bind fun _ _ => .bind fun _ _ => .bind fun _ _ => .plain
  | localGet => exact .bind fun _ _ => .plain
  | localSet index =>
      apply Returns.bind
      rintro ⟨v, stack⟩ -
      apply Returns.bind
      intro g hg
      have hscopes := (setLocal_scopes _ index v).ok hg
      change Moves _ .onward f.scopes g.scopes
      rw [hscopes]
      exact .plain
  | localTee index =>
      apply Returns.bind
      rintro ⟨v, stack⟩ -
      apply Returns.bind
      intro g hg
      have hscopes := (setLocal_scopes _ index v).ok hg
      change Moves _ .onward f.scopes g.scopes
      rw [hscopes]
      exact .plain
  | globalGet index =>
      apply Returns.bind
      rintro (_ | v) -
      · exact .plain
      · exact .plain
  | globalSet index =>
      apply Returns.bind
      rintro ⟨v, stack⟩ -
      dsimp only
      split
      · exact .plain
      · trivial
  | numeric => exact .bind fun _ _ => .plain

/-- Any instruction does what it decides. -/
theorem execute_moves {g : Frame} {action : Action} {node : Node}
    (h : f.execute m store node = .ok (g, action)) :
    Moves node (node.decision f.stack) f.scopes g.scopes := by
  have hreturns : Returns (fun result => Moves node (node.decision f.stack) f.scopes
      result.1.scopes) (f.execute m store node) := by
    cases node with
    | plain id instr => exact executePlain_moves f store id instr
    | scope id kind type body alternative =>
        cases kind with
        | block | loop | tryBlock => exact .enter rfl rfl rfl
        | ifThen =>
            apply Returns.bind
            rintro ⟨condition, stack⟩ hpop
            cases condition with
            | true =>
                simp only [Node.decision, hpop]
                exact .enter rfl rfl rfl
            | false =>
                simp only [Node.decision, hpop]
                cases alternative with
                | none => exact .skip
                | some other => exact .other rfl rfl
  exact hreturns.ok h

/-- A branch that is taken traps as invalid exactly if its depth is not open. -/
theorem execute_eq_invalid {node : Node} {depth : Nat}
    (h : node.decision f.stack = .branch depth) :
    (∃ count, f.execute m store node = .error (.invalidBranch depth count)) ↔
      f.scopes.length ≤ depth := by
  have hbranch : ∀ g : Frame, g.scopes = f.scopes →
      ((∃ count, (g.branch depth >>= fun g => pure (g, Action.proceed)) =
        .error (.invalidBranch depth count)) ↔ f.scopes.length ≤ depth) := by
    intro g hg
    rw [← hg, ← branch_eq_invalid]
    apply exists_congr
    intro count
    cases g.branch depth with
    | ok a => exact iff_of_false nofun nofun
    | error t =>
        constructor
        · rintro ⟨⟩
          rfl
        · rintro ⟨⟩
          rfl
  unfold Node.decision at h
  split at h
  · cases h
    exact hbranch f rfl
  · next id target =>
      split at h
      · next stack hpop =>
          cases h
          have hexecute : f.execute m store (.plain id (.brIf depth)) =
              ({ f with stack }.branch depth >>= fun g =>
                pure (g, Action.proceed)) := by
            simp only [execute, executePlain, hpop]
            rfl
          rw [hexecute]
          exact hbranch _ rfl
      · cases h
  · next id targets fallback =>
      split at h
      · next index stack hpop =>
          cases h
          have hexecute : f.execute m store (.plain id (.brTable targets fallback)) =
              ({ f with stack }.branch ((targets[index.toNat]?).getD fallback) >>=
                fun g =>
                pure (g, Action.proceed)) := by
            simp only [execute, executePlain, hpop]
            rfl
          rw [hexecute]
          exact hbranch _ rfl
      · cases h
  · cases h
  · split at h <;> cases h
  · cases h

end Frame

end WasmVm
