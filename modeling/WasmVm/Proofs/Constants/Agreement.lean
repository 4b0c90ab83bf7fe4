/-
Constant expressions and initializers.  Evaluated on its own or to initialize a global,
a self-contained expression comes to the same, step by step, unless it is left by a
branch to its whole body: evaluated on its own it then has no value left.
-/
import WasmVm.Proofs.Constants.Reads
import WasmVm.Proofs.Constants.Twins
import WasmVm.Proofs.Decoding.Termination

namespace WasmVm

variable {ω σ : Type}

namespace State

/-- The next instruction is a branch that leaves the body of the running frame, with a
stack. -/
def LeavesBody (s : State ω σ) (stack : Stack) : Prop :=
  ∃ node f, s.calls.top.fetch? = some (node, f) ∧
    node.BranchesTo f.stack (f.scopes.length - 1) stack

end State

/-- The evaluation of an expression comes to a branch that leaves its body, with a
stack. -/
def ConstExpr.LeftByBranch (expr : List UInt8) (stack : Stack) : Prop :=
  ∃ m s log t, decode expr = .ok m ∧
    World.enter (env m) ⟨.ofModule m, (), ()⟩ (Frame.ofFunction m .constant 0 [] none) =
      .running s ∧
    State.Runs (env m) s log t ∧ t.calls.callers = [] ∧ t.LeavesBody stack

/-! ### Answers side by side -/

/-- Two answers with the same value, or none on either side. -/
inductive SameAnswer : Except Halt Value → Except Halt Value → Prop
  | value {v} : SameAnswer (.ok v) (.ok v)
  | failure {e e'} : SameAnswer (.error (.error e)) (.error (.error e'))
  | unfinished : SameAnswer (.error .outOfFuel) (.error .outOfFuel)

namespace SameAnswer

theorem symm {a b : Except Halt Value} (h : SameAnswer a b) : SameAnswer b a := by
  cases h with
  | value => exact .value
  | failure => exact .failure
  | unfinished => exact .unfinished

theorem eq_ok {b : Except Halt Value} {v : Value} (h : SameAnswer (.ok v) b) :
    b = .ok v := by
  cases h
  rfl

theorem eq_error {b : Except Halt Value} {e : Error}
    (h : SameAnswer (.error (.error e)) b) :
    ∃ e', b = .error (.error e') := by
  cases h with
  | failure => exact ⟨_, rfl⟩

theorem eq_outOfFuel {b : Except Halt Value} (h : SameAnswer (.error .outOfFuel) b) :
    b = .error .outOfFuel := by
  cases h
  rfl

variable {x y : Nat → Except Halt Value}

theorem comesTo_ok (h : ∀ fuel, SameAnswer (x fuel) (y fuel)) {v : Value}
    (hx : ComesTo x (.ok v)) : ComesTo y (.ok v) := by
  obtain ⟨bound, hbound⟩ := hx
  refine ⟨bound, fun fuel hfuel => ?_⟩
  have hsame := h fuel
  rw [hbound fuel hfuel] at hsame
  exact hsame.eq_ok

theorem comesTo_error (h : ∀ fuel, SameAnswer (x fuel) (y fuel)) (hy : Steady y)
    (hx : ∃ e, ComesTo x (.error e)) : ∃ e, ComesTo y (.error e) := by
  obtain ⟨e, bound, hbound⟩ := hx
  have hsame := h bound
  rw [hbound bound (Nat.le_refl _)] at hsame
  obtain ⟨e', he'⟩ := hsame.eq_error
  refine ⟨e', bound, fun fuel hfuel => ?_⟩
  have hends : y bound ≠ .error .outOfFuel := by
    rw [he']
    nofun
  exact (hy bound fuel hends hfuel).trans he'

theorem endless (h : ∀ fuel, SameAnswer (x fuel) (y fuel))
    (hx : ∀ fuel, x fuel = .error .outOfFuel) : ∀ fuel, y fuel = .error .outOfFuel := by
  intro fuel
  have hsame := h fuel
  rw [hx fuel] at hsame
  exact hsame.eq_outOfFuel

end SameAnswer

namespace State

/-! ### Lockstep -/

/-- A run with one more step in front. -/
theorem Runs.after {env : Env ω σ} {s s' t : State ω σ} {log : List Event}
    (h : Runs env s' log t) (hfirst : s.advance env = .running s') :
    Runs env s (s.events env ++ log) t := by
  induction h with
  | start =>
      rw [List.append_nil]
      exact Runs.start.step hfirst
  | step _ hadvance ih =>
      rw [← List.append_assoc]
      exact ih.step hadvance

/-- Nobody watches a constant expression. -/
theorem permitted_of_constant (m : Module) (c : State Unit Unit) :
    c.Permitted (ConstExpr.env m) :=
  fun _ _ _ => rfl

/-- All that a constant expression leaves is its result. -/
theorem advance_of_constant (env : Env ω σ) {s : State ω σ} {stack : Stack}
    (hcallers : s.calls.callers = [])
    (htop : s.calls.top = ⟨.constant, #[], stack, [], none⟩) :
    ∃ w, s.advance env = .done (.ok stack.reverse) w := by
  have hscopes : s.calls.top.scopes = [] := by rw [htop]
  rw [advance_of_finished hscopes]
  simp only [finish, htop, Frame.finish, handOver, CallStack.pop?_eq_none hcallers]
  exact ⟨_, rfl⟩

/-- A run does not go on when its last frame has ended. -/
theorem advance_ne_running {env : Env ω σ} {s s' : State ω σ}
    (hcallers : s.calls.callers = []) (hends : s.calls.top.scopes = []) :
    s.advance env ≠ .running s' := by
  intro hadvance
  rw [advance_of_finished hends] at hadvance
  have hcontrol := congrArg List.length (finish_control hadvance)
  rw [List.length_tail, length_control, length_control, hcallers] at hcontrol
  cases hcontrol

theorem perform_of_slight {env : Env ω σ} {s : State ω σ} {p : Point} {action : Action}
    (h : action.Slight) : ∃ w : World ω σ, perform env s p action =
      .running ⟨s.calls, w⟩ ∧ w.store.memory = s.world.store.memory := by
  cases h with
  | proceed => exact ⟨_, rfl, rfl⟩
  | dropSegment => exact ⟨_, rfl, rfl⟩

/-- The evaluation of a constant expression, and a run that evaluates it for a global
with `level` frames below. -/
structure Twins (index level : Nat) (c : State Unit Unit) (s : State ω σ) : Prop where
  alone : c.calls.callers = []
  level : s.calls.callers.length = level
  frames : Frame.Twins index c.calls.top s.calls.top
  within : ∀ scope ∈ s.calls.top.scopes, scope.Within Node.SelfContained
  memory : c.world.store.memory = none
  memory' : s.world.store.memory = none

namespace Twins

variable {m : Module} {env : Env ω σ} {index level : Nat}
  {c : State Unit Unit} {s : State ω σ}

/-- Both runs are at the end of their frames, take a step and are still side by side,
or fail, unless the evaluation is about to leave its body. -/
theorem advance (h : Twins index level c s) (m : Module)
    (hobserver : env.observer.Permissive) :
    (c.calls.top.scopes = [] ∧ s.calls.top.scopes = []) ∨
    (∃ c' s', c.advance (ConstExpr.env m) = .running c' ∧ s.advance env = .running s' ∧
      Twins index level c' s') ∨
    (∃ e e' w w', c.advance (ConstExpr.env m) = .done (.error e) w ∧
      s.advance env = .done (.error e') w') ∨
    ∃ stack, c.LeavesBody stack := by
  rcases h.frames.next with hends |
    ⟨scope, scope', outer, outer', hc, hrest, hs, hrest', hnext⟩ |
      ⟨node, f, f', hfetch, hfetch', hnext, hopen⟩
  · exact .inl hends
  · refine .inr (.inl ⟨_, _, advance_of_empty hc hrest, advance_of_empty hs hrest', ?_⟩)
    refine ⟨h.alone, h.level, hnext, ?_, h.memory, h.memory'⟩
    intro inner hinner
    apply h.within
    rw [hs]
    exact List.mem_cons_of_mem scope' hinner
  · -- Both run the same node, which asks for the same of its frame in any module.
    obtain ⟨hnode, hwithin⟩ := Frame.fetch?_within h.within hfetch'
    rcases hnext.execute hopen h.memory h.memory' m env.module hnode.item with
      ⟨stack, hleaves⟩ | hmatches
    · exact .inr (.inr (.inr ⟨stack, node, f, hfetch, hleaves⟩))
    · obtain ⟨w, hw, hadvance⟩ :=
        advance_of_permitted (permitted_of_constant m c) hfetch
      obtain ⟨w', hw', hadvance'⟩ :=
        advance_of_permitted (permitted_of_permissive hobserver s) hfetch'
      change Matches _ (f.execute (ConstExpr.env m).module c.world.store node)
        _ at hmatches
      generalize hexecute : f.execute _ _ node = x at hmatches hadvance
      generalize hexecute' : f'.execute _ _ node = y at hmatches hadvance'
      cases hmatches with
      | error => exact .inr (.inr (.inl ⟨_, _, _, _, hadvance, hadvance'⟩))
      | ok hresults =>
          cases hresults with
          | mk hframes haction =>
              obtain ⟨w₂, hperform, hmemory⟩ := perform_of_slight haction
              obtain ⟨w₂', hperform', hmemory'⟩ := perform_of_slight haction
              refine .inr (.inl ⟨_, _, hadvance.trans hperform,
                hadvance'.trans hperform', ?_⟩)
              refine ⟨h.alone, h.level, hframes, ?_, ?_, ?_⟩
              · have hmoves := Frame.execute_moves hexecute'
                exact hmoves.within Node.SelfContained.inherited hnode hwithin
              · rw [hmemory, ← h.memory, ← hw]
              · rw [hmemory', ← h.memory', ← hw']

theorem ended (h : Twins index level c s) (hends : c.calls.top.scopes = []) :
    ∃ stack, c.calls.top = ⟨.constant, #[], stack, [], none⟩ ∧
      s.calls.top = ⟨.global index, #[], stack, [], none⟩ := by
  have hframes := h.frames
  generalize c.calls.top = f at hframes hends ⊢
  generalize s.calls.top = f' at hframes ⊢
  cases hframes with
  | @mk stack _ _ hscopes =>
      cases hends
      cases hscopes
      exact ⟨stack, rfl, rfl⟩

/-- As long as the evaluation does not leave its body by a branch, both runs have the
same answer at any time. -/
theorem sameAnswer (h : Twins index level c s) (hobserver : env.observer.Permissive)
    (hstays : ∀ log t stack, Runs (ConstExpr.env m) c log t → t.calls.callers = [] →
      ¬ t.LeavesBody stack) (fuel : Nat) :
    SameAnswer (ConstExpr.firstValue (c.run (ConstExpr.env m) fuel).1)
      (s.delivery env index level fuel) := by
  -- A step of the one run is a step of the other, so both have used the same fuel.
  induction fuel generalizing c s with
  | zero => exact .unfinished
  | succ fuel ih =>
      rw [run]
      rcases h.advance m hobserver with ⟨hc, hs⟩ | ⟨c', s', hc, hs, hnext⟩ |
        ⟨e, e', w, w', hc, hs⟩ | ⟨stack, hleaves⟩
      · obtain ⟨stack, hctop, hstop⟩ := h.ended hc
        obtain ⟨w, hadvance⟩ := advance_of_constant (ConstExpr.env m) h.alone hctop
        rw [hadvance, delivery_of_ended hstop h.level]
        cases stack.reverse with
        | nil => exact .failure
        | cons v values => exact .value
      · rw [hc, delivery_of_running hs (Nat.le_of_eq hnext.level.symm)]
        exact ih hnext fun log t stack hruns => hstays _ t stack (hruns.after hc)
      · rw [hc, delivery_of_error hs]
        exact .failure
      · exact absurd hleaves (hstays [] c stack .start h.alone)

/-- A branch to its body leaves the evaluation with nothing, and the other run with the
value on top, if there is one. -/
theorem leaving (h : Twins index level c s) (m : Module)
    (hobserver : env.observer.Permissive) {stack : Stack}
    (hleaves : c.LeavesBody stack) :
    (∃ c', c.advance (ConstExpr.env m) = .running c' ∧ c'.calls.callers = [] ∧
      c'.calls.top = ⟨.constant, #[], [], [], none⟩) ∧
    (stack = [] → ∃ e, ∀ fuel, s.delivery env index level (fuel + 2) =
      .error (.error e)) ∧
    ∀ v, stack.head? = some v → ∀ fuel, s.delivery env index level
      (fuel + 2) = .ok v := by
  obtain ⟨node, f, hfetch, hbranch⟩ := hleaves
  obtain ⟨f', hfetch', hframes, hopen⟩ : ∃ f', s.calls.top.fetch? = some (node, f') ∧
      Frame.Twins index f f' ∧ f'.scopes ≠ [] := by
    rcases h.frames.next with ⟨hc, -⟩ | ⟨scope, _, outer, _, hc, hrest, -⟩ |
      ⟨node', f₁, f', hfetch₁, hfetch', hframes, hopen⟩
    · cases (Frame.fetch?_of_finished hc).symm.trans hfetch
    · cases (Frame.fetch?_of_empty hc hrest).symm.trans hfetch
    · cases hfetch₁.symm.trans hfetch
      exact ⟨f', hfetch', hframes, hopen⟩
  obtain ⟨hexecute, hexecute'⟩ :=
    hframes.execute_leaving hopen (ConstExpr.env m).module env.module c.world.store
      s.world.store hbranch
  obtain ⟨w, -, hadvance⟩ := advance_of_permitted (permitted_of_constant m c) hfetch
  obtain ⟨w', -, hadvance'⟩ :=
    advance_of_permitted (permitted_of_permissive hobserver s) hfetch'
  rw [hexecute] at hadvance
  rw [hexecute'] at hadvance'
  refine ⟨⟨_, hadvance, h.alone, rfl⟩, ?_, ?_⟩
  · rintro rfl
    exact ⟨_, fun fuel => delivery_of_error hadvance' (fuel + 1)⟩
  · intro v hv fuel
    rw [hv] at hadvance'
    obtain ⟨s', hnext, htop, hlevel⟩ : ∃ s', s.advance env = .running s' ∧
        s'.calls.top = ⟨.global index, #[], [v], [], none⟩ ∧
        s'.calls.callers.length = level :=
      ⟨_, hadvance', rfl, h.level⟩
    rw [delivery_of_running hnext (Nat.le_of_eq hlevel.symm)]
    exact delivery_of_ended htop hlevel fuel

/-- What the evaluation has run through, the other run has too, unless the evaluation
has left its body by a branch. -/
theorem runs (h : Twins index level c s) (hobserver : env.observer.Permissive)
    {log : List Event} {t : State Unit Unit} (hruns : Runs (ConstExpr.env m) c log t) :
    (t.calls.callers = [] ∧ t.calls.top.scopes = []) ∨
    ∃ s' n, Twins index level t s' ∧ ∀ fuel,
      s.delivery env index level (n + fuel) = s'.delivery env index level fuel := by
  induction hruns with
  | start => exact .inr ⟨s, 0, h, fun fuel => by rw [Nat.zero_add]⟩
  | @step log t t' _ hadvance ih =>
      rcases ih with ⟨hcallers, hends⟩ | ⟨s', n, hnow, hdelivery⟩
      · exact absurd hadvance (advance_ne_running hcallers hends)
      · rcases hnow.advance m hobserver with ⟨hc, -⟩ | ⟨c', s'', hc, hs, hnext⟩ |
          ⟨e, e', w, w', hc, hs⟩ | ⟨stack, hleaves⟩
        · exact absurd hadvance (advance_ne_running hnow.alone hc)
        · cases hadvance.symm.trans hc
          refine .inr ⟨s'', n + 1, hnext, fun fuel => ?_⟩
          rw [Nat.add_right_comm, Nat.add_assoc, hdelivery]
          exact delivery_of_running hs (Nat.le_of_eq hnext.level.symm) fuel
        · cases hadvance.symm.trans hc
        · obtain ⟨⟨c', hc, hcallers, htop⟩, -⟩ := hnow.leaving m hobserver hleaves
          cases hadvance.symm.trans hc
          exact .inl ⟨hcallers, by rw [htop]⟩

/-- Once the evaluation comes to a branch that leaves its body, it has no value, and
the other run has the value on top, if there is one. -/
theorem leftByBranch (h : Twins index level c s) (hobserver : env.observer.Permissive)
    {log : List Event} {t : State Unit Unit} (hruns : Runs (ConstExpr.env m) c log t)
    {stack : Stack} (hleaves : t.LeavesBody stack) :
    ComesTo (fun fuel => ConstExpr.firstValue (c.run (ConstExpr.env m) fuel).1)
      (.error (.trap .noConstant none)) ∧
    (∀ v, stack.head? = some v → ComesTo (s.delivery env index level ·) (.ok v)) ∧
    (stack = [] → ∃ e, ComesTo (s.delivery env index level ·) (.error e)) := by
  rcases h.runs hobserver hruns with ⟨-, hends⟩ | ⟨s', n, hnow, hdelivery⟩
  · obtain ⟨node, f, hfetch, -⟩ := hleaves
    cases (Frame.fetch?_of_finished hends).symm.trans hfetch
  obtain ⟨⟨t', hadvance, hcallers, htop⟩, hnone, hsome⟩ :=
    hnow.leaving m hobserver hleaves
  have hcomes {result : Except Error Value} (hresult : ∀ fuel,
      s'.delivery env index level (fuel + 2) = result.mapError .error) :
      ComesTo (s.delivery env index level ·) result := by
    refine ⟨n + 2, fun fuel hfuel => ?_⟩
    obtain ⟨more, rfl⟩ := Nat.exists_eq_add_of_le hfuel
    dsimp only
    rw [Nat.add_assoc, Nat.add_comm 2, hdelivery, hresult]
  refine ⟨?_, fun v hv => hcomes (hsome v hv), fun hempty => ?_⟩
  · obtain ⟨n', hrun⟩ := hruns.run_eq
    obtain ⟨w, hdone⟩ := advance_of_constant (ConstExpr.env m) hcallers htop
    refine ⟨n' + 2, fun fuel hfuel => ?_⟩
    obtain ⟨more, rfl⟩ := Nat.exists_eq_add_of_le hfuel
    dsimp only
    rw [Nat.add_assoc, Nat.add_comm 2, (hrun _).1, run, hadvance]
    dsimp only
    rw [run, hdone]
    rfl
  · obtain ⟨e, he⟩ := hnone hempty
    exact ⟨e, hcomes he⟩

end Twins

end State

/-! ### Where both start -/

/-- The evaluation of an expression that is decoded, before its first step. -/
theorem ConstExpr.evaluate_of_start {expr : List UInt8} {m : Module}
    {c : State Unit Unit} (hdecode : decode expr = .ok m)
    (hstart : World.enter (env m) ⟨.ofModule m, (), ()⟩
      (Frame.ofFunction m .constant 0 [] none) = .running c) (fuel : Nat) :
    evaluate fuel expr = firstValue (c.run (env m) fuel).1 := by
  rw [evaluate_of_decode hdecode]
  change firstValue
    ((env m).runFrame? fuel _ (Frame.ofFunction m .constant 0 [] none)).1 = _
  cases hframe : Frame.ofFunction m .constant 0 [] none with
  | error t =>
      rw [hframe] at hstart
      cases hstart
  | ok frame =>
      rw [hframe] at hstart
      cases hstart
      rfl

/-- The evaluation of an expression and the run of an initializer with the same body
start side by side. -/
theorem State.twins_of_start {m m₀ : Module} {index : Nat}
    {type : ValType} {root : Node}
    {bytes : List UInt8} (hbody : BodyEncodes m₀ (.value type) root bytes)
    (hroot : root.SelfContained) (hsize : bytes.length + 7 < 2 ^ 32) {s : State ω σ}
    (htop : s.calls.top = Frame.ofBody m (.global index) root #[] none)
    (hmemory : s.world.store.memory = none) :
    ∃ m' c, ConstExpr.decode bytes = .ok m' ∧
      World.enter (ConstExpr.env m') ⟨.ofModule m', (), ()⟩
        (Frame.ofFunction m' .constant 0 [] none) = .running c ∧
      Twins index s.calls.callers.length c s := by
  refine ⟨_, _, ConstExpr.decode_of_selfContained hbody hroot hsize, rfl, ?_⟩
  obtain ⟨items, nodes, -, -, rfl⟩ := hbody
  have hscopes : s.calls.top.scopes = [⟨nodes, nodes, 0, 1, false⟩] := by
    rw [htop]
    rfl
  refine ⟨rfl, rfl, ?_, ?_, rfl, hmemory⟩
  · rw [htop]
    exact .mk .root
  · rw [hscopes]
    intro scope hscope
    obtain rfl := List.mem_singleton.mp hscope
    exact ⟨Node.SelfContained.inherited.body hroot, nofun⟩

/-- The two ways to evaluate an expression agree.  Take a decoded module with a global
whose initializer has no calls, no globals and no scopes of signatures, and a first
read of it, from outside or by an instruction, in an instance without memory.  Unless
it is left by a branch to its whole body, the bytes of the initializer evaluated as a
constant expression come to a value exactly if the read comes to that value, fail
exactly if the read fails, and run without end exactly if it does.  If there is such a
branch, the constant expression is left without a value, since nothing is carried to
the end of its body; the read has the value on top of the stack, and fails if there is
none. -/
theorem constant_evaluators_agree {env : Env ω σ} {fuel : Nat} {bytes : Array UInt8}
    (hmodule : Module.decode fuel bytes = .ok env.module)
    (hobserver : env.observer.Permissive) {index : Nat} {g : Global}
    (hdefined : env.module.importedGlobals ≤ index)
    (hg : env.module.globals[index - env.module.importedGlobals]? = some g)
    (hbody : g.body.SelfContained) (hsize : g.init.length + 7 < 2 ^ 32)
    {r : GlobalRead ω σ} (hr : r.First env index) :
    ((¬ ∃ stack, ConstExpr.LeftByBranch g.init stack) →
      (∀ v, ComesTo (ConstExpr.evaluate · g.init) (.ok v) ↔
        ComesTo (r.answer env index) (.ok v)) ∧
      ((∃ e, ComesTo (ConstExpr.evaluate · g.init) (.error e)) ↔
        ∃ e, ComesTo (r.answer env index) (.error e)) ∧
      ((∀ fuel, ConstExpr.evaluate fuel g.init = .error .outOfFuel) ↔
        ∀ fuel, r.answer env index fuel = .error .outOfFuel)) ∧
    ∀ stack, ConstExpr.LeftByBranch g.init stack →
      ComesTo (ConstExpr.evaluate · g.init) (.error (.trap .noConstant none)) ∧
      (∀ v, stack.head? = some v → ComesTo (r.answer env index) (.ok v)) ∧
      (stack = [] → ∃ e, ComesTo (r.answer env index) (.error e)) := by
  have hframe : Frame.ofGlobal env.module index =
      .ok (Frame.ofBody env.module (.global index) g.body #[] none) := by
    rw [Frame.ofGlobal, Module.initializer?, if_neg (Nat.not_lt.mpr hdefined), hg]
    rfl
  obtain ⟨m₀, -, hencodes⟩ := (Module.decodeWith_bodiesRead hmodule).globals g
    (Array.mem_of_getElem? hg)
  obtain ⟨s, htop, hmemory, hanswer⟩ := hr.start hobserver hframe
  obtain ⟨m, c, hdecode, hstart, htwins⟩ :=
    State.twins_of_start hencodes hbody hsize htop hmemory
  have hevaluate := ConstExpr.evaluate_of_start hdecode hstart
  rw [funext hanswer]
  constructor
  · intro hnever
    have hsame : ∀ fuel, SameAnswer (ConstExpr.evaluate fuel g.init)
        (s.delivery env index s.calls.callers.length fuel) := by
      intro fuel
      rw [hevaluate]
      exact htwins.sameAnswer hobserver (fun log t stack hruns hcallers hleaves =>
        hnever ⟨stack, m, c, log, t, hdecode, hstart, hruns, hcallers, hleaves⟩) fuel
    have hsame' := fun fuel => (hsame fuel).symm
    have hsteady : Steady (ConstExpr.evaluate · g.init) :=
      fun _ _ => ConstExpr.evaluate_eq_of_le
    have hsteady' := State.delivery_steady env index s.calls.callers.length s
    exact ⟨fun v => ⟨SameAnswer.comesTo_ok hsame, SameAnswer.comesTo_ok hsame'⟩,
      ⟨SameAnswer.comesTo_error hsame hsteady',
        SameAnswer.comesTo_error hsame' hsteady⟩,
      ⟨SameAnswer.endless hsame, SameAnswer.endless hsame'⟩⟩
  · rintro stack ⟨m', c', log, t, hdecode', hstart', hruns, hcallers, hleaves⟩
    cases hdecode.symm.trans hdecode'
    cases hstart.symm.trans hstart'
    have hleft := htwins.leftByBranch hobserver hruns hleaves
    rwa [← funext hevaluate] at hleft

namespace AgreementWitness

/-- `i32.const 7 end`. -/
def plain : List UInt8 :=
  [0x41, 0x07, 0x0b]

/-- `i32.const 5 br 0 end`. -/
def leaving : List UInt8 :=
  [0x41, 0x05, 0x0c, 0x00, 0x0b]

/-- A binary with a global for each. -/
def bytes : List UInt8 :=
  [0x00, 0x61, 0x73, 0x6d, 0x01, 0x00, 0x00, 0x00] ++ [0x06, 0x0d, 0x02] ++
    [0x7f, 0x00] ++ plain ++ [0x7f, 0x00] ++ leaving

def plainBody : Node :=
  .scope 0 .block (.value .i32) [.plain 1 (.const (.i32 7))] none

def leavingBody : Node :=
  .scope 0 .block (.value .i32) [.plain 1 (.const (.i32 5)), .plain 2 (.br 0)] none

def module : Module where
  globals := #[⟨.i32, false, plain, plainBody⟩, ⟨.i32, false, leaving, leavingBody⟩]

def env : Env Unit Unit :=
  { module, hosts := #[], observer := .silent, maxDepth := 1 }

def world : World Unit Unit :=
  ⟨.ofModule module, (), ()⟩

theorem decode_bytes : Module.decode 0 bytes.toArray = .ok env.module := by
  with_unfolding_all rfl

theorem plainBody_selfContained : plainBody.SelfContained := by
  intro n hn
  cases hn with
  | self => rfl
  | body hchild hn =>
      obtain rfl := List.mem_singleton.mp hchild
      cases hn
      rfl

theorem leavingBody_selfContained : leavingBody.SelfContained := by
  intro n hn
  cases hn with
  | self => rfl
  | body hchild hn =>
      rcases List.mem_cons.mp hchild with rfl | hchild
      · cases hn
        rfl
      · obtain rfl := List.mem_singleton.mp hchild
        cases hn
        rfl

/-- The module made for the plain expression. -/
def wrapped : Module :=
  ConstExpr.wrapper (.scope 0 .block (.func 0) [.plain 1 (.const (.i32 7))] none)

/-- The evaluation of the plain expression with some of it left. -/
def evaluating (rest : List Node) (stack : Stack) : State Unit Unit :=
  ⟨.ofFrame ⟨.constant, #[], stack,
    [⟨rest, [.plain 1 (.const (.i32 7))], 0, 0, false⟩], none⟩,
      ⟨.ofModule wrapped, (), ()⟩⟩

/-- There is no branch in the plain expression to leave it by. -/
theorem plain_stays : ¬ ∃ stack, ConstExpr.LeftByBranch plain stack := by
  rintro ⟨stack, m, s, log, t, hdecode, hstart, hruns, -, node, f, hfetch, hbranch⟩
  have hwrapped : ConstExpr.decode plain = .ok wrapped := by with_unfolding_all rfl
  cases hwrapped.symm.trans hdecode
  obtain rfl : evaluating [.plain 1 (.const (.i32 7))] [] = s := by
    with_unfolding_all exact Outcome.running.inj hstart
  have hfirst : (evaluating [.plain 1 (.const (.i32 7))] []).advance
      (ConstExpr.env wrapped) = .running (evaluating [] [.i32 7]) := by
        with_unfolding_all rfl
  rcases hruns.first with ⟨rfl, -⟩ | ⟨s₁, log₁, hadvance, -, hruns₁⟩
  · cases hfetch
    cases hbranch
  cases hfirst.symm.trans hadvance
  rcases hruns₁.first with ⟨rfl, -⟩ | ⟨s₂, log₂, hadvance₂, -, hruns₂⟩
  · cases hfetch
  cases (State.advance_of_empty rfl rfl).symm.trans hadvance₂
  rcases hruns₂.first with ⟨rfl, -⟩ | ⟨s₃, _, hadvance₃, -⟩
  · cases hfetch
  · exact absurd hadvance₃ (State.advance_ne_running rfl rfl)

/-- A constant as an initializer is read as what it evaluates to. -/
theorem plain_read : ComesTo (ConstExpr.evaluate · plain) (.ok (.i32 7)) ∧
    ComesTo (fun fuel => (env.readGlobal fuel world 0).1) (.ok (.i32 7)) := by
  have hevaluate : ComesTo (ConstExpr.evaluate · plain) (.ok (.i32 7)) := by
    refine ⟨3, fun fuel hfuel => ?_⟩
    obtain ⟨more, rfl⟩ := Nat.exists_eq_add_of_le' hfuel
    with_unfolding_all rfl
  have hfirst : (GlobalRead.outside world).First env 0 :=
    .outside (by with_unfolding_all rfl) rfl
  obtain ⟨hagree, -⟩ := constant_evaluators_agree decode_bytes (fun _ _ => rfl)
    (Nat.zero_le 0) rfl plainBody_selfContained (by decide) hfirst
  exact ⟨hevaluate, ((hagree plain_stays).1 _).mp hevaluate⟩

/-- With a branch to the whole body the two come to different results. -/
theorem branch_to_body_disagrees :
    ¬ ∀ (env : Env Unit Unit) (fuel : Nat) (bytes : Array UInt8)
      (index : Nat) (g : Global)
      (r : GlobalRead Unit Unit), Module.decode fuel bytes = .ok env.module →
      env.observer.Permissive → env.module.importedGlobals ≤ index →
      env.module.globals[index - env.module.importedGlobals]? = some g →
        g.body.SelfContained →
      r.First env index → ∀ v, ComesTo (ConstExpr.evaluate · g.init) (.ok v) ↔
        ComesTo (r.answer env index) (.ok v) := by
  intro hagree
  have hfirst : (GlobalRead.outside world).First env 1 :=
    .outside (by with_unfolding_all rfl) rfl
  have hiff := hagree env 0 bytes.toArray 1 _ (.outside world) decode_bytes
    (fun _ _ => rfl) (Nat.zero_le 1) rfl leavingBody_selfContained hfirst (.i32 5)
  have hread : ComesTo ((GlobalRead.outside world).answer env 1) (.ok (.i32 5)) := by
    refine ⟨4, fun fuel hfuel => ?_⟩
    obtain ⟨more, rfl⟩ := Nat.exists_eq_add_of_le' hfuel
    with_unfolding_all rfl
  obtain ⟨bound, hbound⟩ := hiff.mpr hread
  have hfails : ConstExpr.evaluate (bound + 4) leaving =
      .error (.error (.trap .noConstant none)) := by
    with_unfolding_all rfl
  cases hfails.symm.trans (hbound (bound + 4) (Nat.le_add_right _ _))

end AgreementWitness

end WasmVm
