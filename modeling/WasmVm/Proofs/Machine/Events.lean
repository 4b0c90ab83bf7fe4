/-
What can be told of a run from outside its frames: the instructions fetched, the
calls of host functions, and what happens to globals.  The events of a step are
read off the step itself, and those of a run are put one behind the other.
-/
import WasmVm.Proofs.Machine.Step

namespace WasmVm

variable {ω σ : Type}

/-- A call of a host function: its index, its arguments, and the memory handed to it. -/
structure HostCall where
  function : Nat
  args : List Value
  memory : Option Memory

inductive Event where
  /-- An instruction is fetched, and the observer lets it pass. -/
  | fetched (node : Node)
  | hostCalled (call : HostCall)
  /-- A global without a value is wanted, so its initializer is to run.  The limit on
  frames may still refuse it. -/
  | started (index : Nat)
  /-- An instruction sets a global, while the call stack holds frames of these owners.
  -/
  | set (index : Nat) (v : Value) (owners : List Owner)
  /-- The initializer of a global ends and gives it a value. -/
  | completed (index : Nat) (v : Value)
  /-- Whoever wanted the value of a global gets it. -/
  | read (index : Nat) (v : Value)

/-- The call of a host function, if one is bound. -/
def World.hostEvents (env : Env ω σ) (w : World ω σ) (function : Nat)
    (args : List Value) :
    List Event :=
  match (env.hosts[function]?).join with
  | some _ => [.hostCalled ⟨function, args, w.store.memory⟩]
  | none => []

/-- What an instruction is seen to read: the value that it has pushed, if it wants a
global and goes on at once. -/
def Node.readEvents (node : Node) (after : Frame) : List Event :=
  match node with
  | .plain _ (.globalGet index) => (after.stack.head?.map (.read index)).toList
  | _ => []

/-- An instruction of a frame, for messages. -/
def Frame.point (f : Frame) (node : Node) : Point :=
  ⟨f.owner, node.opcode, f.scopes.length⟩

namespace State

/-- The owners of the frames on the call stack, the running one first. -/
def owners (s : State ω σ) : List Owner :=
  s.calls.frames.map (·.owner)

/-- What the observer is shown of an instruction that has been fetched. -/
def view (s : State ω σ) (node : Node) (f : Frame) : View :=
  ⟨s.calls.setTop f, node, s.world.store.globals⟩

/-- The events of an instruction that leaves its frame as `after` and asks for an
action. -/
def actionEvents (env : Env ω σ) (s : State ω σ) (node : Node) (after : Frame) :
    Action → List Event
  | .proceed => node.readEvents after
  | .setGlobal index v => [.set index v s.owners]
  | .startGlobal index => [.started index]
  | .callHost function args => s.world.hostEvents env function args
  | _ => []

/-- The events of the next step. -/
def events (env : Env ω σ) (s : State ω σ) : List Event :=
  match s.calls.top.fetch? with
  | some (node, f) =>
    match (env.observer.step (s.view node f) s.world.watch).1 with
    | .error _ => []
    | .ok () =>
      match f.execute env.module s.world.store node with
      | .error _ => [.fetched node]
      | .ok (after, action) => .fetched node :: s.actionEvents env node after action
  | none =>
    match s.calls.top.scopes, s.calls.top.owner, s.calls.top.finish with
    | [], .global index, .ok (v :: _) => [.completed index v, .read index v]
    | _, _, _ => []

/-- What becomes of an instruction that has been fetched: the observer refuses it, it
traps, or it runs and asks for an action.  The observer's state aside, the world is up
to then as it was. -/
theorem fetch_cases (env : Env ω σ) {s : State ω σ} {node : Node} {f : Frame}
    (hfetch : s.calls.top.fetch? = some (node, f)) :
    (∃ e watch, env.observer.step (s.view node f) s.world.watch = (.error e, watch) ∧
      advance env s = .done
        (.error (e.chargedTo (Point.site (f.point node) env.module)))
          ⟨s.world.store, s.world.host, watch⟩ ∧
      s.events env = []) ∨
    ∃ watch, env.observer.step (s.view node f) s.world.watch = (.ok (), watch) ∧
      ((∃ t, f.execute env.module s.world.store node = .error t ∧
        advance env s =
          World.trapAt ⟨s.world.store, s.world.host, watch⟩ env.module
            (f.point node) t ∧
        s.events env = [.fetched node]) ∨
      ∃ g action, f.execute env.module s.world.store node = .ok (g, action) ∧
        advance env s = perform env ⟨s.calls.setTop g,
          ⟨s.world.store, s.world.host, watch⟩⟩ (f.point node) action ∧
        s.events env = .fetched node :: s.actionEvents env node g action) := by
  rw [advance_of_fetch hfetch, events, hfetch]
  obtain ⟨calls, store, host, watch⟩ := s
  simp only [fetched, view]
  rcases hstep : env.observer.step ⟨calls.setTop f, node, store.globals⟩ watch with
    ⟨e | ⟨⟨⟩⟩, watch'⟩
  · exact .inl ⟨e, watch', rfl, rfl, rfl⟩
  · refine .inr ⟨watch', rfl, ?_⟩
    rcases hexecute : f.execute env.module store node with t | ⟨g, action⟩
    · exact .inl ⟨t, rfl, by simp only [CallStack.setTop, hexecute]; rfl, rfl⟩
    · exact .inr ⟨g, action, rfl, by simp only [CallStack.setTop, hexecute]; rfl, rfl⟩

/-- The events of a run with some fuel. -/
def trace (env : Env ω σ) : (fuel : Nat) → State ω σ → List Event
  | 0, _ => []
  | fuel + 1, s =>
    s.events env ++
      match advance env s with
      | .running s' => trace env fuel s'
      | .done .. => []

/-- Steps one after the other, with their events. -/
inductive Runs (env : Env ω σ) (s : State ω σ) : List Event → State ω σ → Prop
  | start : Runs env s [] s
  | step {events s' s''} (hrun : Runs env s events s')
      (hadvance : advance env s' = .running s'') :
      Runs env s (events ++ s'.events env) s''

/-- A run is cut off at a state that it reaches, or it ends with the step from there. -/
theorem run_ends (env : Env ω σ) (s : State ω σ) (fuel : Nat) :
    ∃ log t, Runs env s log t ∧
    (s.run env fuel = (.error .outOfFuel, t.world) ∨
      (∃ values w, t.advance env = .done (.ok values) w ∧
        s.run env fuel = (.ok values, w)) ∨
      ∃ e w, t.advance env = .done (.error e) w ∧
        s.run env fuel = (.error (.error e), w.mapStore Store.settle)) := by
  suffices hfrom : ∀ {log} {now : State ω σ}, Runs env s log now →
      ∃ log t, Runs env s log t ∧ (now.run env fuel = (.error .outOfFuel, t.world) ∨
        (∃ values w, t.advance env = .done (.ok values) w ∧
          now.run env fuel = (.ok values, w)) ∨
        ∃ e w, t.advance env = .done (.error e) w ∧
          now.run env fuel = (.error (.error e), w.mapStore Store.settle)) from
            hfrom .start
  induction fuel with
  | zero => exact fun {log now} hruns => ⟨log, now, hruns, .inl rfl⟩
  | succ fuel ih =>
      intro log now hruns
      rw [run]
      cases hadvance : now.advance env with
      | running next => exact ih (hruns.step hadvance)
      | done result w =>
          refine ⟨log, now, hruns, .inr ?_⟩
          cases result with
          | ok values => exact .inl ⟨values, w, hadvance, rfl⟩
          | error e => exact .inr ⟨e, w, hadvance, rfl⟩

end State

/-! ### Operations -/

/-- What can be asked of an instance from outside. -/
inductive Operation where
  | invoke (function : Nat) (args : List Value)
  | readGlobal (index : Nat)

namespace Operation

/-- The answer to an operation, and the world afterwards. -/
def perform (env : Env ω σ) (fuel : Nat) (w : World ω σ) :
    Operation → Except Halt (List Value) × World ω σ
  | invoke function args => env.invoke fuel w function args
  | readGlobal index =>
    match env.readGlobal fuel w index with
    | (.ok v, w) => (.ok [v], w)
    | (.error h, w) => (.error h, w)

end Operation

/-- A run of a frame that may be missing, before its first step. -/
def World.enter (env : Env ω σ) (w : World ω σ) (frame : Except Trap Frame) :
    Outcome ω σ :=
  match frame with
  | .error t => .done (.error (.trap t none)) w
  | .ok frame => .running ⟨.ofFrame frame, w.mapWatch (env.observer.enter frame.owner)⟩

namespace Operation

/-- An operation up to the first step of its run, or to its answer if there is nothing
to run. -/
def start (env : Env ω σ) (w : World ω σ) : Operation → Outcome ω σ
  | invoke function args =>
    match env.module.functionType? function with
    | none => .done (.error (.trap (.noFunction function) none)) w
    | some type =>
      if function < env.module.importedFunctions then
        match w.callHost env function args with
        | (.ok values, w) => .done (.ok values) w
        | (.error t, w) => .done (.error (.trap t none)) w
      else
        w.enter env (Frame.ofFunction env.module (.function function) function args
          (some type.results.length))
  | readGlobal index =>
    match w.store.readGlobal index with
    | .error t => .done (.error (.trap t none)) w
    | .ok (some v) => .done (.ok [v]) w
    | .ok none =>
      (w.mapStore (·.setGlobal index .evaluating)).enter env
      (Frame.ofGlobal env.module index)

/-- The answer to an operation whose run has ended. -/
def answer : Operation → Except Halt (List Value) → Except Halt (List Value)
  | invoke .., result => result
  | readGlobal _, .ok (v :: _) => .ok [v]
  | readGlobal index, .ok [] => .error (.error (.trap (.globalEmpty index) none))
  | readGlobal _, .error h => .error h

/-- An operation is its start and the run that it leads to. -/
theorem perform_eq (env : Env ω σ) (fuel : Nat) (w : World ω σ) (op : Operation) :
    op.perform env fuel w =
      match op.start env w with
      | .done (.ok values) w' => (.ok values, w')
      | .done (.error e) w' => (.error (.error e), w')
      | .running s => (op.answer (s.run env fuel).1, (s.run env fuel).2) := by
  cases op with
  | invoke function args =>
      simp only [perform, Env.invoke, start]
      cases env.module.functionType? function with
      | none => rfl
      | some type =>
          dsimp only
          by_cases himported : function < env.module.importedFunctions
          · simp only [if_pos himported]
            rcases w.callHost env function args with ⟨t | values, w'⟩ <;> rfl
          · simp only [if_neg himported, Env.runFrame?, World.enter]
            cases Frame.ofFunction env.module (.function function) function args
              (some type.results.length) <;> rfl
  | readGlobal index =>
      simp only [perform, Env.readGlobal, start]
      cases w.store.readGlobal index with
      | error t => rfl
      | ok found =>
          cases found with
          | some v => rfl
          | none =>
              cases hframe : Frame.ofGlobal env.module index with
              | error t => rfl
              | ok frame =>
                  simp only [Env.runFrame?, Env.runFrame, World.enter]
                  rcases State.run env fuel _ with ⟨h | (_ | ⟨v, values⟩), w'⟩ <;> rfl

/-- The events before the first step of an operation's run. -/
def startEvents (env : Env ω σ) (w : World ω σ) : Operation → List Event
  | invoke function args =>
    match env.module.functionType? function with
    | none => []
    | some _ =>
      if function < env.module.importedFunctions then w.hostEvents env function args
      else []
  | readGlobal index =>
    match w.store.readGlobal index with
    | .error _ => []
    | .ok (some v) => [.read index v]
    | .ok none => [.started index]

/-- The events of an operation. -/
def trace (env : Env ω σ) (fuel : Nat) (w : World ω σ) (op : Operation) : List Event :=
  op.startEvents env w ++
    match op.start env w with
    | .running s => s.trace env fuel
    | .done .. => []

end Operation

end WasmVm
