/-
One run under two observers.  Where the state of the one can be read off that of the
other, all that a step leaves behind under the one can be read off what it leaves under
the other. -/
import WasmVm.Proofs.Machine.Events

namespace WasmVm

variable {ω σ τ : Type}

/-- The same setting under another observer. -/
def Env.watchedBy (env : Env ω σ) (observer : Observer τ) : Env ω τ :=
  { module := env.module, hosts := env.hosts, observer, maxDepth := env.maxDepth }

/-- The world as it is with another observer's state, read off this one's. -/
def World.through (f : σ → τ) (w : World ω σ) : World ω τ :=
  ⟨w.store, w.host, f w.watch⟩

def State.through (f : σ → τ) (s : State ω σ) : State ω τ :=
  ⟨s.calls, s.world.through f⟩

def Outcome.through (f : σ → τ) : Outcome ω σ → Outcome ω τ
  | running s => .running (s.through f)
  | done result w => .done result (w.through f)

namespace Observer

/-- What the other observer does about frames can be read off what this one does. -/
structure TracksFrames (o : Observer σ) (o' : Observer τ) (f : σ → τ) : Prop where
  enter : ∀ owner watch, o'.enter owner (f watch) = f (o.enter owner watch)
  leave : ∀ owner watch, o'.leave owner (f watch) = f (o.leave owner watch)

/-- Shown an instruction, both give the same answer, and what the other keeps of it can
be read off what this one keeps. -/
def StepsAlike (o : Observer σ) (o' : Observer τ) (f : σ → τ) (view : View)
    (watch : σ) : Prop :=
  o'.step view (f watch) = ((o.step view watch).1, f (o.step view watch).2)

/-- All of the other observer's state can be read off this one's. -/
structure Mirrors (o : Observer σ) (o' : Observer τ) (f : σ → τ) : Prop
    extends o.TracksFrames o' f where
  step : ∀ view watch, o.StepsAlike o' f view watch

end Observer

variable {env : Env ω σ} {o : Observer τ} {f : σ → τ}

namespace World

/-- Host functions are called in the same way. -/
theorem callHost_through (env : Env ω σ) (o : Observer τ) (f : σ → τ) (w : World ω σ)
    (function : Nat) (args : List Value) :
    (w.through f).callHost (env.watchedBy o) function args =
      ((w.callHost env function args).1,
        (w.callHost env function args).2.through f) := by
  obtain ⟨⟨globals, memory, segments⟩, host, watch⟩ := w
  dsimp only [callHost, Env.watchedBy, through]
  cases (env.hosts[function]?).join with
  | none => rfl
  | some called =>
      dsimp only
      cases (called host memory args).result with
      | error reasons => rfl
      | ok value =>
          dsimp only
          by_cases hresults : (env.module.functionType? function).elim 0
            (·.results.length) = 0
          · rw [if_pos hresults, if_pos hresults]
          · rw [if_neg hresults, if_neg hresults]
            cases value <;> rfl

theorem enter_through (h : env.observer.TracksFrames o f) (w : World ω σ)
    (frame : Except Trap Frame) :
    (w.through f).enter (env.watchedBy o) frame = (w.enter env frame).through f := by
  cases frame with
  | error t => rfl
  | ok frame =>
      dsimp only [enter, Env.watchedBy, mapWatch, through]
      rw [h.enter]
      rfl

end World

namespace State

theorem push_through (h : env.observer.TracksFrames o f) (s : State ω σ) (p : Point)
    (callee : Except Trap Frame) :
    (s.through f).push (env.watchedBy o) p callee =
    (s.push env p callee).through f := by
  cases callee with
  | error t => rfl
  | ok frame =>
      dsimp only [push, Env.watchedBy, through, World.through, World.mapWatch]
      rw [h.enter]
      by_cases hdepth : env.maxDepth ≤ s.calls.depth
      · rw [if_pos hdepth, if_pos hdepth]
        rfl
      · rw [if_neg hdepth, if_neg hdepth]
        rfl

theorem perform_through (h : env.observer.TracksFrames o f) (s : State ω σ) (p : Point)
    (action : Action) :
    (s.through f).perform (env.watchedBy o) p action =
    (s.perform env p action).through f := by
  cases action with
  | proceed | setGlobal | write | grow | dropSegment => rfl
  | startGlobal index =>
      exact push_through h ⟨s.calls, s.world.mapStore (·.setGlobal index .evaluating)⟩ p
        _
  | call => exact push_through h s p _
  | callHost function args =>
      simp only [perform, through, World.callHost_through]
      rcases s.world.callHost env function args with ⟨t | values, world⟩ <;> rfl

theorem handOver_through (f : σ → τ) (calls : CallStack) (world : World ω σ)
    (values pushed : List Value) :
    handOver calls (world.through f) values pushed =
      (handOver calls world values pushed).through f := by
  unfold handOver
  cases calls.pop? <;> rfl

theorem finish_through (h : env.observer.TracksFrames o f) (s : State ω σ) :
    (s.through f).finish (env.watchedBy o) = (s.finish env).through f := by
  obtain ⟨calls, store, host, watch⟩ := s
  dsimp only [finish, Env.watchedBy, through, World.through, World.mapWatch]
  rw [h.leave]
  cases calls.top.finish with
  | error t => rfl
  | ok values =>
      cases calls.top.owner with
      | global index =>
          cases values with
          | nil => rfl
          | cons v values => exact handOver_through f calls ⟨_, host, _⟩ _ _
      | function | constant => exact handOver_through f calls ⟨store, host, _⟩ _ _

/-- A step under the one observer is read off the step under the other, if both answer
the same about the instruction that is shown to them. -/
theorem advance_through (h : env.observer.TracksFrames o f) {s : State ω σ}
    (hstep : ∀ node g, s.calls.top.fetch? = some (node, g) →
      env.observer.StepsAlike o f (s.view node g) s.world.watch) :
    (s.through f).advance (env.watchedBy o) = (s.advance env).through f := by
  rcases s.calls.top.scopes_cases with hend | ⟨scope, outer, hscopes, hrest⟩ |
    ⟨node, g, hfetch⟩
  · have hend' : (s.through f).calls.top.scopes = [] := hend
    rw [advance_of_finished hend, advance_of_finished hend', finish_through h]
  · have hscopes' : (s.through f).calls.top.scopes = scope :: outer := hscopes
    rw [advance_of_empty hscopes hrest, advance_of_empty hscopes' hrest]
    rfl
  · have hfetch' : (s.through f).calls.top.fetch? = some (node, g) := hfetch
    have halike := hstep node g hfetch
    rw [advance_of_fetch hfetch, advance_of_fetch hfetch']
    obtain ⟨calls, store, host, watch⟩ := s
    dsimp only [Observer.StepsAlike, view] at halike
    dsimp only [fetched, Env.watchedBy, through, World.through]
    rw [halike]
    rcases env.observer.step ⟨calls.setTop g, node, store.globals⟩ watch with
      ⟨e | ⟨⟨⟩⟩, watch'⟩
    · rfl
    · dsimp only
      cases (calls.setTop g).top.execute env.module store node with
      | error t => rfl
      | ok result =>
          exact perform_through h ⟨(calls.setTop g).setTop result.1,
            ⟨store, host, watch'⟩⟩ _ _

theorem run_through (h : env.observer.Mirrors o f) (fuel : Nat) (s : State ω σ) :
    (s.through f).run (env.watchedBy o) fuel =
      ((s.run env fuel).1, (s.run env fuel).2.through f) := by
  induction fuel generalizing s with
  | zero => rfl
  | succ fuel ih =>
      rw [run, run, advance_through h.toTracksFrames fun _ _ _ => h.step _ _]
      rcases s.advance env with s' | ⟨e | values, w⟩
      · exact ih s'
      · rfl
      · rfl

end State

namespace Operation

/-- Operations start in the same way. -/
theorem start_through (h : env.observer.TracksFrames o f) (w : World ω σ)
    (op : Operation) :
    op.start (env.watchedBy o) (w.through f) = (op.start env w).through f := by
  cases op with
  | invoke function args =>
      dsimp only [start, Env.watchedBy]
      cases env.module.functionType? function with
      | none => rfl
      | some type =>
          dsimp only
          by_cases himported : function < env.module.importedFunctions
          · rw [if_pos himported, if_pos himported]
            have hcall := World.callHost_through env o f w function args
            dsimp only [Env.watchedBy] at hcall
            rw [hcall]
            rcases w.callHost env function args with ⟨t | values, w'⟩ <;> rfl
          · rw [if_neg himported, if_neg himported]
            exact World.enter_through h w _
  | readGlobal index =>
      have hstore : (w.through f).store = w.store := rfl
      rw [start, start, hstore]
      cases w.store.readGlobal index with
      | error t => rfl
      | ok found =>
          cases found with
          | some v => rfl
          | none =>
              exact World.enter_through h (w.mapStore (·.setGlobal index .evaluating)) _

/-- A whole operation under the one observer is read off the operation under the other.
-/
theorem perform_through (h : env.observer.Mirrors o f) (fuel : Nat) (w : World ω σ)
    (op : Operation) :
    op.perform (env.watchedBy o) fuel (w.through f) =
      ((op.perform env fuel w).1, (op.perform env fuel w).2.through f) := by
  rw [perform_eq, perform_eq, start_through h.toTracksFrames]
  rcases op.start env w with s | ⟨e | values, w'⟩
  · dsimp only [Outcome.through]
    rw [State.run_through h]
  · rfl
  · rfl

end Operation

end WasmVm
