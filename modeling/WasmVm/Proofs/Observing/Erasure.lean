/-
Runs with the observer left out.  Whatever a step does besides showing an instruction
to the observer, it does the same way when nobody watches.
-/
import WasmVm.Proofs.Observing.Projection

namespace WasmVm

variable {ω σ : Type}

/-- The same setting with nobody watching. -/
def Env.unwatched (env : Env ω σ) : Env ω Unit :=
  { module := env.module, hosts := env.hosts, observer := .silent,
    maxDepth := env.maxDepth }

/-- All but the observer's state. -/
def World.unwatched (w : World ω σ) : World ω Unit :=
  ⟨w.store, w.host, ()⟩

def State.unwatched (s : State ω σ) : State ω Unit :=
  ⟨s.calls, s.world.unwatched⟩

def Outcome.unwatched : Outcome ω σ → Outcome ω Unit
  | running s => .running s.unwatched
  | done result w => .done result w.unwatched

theorem Outcome.unwatched_eq (outcome : Outcome ω σ) :
    outcome.unwatched = outcome.through fun _ => () := by
  cases outcome <;> rfl

/-- Once an observer's state is forgotten, it does about frames what nobody does. -/
theorem Observer.tracksFrames_silent (o : Observer σ) :
    o.TracksFrames (Observer.silent : Observer Unit) fun _ => () :=
  ⟨fun _ _ => rfl, fun _ _ => rfl⟩

namespace State

variable (env : Env ω σ) (s : State ω σ)

/-- The observer lets the next instruction pass, if there is one. -/
def Permitted : Prop :=
  ∀ node f, s.calls.top.fetch? = some (node, f) →
    (env.observer.step (s.view node f) s.world.watch).1 = .ok ()

/-- The next step goes well and leads to `s'`, where `f` is the running frame, over the
same callers, and `store` what the instance has. -/
structure GoesTo (f : Frame) (store : Store) (s' : State ω σ) : Prop where
  runs : s.advance env = .running s'
  calls : s'.calls = s.calls.setTop f
  store : s'.world.store = store

/-- The next step traps for this cause, and the instance has what it had before. -/
def Traps (cause : Trap) : Prop :=
  ∃ site w, s.advance env = .done (.error (.trap cause site)) w ∧
    w.store = s.world.store

variable {env s}

/-- An instruction that is permitted traps, or it runs and asks for an action. -/
theorem advance_of_permitted (h : s.Permitted env) {node : Node} {f : Frame}
    (hfetch : s.calls.top.fetch? = some (node, f)) :
    ∃ w : World ω σ, w.store = s.world.store ∧ s.advance env =
      match f.execute env.module s.world.store node with
      | .error t => w.trapAt env.module (f.point node) t
      | .ok (g, action) => perform env ⟨s.calls.setTop g, w⟩ (f.point node) action := by
  rcases fetch_cases env hfetch with ⟨e, watch, hstep, -⟩ |
    ⟨watch, -, ⟨t, hexecute, hadvance, -⟩ | ⟨g, action, hexecute, hadvance, -⟩⟩
  · have hok := h node f hfetch
    rw [hstep] at hok
    cases hok
  · exact ⟨⟨s.world.store, s.world.host, watch⟩, rfl, by rw [hadvance, hexecute]⟩
  · exact ⟨⟨s.world.store, s.world.host, watch⟩, rfl, by rw [hadvance, hexecute]⟩

theorem actionEvents_unwatched (node : Node) (after : Frame) (action : Action) :
    s.unwatched.actionEvents env.unwatched node after action =
      s.actionEvents env node after action := by
  cases action <;> rfl

/-- A step that the observer permits is the step that happens when nobody watches. -/
theorem advance_unwatched (h : s.Permitted env) :
    s.unwatched.advance env.unwatched = (s.advance env).unwatched ∧
      s.unwatched.events env.unwatched = s.events env := by
  constructor
  · rw [Outcome.unwatched_eq]
    exact advance_through env.observer.tracksFrames_silent fun node g hfetch =>
      Prod.ext (h node g hfetch).symm rfl
  · rcases s.calls.top.scopes_cases with hend | ⟨scope, outer, hscopes, hrest⟩ |
      ⟨node, f, hfetch⟩
    · have hend' : s.unwatched.calls.top.scopes = [] := hend
      rw [events, events, Frame.fetch?_of_finished hend, Frame.fetch?_of_finished hend']
      rfl
    · have hscopes' : s.unwatched.calls.top.scopes = scope :: outer := hscopes
      rw [events, events, Frame.fetch?_of_empty hscopes hrest,
        Frame.fetch?_of_empty hscopes' hrest]
      rfl
    · have hfetch' : s.unwatched.calls.top.fetch? = some (node, f) := hfetch
      rw [events, events, hfetch, hfetch']
      dsimp only
      rw [h node f hfetch]
      cases hexecute : f.execute env.module s.world.store node with
      | error t => simp only [Env.unwatched, unwatched, World.unwatched,
          Observer.silent, hexecute]
      | ok result =>
          simp only [Env.unwatched, unwatched, World.unwatched,
            Observer.silent, hexecute]
          rw [← actionEvents_unwatched]
          rfl

/-- The observer has permitted a step that has been taken. -/
theorem permitted_of_running {s' : State ω σ} (h : s.advance env = .running s') :
    s.Permitted env := by
  intro node f hfetch
  rcases fetch_cases env hfetch with ⟨e, watch, -, hadvance, -⟩ | ⟨watch, hstep, -⟩
  · cases h.symm.trans hadvance
  · rw [hstep]

end State

/-- Operations start in the same way. -/
theorem Operation.start_unwatched (env : Env ω σ) (w : World ω σ) (op : Operation) :
    op.start env.unwatched w.unwatched = (op.start env w).unwatched ∧
      op.startEvents env.unwatched w.unwatched = op.startEvents env w := by
  refine ⟨?_, by cases op <;> rfl⟩
  rw [Outcome.unwatched_eq]
  exact op.start_through env.observer.tracksFrames_silent w

end WasmVm
