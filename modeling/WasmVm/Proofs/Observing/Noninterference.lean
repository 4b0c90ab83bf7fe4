/-
Watching does not interfere.  An observer that never refuses an instruction leaves
no trace in what a run does, and one that does refuse stops the run where it would
have been without it.
-/
import WasmVm.Debugger.Session
import WasmVm.Proofs.Observing.Erasure

namespace WasmVm

variable {ω σ : Type}

/-- The observer refuses nothing. -/
def Observer.Permissive (observer : Observer σ) : Prop :=
  ∀ view watch, (observer.step view watch).1 = .ok ()

/-- The controller never answers that it wants to quit. -/
def Controller.NeverQuits {κ : Type} (c : Controller κ) : Prop :=
  ∀ line screen k, (c.command line screen k).1 ≠ .quit

/-- A debugger stops a run only if its controller says so. -/
theorem Debugger.observer_permissive {κ : Type} (m : Module) {c : Controller κ}
    (hc : c.NeverQuits) : (Debugger.observer m c).Permissive := by
  have hask : ∀ (line : Nat) (v : View) (d : Debugger κ),
      (d.ask m c line v).1 = .ok () := by
    intro line v d
    fun_induction Debugger.ask m c line v d with
    | case1 d target controller hcommand ih => exact ih
    | case6 d controller hcommand =>
        exact absurd (congrArg Prod.fst hcommand) (hc _ _ _)
    | _ => rfl
  intro v d
  simp only [Debugger.observer, Debugger.step]
  split
  · split
    · rfl
    · split
      · exact hask ..
      · rfl
  · rfl

/-- Whether the event is the fetch of an instruction. -/
def Event.isFetch : Event → Bool
  | fetched _ => true
  | _ => false

namespace State

variable {env : Env ω σ} {s t : State ω σ} {log : List Event}

theorem permitted_of_permissive (h : env.observer.Permissive) (s : State ω σ) :
    s.Permitted env :=
  fun _ _ _ => h _ _

/-! ### Whole runs -/

/-- Under an observer that refuses nothing a run is what it is without it. -/
theorem run_unwatched (h : env.observer.Permissive) (fuel : Nat) (s : State ω σ) :
    s.unwatched.run env.unwatched fuel = ((s.run env fuel).1,
      (s.run env fuel).2.unwatched) ∧ s.unwatched.trace env.unwatched fuel =
        s.trace env fuel := by
  induction fuel generalizing s with
  | zero => exact ⟨rfl, rfl⟩
  | succ fuel ih =>
      obtain ⟨hadvance, hevents⟩ :=
        advance_unwatched (fun node f _ => h (s.view node f) s.world.watch)
      rw [run, run, trace, trace, hadvance, hevents]
      rcases s.advance env with s' | ⟨e | values, w⟩
      · exact ⟨(ih s').1, congrArg _ (ih s').2⟩
      · exact ⟨rfl, rfl⟩
      · exact ⟨rfl, rfl⟩

namespace Runs

/-- The steps that a run has taken under an observer are those it takes without it. -/
theorem unwatched (h : Runs env s log t) :
    Runs env.unwatched s.unwatched log t.unwatched := by
  induction h with
  | start => exact .start
  | step _ hadvance ih =>
      obtain ⟨hadvance', hevents⟩ := advance_unwatched (permitted_of_running hadvance)
      rw [← hevents]
      exact ih.step (hadvance'.trans (congrArg Outcome.unwatched hadvance))

/-- With enough fuel a run gets through the steps it has taken. -/
theorem run_eq (h : Runs env s log t) :
    ∃ n, ∀ fuel, s.run env (n + fuel) = t.run env fuel ∧
      s.trace env (n + fuel) = log ++ t.trace env fuel := by
  induction h with
  | start => exact ⟨0, fun fuel => by simp⟩
  | @step events s' s'' _ hadvance ih =>
      obtain ⟨n, hn⟩ := ih
      refine ⟨n + 1, fun fuel => ?_⟩
      have hnext := hn (fuel + 1)
      rw [run, trace, hadvance] at hnext
      rw [show n + 1 + fuel = n + (fuel + 1) by omega, hnext.1, hnext.2]
      exact ⟨rfl, by simp⟩

/-- A run has not moved, or it has taken a first step. -/
theorem first (h : Runs env s log t) :
    (t = s ∧ log = []) ∨ ∃ s' rest, s.advance env = .running s' ∧
      log = s.events env ++ rest ∧ Runs env s' rest t := by
  induction h with
  | start => exact .inl ⟨rfl, rfl⟩
  | @step events s' s'' _ hadvance ih =>
      rcases ih with ⟨rfl, rfl⟩ | ⟨s₁, rest, hfirst, rfl, hrest⟩
      · exact .inr ⟨s'', [], hadvance, by simp, .start⟩
      · exact .inr ⟨s₁, _, hfirst, by simp, hrest.step hadvance⟩

/-- Of two stretches of one run, one continues the other. -/
theorem linear {log' : List Event} {t' : State ω σ} (h : Runs env s log t)
    (h' : Runs env s log' t') :
    (∃ more, Runs env t more t' ∧ log' = log ++ more) ∨
      ∃ more, Runs env t' more t ∧ log = log' ++ more := by
  induction h' with
  | start => exact .inr ⟨log, h, rfl⟩
  | @step events s' s'' hpast hadvance ih =>
      rcases ih with ⟨more, hmore, rfl⟩ | ⟨more, hmore, rfl⟩
      · exact .inl ⟨_, hmore.step hadvance, by simp⟩
      · rcases hmore.first with ⟨rfl, rfl⟩ | ⟨s₁, rest, hfirst, rfl, hrest⟩
        · exact .inl ⟨_, Runs.start.step hadvance, by simp⟩
        · obtain rfl : s₁ = s'' := by simpa [hfirst] using hadvance
          exact .inr ⟨rest, hrest, by simp⟩

end Runs

/-- A step before an instruction fetches it. -/
theorem fetched_mem_events (hfetch : s.calls.top.fetch?.isSome) {s' : State ω σ}
    (hadvance : s.advance env = .running s') :
    0 < (s.events env).countP Event.isFetch := by
  obtain ⟨⟨node, f⟩, hfetch⟩ := Option.isSome_iff_exists.mp hfetch
  rcases fetch_cases env hfetch with ⟨e, watch, -, hrefused, -⟩ |
    ⟨watch, -, ⟨t, -, -, hevents⟩ | ⟨g, action, -, -, hevents⟩⟩
  · cases hadvance.symm.trans hrefused
  · simp [hevents, Event.isFetch]
  · simp [hevents, Event.isFetch]

/-- The observer refuses the next instruction. -/
def Refused (env : Env ω σ) (s : State ω σ) (e : Error) (watch : σ) : Prop :=
  ∃ node f error, s.calls.top.fetch? = some (node, f) ∧
    env.observer.step (s.view node f) s.world.watch = (.error error, watch) ∧
    e = error.chargedTo ((f.point node).site env.module)

/-- The run then ends, with initializers that were under way to be run again. -/
theorem Refused.run_eq {e : Error} {watch : σ}
    (h : s.Refused env e watch) (fuel : Nat) :
    s.run env (fuel + 1) = (.error (.error e),
      ⟨s.world.store.settle, s.world.host, watch⟩) ∧ s.trace env (fuel + 1) = [] := by
  obtain ⟨node, f, error, hfetch, hstep, rfl⟩ := h
  rcases fetch_cases env hfetch with ⟨e, watch', hstep', hadvance, hevents⟩ |
    ⟨watch', hstep', -⟩
  · cases hstep.symm.trans hstep'
    rw [run, trace, hadvance, hevents]
    exact ⟨rfl, rfl⟩
  · cases hstep.symm.trans hstep'

end State

/-! ### Operations -/

namespace Operation

/-- An operation's run just before its `k`-th instruction, counted from one, and the
events up to then. -/
def Before (env : Env ω σ) (w : World ω σ) (op : Operation) (k : Nat) (log : List Event)
    (t : State ω σ) : Prop :=
  ∃ s events, op.start env w = .running s ∧ State.Runs env s events t ∧
    log = op.startEvents env w ++ events ∧ t.calls.top.fetch?.isSome ∧
    events.countP Event.isFetch + 1 = k

variable {env : Env ω σ} {w : World ω σ} {op : Operation} {k : Nat}
  {log log' : List Event}
  {t t' : State ω σ}

/-- There is only one such moment. -/
theorem Before.unique (h : op.Before env w k log t) (h' : op.Before env w k log' t') :
    log = log' ∧ t = t' := by
  obtain ⟨s, events, hstart, hruns, rfl, hfetch, hk⟩ := h
  obtain ⟨s', events', hstart', hruns', rfl, hfetch', hk'⟩ := h'
  obtain rfl : s = s' := by simpa [hstart] using hstart'
  -- A stretch between the two would fetch one more instruction.
  have hstays : ∀ {u u' : State ω σ} {more : List Event}, u.calls.top.fetch?.isSome →
      State.Runs env u more u' → more.countP Event.isFetch = 0 →
        u' = u ∧ more = [] := by
    intro u u' more hfetch hmore hcount
    rcases hmore.first with hstill | ⟨u₁, rest, hadvance, rfl, -⟩
    · exact hstill
    · have hpos := State.fetched_mem_events hfetch hadvance
      rw [List.countP_append] at hcount
      omega
  rcases hruns.linear hruns' with ⟨more, hmore, rfl⟩ | ⟨more, hmore, rfl⟩
  · rw [List.countP_append] at hk'
    obtain ⟨rfl, rfl⟩ := hstays hfetch hmore (by omega)
    simp
  · rw [List.countP_append] at hk
    obtain ⟨rfl, rfl⟩ := hstays hfetch' hmore (by omega)
    simp

/-- It is there without the observer too. -/
theorem Before.unwatched (h : op.Before env w k log t) :
    op.Before env.unwatched w.unwatched k log t.unwatched := by
  obtain ⟨s, events, hstart, hruns, rfl, hfetch, hk⟩ := h
  obtain ⟨hstart', hevents⟩ := op.start_unwatched env w
  rw [hstart] at hstart'
  exact ⟨s.unwatched, events, hstart', hruns.unwatched, by rw [hevents], hfetch, hk⟩

/-- Under an observer that refuses nothing an operation is what it is without it. -/
theorem perform_unwatched (h : env.observer.Permissive) (fuel : Nat) :
    op.perform env.unwatched fuel w.unwatched =
        ((op.perform env fuel w).1, (op.perform env fuel w).2.unwatched) ∧
      op.trace env.unwatched fuel w.unwatched = op.trace env fuel w := by
  obtain ⟨hstart, hevents⟩ := op.start_unwatched env w
  rw [perform_eq, perform_eq, trace, trace, hstart, hevents]
  rcases op.start env w with s | ⟨e | values, w'⟩
  · obtain ⟨hrun, htrace⟩ := s.run_unwatched h fuel
    exact ⟨by simp [Outcome.unwatched, hrun], by simp [Outcome.unwatched, htrace]⟩
  · exact ⟨rfl, rfl⟩
  · exact ⟨rfl, rfl⟩

/-- An operation that the observer stops ends with the observer's error. -/
theorem Before.perform_refused (h : op.Before env w k log t) {e : Error} {watch : σ}
    (hrefused : t.Refused env e watch) :
    ∃ n, ∀ fuel, n ≤ fuel →
      op.perform env fuel w =
        (.error (.error e), ⟨t.world.store.settle, t.world.host, watch⟩) ∧
      op.trace env fuel w = log := by
  obtain ⟨s, events, hstart, hruns, rfl, -⟩ := h
  obtain ⟨n, hn⟩ := hruns.run_eq
  refine ⟨n + 1, fun fuel hfuel => ?_⟩
  obtain ⟨left, rfl⟩ := Nat.exists_eq_add_of_le hfuel
  obtain ⟨hrun, htrace⟩ := hn (left + 1)
  obtain ⟨hend, hquiet⟩ := hrefused.run_eq left
  rw [hend] at hrun
  rw [hquiet, List.append_nil] at htrace
  rw [show n + 1 + left = n + (left + 1) by omega, perform_eq, trace, hstart]
  dsimp only
  rw [hrun, htrace]
  cases op <;> exact ⟨rfl, rfl⟩

end Operation

/-- Watching does not interfere.  Under an observer that refuses nothing, an operation
gives the same answer, leaves the same globals, memory and data segments and calls the
same host functions with the same arguments as when nobody watches; a debugger whose
controller never quits is such an observer, whatever its breakpoints.  (A controller is
whoever ends every pause; with one that flips breakpoints for ever at one instruction
the run would come to no next step.)  If the observer refuses an instruction, the first
time at the `k`-th that it is shown, the operation ends with its error, and up to the
reset of the initializers that were under way everything is as in the unwatched run
just before its `k`-th instruction. -/
theorem observer_noninterference (env : Env ω σ) (w : World ω σ) (op : Operation) :
    (env.observer.Permissive → ∀ fuel,
      op.perform env.unwatched fuel w.unwatched =
          ((op.perform env fuel w).1, (op.perform env fuel w).2.unwatched) ∧
        op.trace env.unwatched fuel w.unwatched = op.trace env fuel w) ∧
    (∀ {κ : Type} (m : Module) (c : Controller κ), c.NeverQuits →
      (Debugger.observer m c).Permissive) ∧
    ∀ k log t e watch, op.Before env w k log t → t.Refused env e watch →
      (∃ n, ∀ fuel, n ≤ fuel →
        op.perform env fuel w =
            (.error (.error e), ⟨t.world.store.settle, t.world.host, watch⟩) ∧
          op.trace env fuel w = log) ∧
      op.Before env.unwatched w.unwatched k log t.unwatched ∧
      ∀ log' t', op.Before env.unwatched w.unwatched k log' t' →
        log' = log ∧ t'.world.store = t.world.store ∧ t'.world.host = t.world.host := by
  refine ⟨fun h fuel => Operation.perform_unwatched h fuel,
    fun m c hc => Debugger.observer_permissive m hc, ?_⟩
  intro k log t e watch hbefore hrefused
  refine ⟨hbefore.perform_refused hrefused, hbefore.unwatched,
    fun log' t' hbefore' => ?_⟩
  obtain ⟨rfl, rfl⟩ := hbefore'.unique hbefore.unwatched
  exact ⟨rfl, rfl, rfl⟩

namespace NoninterferenceWitness

/-- Sets a global and reads it. -/
def body : List Node :=
  [.plain 1 (.const (.i32 7)), .plain 2 (.globalSet 0),
    .plain 3 (.globalGet 0), .plain 4 .drop]

def setter : Module where
  types := #[⟨[], []⟩]
  functions := #[0]
  globals := #[⟨.i32, true, [0x41, 0x00, 0x0b],
    .scope 0 .block (.value .i32) [.plain 1 (.const (.i32 0))] none⟩]
  codes := #[⟨#[], 0, .scope 0 .block (.func 0) body none⟩]

/-- Lets so many instructions pass. -/
def countdown : Observer Nat where
  enter _ n := n
  leave _ n := n
  step _
    | 0 => (.error (.trap (.interrupted "enough") none), 0)
    | n + 1 => (.ok (), n)

def env : Env Unit Nat :=
  { module := setter, hosts := #[], observer := countdown, maxDepth := 1 }

def world (n : Nat) (g : GlobalState) : World Unit Nat :=
  ⟨⟨#[g], none, #[]⟩, (), n⟩

/-- The call of the function with the first `n` instructions behind it. -/
def reached (n watch : Nat) (stack : Stack) (g : GlobalState) : State Unit Nat :=
  ⟨.ofFrame ⟨.function 0, #[], stack, [⟨body.drop n, body, 0, 0, false⟩], some 0⟩,
    world watch g⟩

theorem before_third : (Operation.invoke 0 []).Before env (world 2 .pending) 3
    [.fetched (.plain 1 (.const (.i32 7))), .fetched (.plain 2 (.globalSet 0)),
      .set 0 (.i32 7) [.function 0]] (reached 2 0 [] (.ready (.i32 7))) := by
  have hfirst : (reached 0 2 [] .pending).advance env =
      .running (reached 1 1 [.i32 7] .pending) := by with_unfolding_all rfl
  have hsecond : (reached 1 1 [.i32 7] .pending).advance env =
      .running (reached 2 0 [] (.ready (.i32 7))) := by with_unfolding_all rfl
  have hruns := (State.Runs.start.step hfirst).step hsecond
  exact ⟨_, _, by with_unfolding_all rfl, hruns, by with_unfolding_all rfl, rfl, rfl⟩

/-- The third instruction is refused when the global has been set. -/
theorem countdown_refuses : ∃ n, ∀ fuel, n ≤ fuel →
    (Operation.invoke 0 []).perform env fuel (world 2 .pending) =
      (.error
        (.error (.trap (.interrupted "enough") (some ⟨.globalGet, "func[0]", 1⟩))),
        world 0 (.ready (.i32 7))) := by
  obtain ⟨-, -, hrefused⟩ := observer_noninterference env
    (world 2 .pending) (.invoke 0 [])
  obtain ⟨⟨n, hn⟩, -⟩ := hrefused 3 _ _ _ 0 before_third ⟨_, _, _, rfl, rfl, rfl⟩
  refine ⟨n, fun fuel hfuel => ?_⟩
  with_unfolding_all exact (hn fuel hfuel).1

end NoninterferenceWitness

end WasmVm
