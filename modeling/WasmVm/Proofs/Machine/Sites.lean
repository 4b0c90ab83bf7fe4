/-
Where traps come from.  A run fails in its running frame, by the next instruction or at
the end of the frame, and whatever is raised there is charged to that place and leaves
the run as it is, however many callers wait.
-/
import WasmVm.Proofs.Observing.Hooks

namespace WasmVm

variable {ω σ : Type}

/-! ### Wording -/

/-- The site of a trap stands behind its text. -/
theorem Error.text_trap (cause : Trap) (site : Site) :
    (trap cause (some site)).text = (trap cause none).text ++ site.text := by
  change _ ++ _ ++ site.text = _ ++ _ ++ "" ++ site.text
  rw [String.append_empty]

/-- Charging a trap to a site adds the site behind its text. -/
theorem Error.text_chargedTo {e : Error} (h : e.isTrap = true) (site : Site) :
    (e.chargedTo site).text = e.text ++ site.text := by
  cases e with
  | format | structural => cases h
  | trap cause charged =>
      cases charged with
      | none => exact text_trap cause site
      | some inner =>
          refine (text_trap _ site).trans (congrArg (· ++ site.text) ?_)
          change _ ++ (cause.message ++ inner.text) ++ "" = _ ++
            cause.message ++ inner.text
          rw [String.append_empty]
          exact String.append_assoc.symm

/-- No other error is charged to anything. -/
theorem Error.chargedTo_of_not_isTrap {e : Error} (h : e.isTrap = false) (site : Site) :
    e.chargedTo site = e := by
  cases e with
  | format | structural => rfl
  | trap => cases h

namespace State

variable {env : Env ω σ} {s : State ω σ}

/-! ### Failing steps -/

/-- The place in the running frame: its next instruction, with the scopes open around
it, or its end. -/
def point? (s : State ω σ) : Option Point :=
  match s.calls.top.fetch? with
  | some (node, _) => some ⟨s.calls.top.owner, node.opcode, s.calls.top.scopes.length⟩
  | none =>
    match s.calls.top.scopes with
    | [] => some ⟨s.calls.top.owner, .endScope, 0⟩
    | _ :: _ => none

theorem point?_of_fetch {node : Node} {f : Frame}
    (hfetch : s.calls.top.fetch? = some (node, f)) :
    s.point? = some (f.point node) := by
  rw [point?, hfetch]
  obtain ⟨scope, outer, rest, hscopes, -, rfl⟩ := Frame.fetch?_eq_some hfetch
  simp [Frame.point, hscopes]

theorem point?_of_finished (hend : s.calls.top.scopes = []) :
    s.point? = some ⟨s.calls.top.owner, .endScope, 0⟩ := by
  rw [point?, Frame.fetch?_of_finished hend, hend]

/-- What an instruction asks for cannot be had: its callee has no body, there are too
many frames for it, or the host function fails. -/
inductive Refuses (env : Env ω σ) (s : State ω σ) : Action → Trap → Prop
  | noBody {function args t}
      (h : Frame.ofFunction env.module (.function function) function args
        ((env.module.functionType? function).map (·.results.length)) = .error t) :
      Refuses env s (.call function args) t
  | noInitializer {index t} (h : Frame.ofGlobal env.module index = .error t) :
      Refuses env s (.startGlobal index) t
  | tooDeep {action callee} (h : Provides env.module action callee)
      (hfull : env.maxDepth ≤ s.calls.depth) :
      Refuses env s action (.callDepth env.maxDepth)
  | host {function args t} (h : (s.world.callHost env function args).1 = .error t) :
      Refuses env s (.callHost function args) t

/-- What the next step raises, as it is before it is charged to any place: the observer
refuses the instruction, the instruction traps or asks for what cannot be had, or the
frame ends with too few values. -/
inductive Raises (env : Env ω σ) (s : State ω σ) : Error → Prop
  | refused {node f e watch} (hfetch : s.calls.top.fetch? = some (node, f))
      (hstep : env.observer.step (s.view node f) s.world.watch = (.error e, watch)) :
      Raises env s e
  | trapped {node f watch t} (hfetch : s.calls.top.fetch? = some (node, f))
      (hstep : env.observer.step (s.view node f) s.world.watch = (.ok (), watch))
      (hexecute : f.execute env.module s.world.store node = .error t) :
      Raises env s (.trap t none)
  | asked {node f watch g action t} (hfetch : s.calls.top.fetch? = some (node, f))
      (hstep : env.observer.step (s.view node f) s.world.watch = (.ok (), watch))
      (hexecute : f.execute env.module s.world.store node = .ok (g, action))
      (hrefuses : Refuses env ⟨s.calls.setTop g, ⟨s.world.store, s.world.host, watch⟩⟩
        action t) :
      Raises env s (.trap t none)
  | ended {t} (hend : s.calls.top.scopes = [])
      (hfinish : s.calls.top.finish = .error t) :
      Raises env s (.trap t none)

/-- The running frame is an initializer that ends and leaves no value. -/
structure EndsEmpty (s : State ω σ) (index : Nat) : Prop where
  ended : s.calls.top.scopes = []
  owner : s.calls.top.owner = .global index
  nothing : s.calls.top.finish = .ok []

variable {p : Point} {result : Except Error (List Value)} {w : World ω σ}

theorem push_done {callee : Except Trap Frame}
    (h : push env s p callee = .done result w) :
    w.watch = s.world.watch ∧
      ((∃ t, callee = .error t ∧ result = .error (.trap t (some (p.site env.module)))) ∨
        ∃ f, callee = .ok f ∧ env.maxDepth ≤ s.calls.depth ∧
          result = .error (.trap (.callDepth env.maxDepth)
            (some (p.site env.module)))) := by
  unfold push at h
  split at h
  · next t =>
      cases h
      exact ⟨rfl, .inl ⟨t, rfl, rfl⟩⟩
  · next f =>
      split at h
      · next hfull =>
          cases h
          exact ⟨rfl, .inr ⟨f, rfl, hfull, rfl⟩⟩
      · cases h

/-- If the run ends with what an instruction asks for, then because that is refused. -/
theorem perform_done {action : Action} (h : perform env s p action = .done result w) :
    w.watch = s.world.watch ∧ ∃ t, Refuses env s action t ∧
      result = .error (.trap t (some (p.site env.module))) := by
  cases action with
  | proceed | setGlobal | write | grow | dropSegment => cases h
  | startGlobal index =>
      obtain ⟨hwatch, ⟨t, hframe, hresult⟩ | ⟨f, hframe, hfull, hresult⟩⟩ := push_done h
      · exact ⟨hwatch, t, .noInitializer hframe, hresult⟩
      · exact ⟨hwatch, _, .tooDeep (.initializer hframe) hfull, hresult⟩
  | call function args =>
      obtain ⟨hwatch, ⟨t, hframe, hresult⟩ | ⟨f, hframe, hfull, hresult⟩⟩ := push_done h
      · exact ⟨hwatch, t, .noBody hframe, hresult⟩
      · exact ⟨hwatch, _, .tooDeep (.function hframe) hfull, hresult⟩
  | callHost function args =>
      have hwatch := s.world.watch_callHost env function args
      unfold perform at h
      dsimp only at h
      split at h
      · next t world hreply =>
          cases h
          rw [hreply] at hwatch
          exact ⟨hwatch, t, .host (congrArg Prod.fst hreply), rfl⟩
      · cases h

theorem handOver_done {calls : CallStack} {world : World ω σ}
    {values pushed : List Value}
    (h : handOver calls world values pushed = .done result w) :
    calls.callers = [] ∧ result = .ok values ∧ w = world := by
  unfold handOver at h
  split at h
  · next hpop =>
      cases h
      refine ⟨?_, rfl, rfl⟩
      cases hcallers : calls.callers with
      | nil => rfl
      | cons f callers =>
          obtain ⟨below, hsome, -⟩ := CallStack.pop?_eq_some hcallers
          cases hpop.symm.trans hsome
  · cases h

/-- How the end of a frame can end the run: it has too few values, it leaves a global
without one, or nobody waits for it. -/
theorem finish_done (h : finish env s = .done result w) :
    w.watch = env.observer.leave s.calls.top.owner s.world.watch ∧
      ((∃ t, s.calls.top.finish = .error t ∧ result = .error (.trap t
          (some (Point.site ⟨s.calls.top.owner, .endScope, 0⟩ env.module)))) ∨
        (∃ index, s.calls.top.owner = .global index ∧ s.calls.top.finish = .ok [] ∧
          result = .error (.trap (.initializerEmpty index) none)) ∨
        ∃ values, s.calls.top.finish = .ok values ∧ s.calls.callers = [] ∧
          result = .ok values ∧
          ∀ index, s.calls.top.owner = .global index → values ≠ []) := by
  unfold finish at h
  dsimp only at h
  split at h
  · next t hfinish =>
      cases h
      exact ⟨rfl, .inl ⟨t, hfinish, rfl⟩⟩
  · next values hfinish =>
      cases howner : s.calls.top.owner with
      | function | constant =>
          rw [howner] at h
          obtain ⟨hcallers, hresult, rfl⟩ := handOver_done h
          exact ⟨rfl, .inr (.inr ⟨values, hfinish, hcallers, hresult, nofun⟩)⟩
      | global index =>
          rw [howner] at h
          cases values with
          | nil =>
              cases h
              exact ⟨rfl, .inr (.inl ⟨index, rfl, hfinish, rfl⟩)⟩
          | cons v values =>
              obtain ⟨hcallers, hresult, rfl⟩ := handOver_done h
              exact ⟨rfl, .inr (.inr ⟨_, hfinish, hcallers, hresult, fun _ _ => nofun⟩)⟩

/-- A step that ends the run has an instruction shown, or it leaves the frame that has
ended. -/
theorem advance_done (h : s.advance env = .done result w) :
    (∃ node f raised, s.calls.top.fetch? = some (node, f) ∧
      w.watch = env.observer.after s.world.watch (.step (s.view node f)) ∧
      s.Raises env raised ∧
      result = .error (raised.chargedTo ((f.point node).site env.module))) ∨
    s.calls.top.scopes = [] ∧ finish env s = .done result w := by
  rcases s.calls.top.scopes_cases with hend | ⟨scope, outer, hscopes, hrest⟩ |
    ⟨node, f, hfetch⟩
  · rw [advance_of_finished hend] at h
    exact .inr ⟨hend, h⟩
  · rw [advance_of_empty hscopes hrest] at h
    cases h
  · left
    rcases fetch_cases env hfetch with ⟨e, watch, hstep, hadvance, -⟩ |
      ⟨watch, hstep, ⟨t, hexecute, hadvance, -⟩ | ⟨g, action, hexecute, hadvance, -⟩⟩
    · cases h.symm.trans hadvance
      exact ⟨node, f, e, hfetch, (congrArg Prod.snd hstep).symm,
        .refused hfetch hstep, rfl⟩
    · cases h.symm.trans hadvance
      exact ⟨node, f, _, hfetch, (congrArg Prod.snd hstep).symm,
        .trapped hfetch hstep hexecute, rfl⟩
    · obtain ⟨hwatch, t, hrefuses, rfl⟩ := perform_done (hadvance.symm.trans h)
      exact ⟨node, f, _, hfetch, hwatch.trans (congrArg Prod.snd hstep).symm,
        .asked hfetch hstep hexecute hrefuses, rfl⟩

/-- A step that returns is the end of the only frame, which leaves a value if it is an
initializer. -/
theorem advance_returns {values : List Value}
    (h : s.advance env = .done (.ok values) w) :
    s.calls.top.scopes = [] ∧ s.calls.callers = [] ∧
      ∀ index, s.calls.top.owner = .global index → values ≠ [] := by
  rcases advance_done h with ⟨_, _, _, -, -, -, hresult⟩ | ⟨hend, hfinish⟩
  · cases hresult
  · obtain ⟨-, ⟨_, -, hresult⟩ | ⟨_, -, -, hresult⟩ | ⟨_, -, hcallers,
      hresult, hsome⟩⟩ :=
      finish_done hfinish
    · cases hresult
    · cases hresult
    · cases hresult
      exact ⟨hend, hcallers, hsome⟩

/-- A step that fails has raised what it fails with in the running frame, and charged
it to the place there; only the end of an initializer that leaves nothing is charged to
none. -/
theorem advance_fails {e : Error} (h : s.advance env = .done (.error e) w) :
    (∃ raised p, s.Raises env raised ∧ s.point? = some p ∧
      e = raised.chargedTo (p.site env.module)) ∨
    ∃ index, s.EndsEmpty index ∧ e = .trap (.initializerEmpty index) none := by
  rcases advance_done h with ⟨node, f, raised, hfetch, -, hraises, hresult⟩ |
    ⟨hend, hfinish⟩
  · exact .inl ⟨raised, _, hraises, point?_of_fetch hfetch, Except.error.inj hresult⟩
  · obtain ⟨-, ⟨t, hfinish, hresult⟩ | ⟨index, howner, hfinish, hresult⟩ |
      ⟨values, -, -, hresult, -⟩⟩ := finish_done hfinish
    · exact .inl ⟨_, _, .ended hend hfinish, point?_of_finished hend,
        Except.error.inj hresult⟩
    · exact .inr ⟨index, ⟨hend, howner, hfinish⟩, Except.error.inj hresult⟩
    · cases hresult

end State

/-! ### Runs -/

namespace Operation

variable {env : Env ω σ} {w : World ω σ} {op : Operation} {s t : State ω σ}

/-- What a run returns is enough for an answer. -/
theorem answer_of_returned {log : List Event} (hstart : op.start env w = .running s)
    (hruns : State.Runs env s log t) {values : List Value} {w' : World ω σ}
    (h : t.advance env = .done (.ok values) w') : ∃ given,
      op.answer (.ok values) = .ok given := by
  cases op with
  | invoke function args => exact ⟨values, rfl⟩
  | readGlobal index =>
      suffices hvalues : values ≠ [] by
        obtain ⟨v, rest, rfl⟩ := List.exists_cons_of_ne_nil hvalues
        exact ⟨[v], rfl⟩
      obtain ⟨-, hcallers, hsome⟩ := State.advance_returns h
      obtain ⟨hooks, -, hlast⟩ := runs_calls hstart hruns
      rw [State.owners_eq, hcallers] at hlast
      exact hsome index (Option.some.inj hlast)

/-- An operation whose run fails answers with what a step of the run fails with. -/
theorem perform_fails (hstart : op.start env w = .running s) {fuel : Nat} {e : Error}
    (h : (op.perform env fuel w).1 = .error (.error e)) :
    ∃ log t w', State.Runs env s log t ∧ t.advance env = .done (.error e) w' ∧
      op.perform env fuel w = (.error (.error e), w'.mapStore Store.settle) := by
  rw [perform_eq, hstart] at h ⊢
  dsimp only at h ⊢
  obtain ⟨log, t, hruns, hcut | ⟨values, w', hadvance, hreturned⟩ | ⟨e', w',
    hadvance, hfailed⟩⟩ :=
    State.run_ends env s fuel
  · rw [hcut] at h
    cases op <;> cases h
  · obtain ⟨given, hanswer⟩ := answer_of_returned hstart hruns hadvance
    rw [hreturned] at h
    cases hanswer.symm.trans h
  · rw [hfailed] at h ⊢
    obtain rfl : e' = e := by cases op <;> cases h <;> rfl
    refine ⟨log, t, w', hruns, hadvance, ?_⟩
    cases op <;> rfl

end Operation

/-- Whatever fails while guest code runs has been raised in the running frame by the
step that ends the run.  A trap leaves the run with its own text and behind it the
place in that frame, once: the opcode, the owner and the open scopes of the
instruction, or the end of the frame.  The frames below add nothing.  Only the trap
about an initializer that ends without leaving a value has no place in it. -/
theorem traps_charged_once (env : Env ω σ) (w : World ω σ)
    (op : Operation) {s : State ω σ}
    (hstart : op.start env w = .running s) {fuel : Nat} {e : Error}
    (h : (op.perform env fuel w).1 = .error (.error e)) :
    ∃ log t, State.Runs env s log t ∧
      ((∃ raised p, t.Raises env raised ∧ t.point? = some p ∧ e.isTrap = raised.isTrap ∧
          (raised.isTrap = true → e.text = raised.text ++ (p.site env.module).text) ∧
          (raised.isTrap = false → e = raised)) ∨
        ∃ index, t.EndsEmpty index ∧ e = .trap (.initializerEmpty index) none) := by
  obtain ⟨log, t, w', hruns, hadvance, -⟩ := Operation.perform_fails hstart h
  refine ⟨log, t, hruns, ?_⟩
  rcases State.advance_fails hadvance with ⟨raised, p, hraises, hpoint, rfl⟩ | hempty
  · refine .inl ⟨raised, p, hraises, hpoint, ?_, fun htrap =>
      Error.text_chargedTo htrap _,
      fun hother => Error.chargedTo_of_not_isTrap hother _⟩
    cases raised with
    | format | structural => rfl
    | trap cause charged => cases charged <;> rfl
  · exact .inr hempty

namespace SitesWitness

/-- A function that traps, one that calls it, and a global whose initializer leaves
nothing. -/
def module : Module where
  types := #[⟨[], []⟩]
  functions := #[0, 0]
  globals := #[⟨.i32, false, [0x0b], .scope 0 .block (.value .i32) [] none⟩]
  codes := #[
    ⟨#[], 0, .scope 0 .block (.func 0) [.plain 1 .unreachable] none⟩,
    ⟨#[], 0, .scope 0 .block (.func 0) [.plain 1 (.call ⟨0, 0, 0, 0, none⟩)] none⟩]

def env : Env Unit Unit :=
  { module, hosts := #[], observer := .silent, maxDepth := 2 }

def world : World Unit Unit :=
  ⟨.ofModule module, (), ()⟩

def charged : Error :=
  .trap .unreachable (some ⟨.unreachable, "func[0]", 1⟩)

/-- The trap is charged to the callee, and the caller adds nothing. -/
theorem callee_is_charged :
    ((Operation.invoke 1 []).perform env 2 world).1 = .error (.error charged) ∧
      ∃ log s t raised p, State.Runs env s log t ∧ t.Raises env raised ∧
        t.point? = some p ∧ charged.text = raised.text ++ (p.site module).text := by
  have hperform : ((Operation.invoke 1 []).perform env 2 world).1 = .error
      (.error charged) := by
    with_unfolding_all rfl
  have hstart : ∃ s, (Operation.invoke 1 []).start env world = .running s :=
    ⟨_, by with_unfolding_all rfl⟩
  obtain ⟨s, hstart⟩ := hstart
  obtain ⟨log, t, hruns, ⟨raised, p, hraises, hpoint, htrap, htext,
    -⟩ | ⟨index, -, hempty⟩⟩ :=
    traps_charged_once env world (.invoke 1 []) hstart hperform
  · exact ⟨hperform, log, s, t, raised, p, hruns, hraises, hpoint, htext htrap.symm⟩
  · cases hempty

/-- The read of the global ends in a trap whose text has no place behind it. -/
theorem empty_initializer_is_not_charged : ∃ e,
    ((Operation.readGlobal 0).perform env 2 world).1 = .error (.error e) ∧
    e.isTrap = true ∧
      ∀ (raised : Error) (site : Site), e.text ≠ raised.text ++ site.text := by
  refine ⟨.trap (.initializerEmpty 0) none, by with_unfolding_all rfl, rfl,
    fun raised site h => ?_⟩
  -- The one text ends in the word "value", the other in a bracket.
  have hlast : (raised.text ++ site.text).toList.getLast? = some ')' := by
    obtain ⟨front, hfront⟩ : ∃ front, site.text = front ++ ")" := ⟨_, rfl⟩
    have hbracket : (")" : String).toList = [')'] := rfl
    rw [hfront, String.toList_append, String.toList_append,
      hbracket, ← List.append_assoc, List.getLast?_concat]
  rw [← h] at hlast
  have hvalue : (Error.trap (.initializerEmpty 0) none).text =
      "Trap (uninitialized global): initializer of global 0 left no value" := by
    with_unfolding_all rfl
  rw [hvalue] at hlast
  exact absurd hlast (by decide)

end SitesWitness

end WasmVm
