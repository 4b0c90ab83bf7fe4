/-
Call events are well nested.  What has been entered and not left yet is what the frames
are of, at every instruction that is shown, and the hooks of an operation are one call,
or what there is of one.
-/
import WasmVm.Proofs.Machine.Depth
import WasmVm.Proofs.Machine.Sites

namespace WasmVm

variable {ω σ : Type}

/-! ### Sequences of hooks -/

/-- The owners entered and not left, once a hook has been called. -/
def Hook.track (entered : List Owner) : Hook → List Owner
  | .enter owner => owner :: entered
  | .leave _ => entered.tail
  | .step _ => entered

/-- The owners that have been entered and not been left yet, the last one first. -/
def unmatched (hooks : List Hook) : List Owner :=
  hooks.foldl Hook.track []

/-- Hooks of calls that have all been left, each by the name that was entered. -/
inductive Balanced : List Hook → Prop
  | nil : Balanced []
  | step {view rest} (h : Balanced rest) : Balanced (.step view :: rest)
  | call {owner inner rest} (hinner : Balanced inner) (hrest : Balanced rest) :
      Balanced (.enter owner :: inner ++ .leave owner :: rest)

theorem unmatched_append (hooks : List Hook) (hook : Hook) :
    unmatched (hooks ++ [hook]) = hook.track (unmatched hooks) := by
  simp [unmatched]

theorem Balanced.append {hooks more : List Hook} (h : Balanced hooks)
    (hmore : Balanced more) :
    Balanced (hooks ++ more) := by
  induction h with
  | nil => exact hmore
  | step _ ih => exact ih.step
  | @call owner inner rest hinner _ _ ih =>
      rw [List.append_assoc, List.cons_append]
      exact hinner.call ih

/-- What is missing from a call is that the frames entered are left, the last one
first. -/
inductive Pending : List Hook → List Owner → Prop
  | first {owner inner} (h : Balanced inner) : Pending (.enter owner :: inner) [owner]
  | deeper {hooks owners owner inner} (h : Pending hooks owners)
      (hinner : Balanced inner) :
      Pending (hooks ++ .enter owner :: inner) (owner :: owners)

namespace Pending

variable {hooks more : List Hook} {owners : List Owner} {owner caller : Owner}

theorem append (h : Pending hooks owners) (hmore : Balanced more) :
    Pending (hooks ++ more) owners := by
  cases h with
  | first hinner => exact first (hinner.append hmore)
  | deeper h hinner =>
      rw [List.append_assoc, List.cons_append]
      exact h.deeper (hinner.append hmore)

theorem leave (h : Pending hooks (owner :: caller :: owners)) :
    Pending (hooks ++ [.leave owner]) (caller :: owners) := by
  cases h with
  | deeper h hinner =>
      rw [List.append_assoc]
      exact h.append (.call hinner .nil)

theorem last (h : Pending hooks [owner]) :
    ∃ inner, Balanced inner ∧
      hooks ++ [.leave owner] = .enter owner :: inner ++ [.leave owner] := by
  cases h with
  | first hinner => exact ⟨_, hinner, rfl⟩
  | deeper h => cases h

/-- Once the frames have been left, all is balanced. -/
theorem balanced (h : Pending hooks owners) :
    Balanced (hooks ++ owners.map .leave) := by
  induction owners generalizing hooks with
  | nil => cases h
  | cons owner owners ih =>
      cases owners with
      | nil =>
          obtain ⟨inner, hinner, hcall⟩ := h.last
          rw [List.map_cons, List.map_nil, hcall]
          exact hinner.call .nil
      | cons caller owners =>
          have hleft := ih h.leave
          rwa [List.append_assoc] at hleft

end Pending

/-- The hook is called when it should be, after others. -/
def Hook.Fits (before : List Hook) : Hook → Prop
  | .enter _ => True
  | .leave owner => (unmatched before).head? = some owner
  | .step view => view.callStack = (view.calls.frames.map (·.owner)).reverse ∧
      view.callStack = (unmatched before).reverse ∧
      view.callStack.getLast? = some view.owner

/-- Every hook of the sequence is called when it should be. -/
def AllFit (hooks : List Hook) : Prop :=
  ∀ before hook after, hooks = before ++ hook :: after → hook.Fits before

theorem AllFit.append {hooks : List Hook} {hook : Hook} (h : AllFit hooks)
    (hhook : hook.Fits hooks) : AllFit (hooks ++ [hook]) := by
  intro before other after heq
  rcases List.eq_nil_or_concat after with rfl | ⟨after, last, rfl⟩
  · obtain ⟨rfl, hlast⟩ := List.append_inj' heq rfl
    obtain rfl := List.head_eq_of_cons_eq hlast
    exact hhook
  · rw [List.concat_eq_append, ← List.cons_append, ← List.append_assoc] at heq
    exact h before other after (List.append_inj' heq rfl).1

/-- The hooks of an operation so far, if frames of these owners are on the call stack.
-/
structure Recorded (hooks : List Hook) (owners : List Owner) : Prop where
  unmatched : unmatched hooks = owners
  pending : Pending hooks owners
  fit : AllFit hooks

namespace Recorded

variable {hooks more : List Hook} {start owners : List Owner}
  {owner : Owner} {view : View}

theorem first (owner : Owner) : Recorded [.enter owner] [owner] where
  unmatched := rfl
  pending := .first .nil
  fit := by
    have hnone : AllFit [] := fun before hook after h => by simp at h
    exact hnone.append (show (Hook.enter owner).Fits [] from trivial)

theorem step_fits (h : Recorded hooks owners) (hshows : view.Shows owners) :
    (Hook.step view).Fits hooks := by
  have hlist : view.callStack = owners.reverse := congrArg List.reverse hshows.owners
  refine ⟨?_, ?_, ?_⟩
  · rw [hlist, hshows.frames]
  · rw [hlist, h.unmatched]
  · rw [hlist, List.getLast?_reverse, ← hshows.frames]
    rfl

theorem leave_fits (h : Recorded hooks (owner :: owners)) :
    (Hook.leave owner).Fits hooks := by
  rw [Hook.Fits, h.unmatched]
  rfl

/-- Hooks called as the frames change keep the record. -/
theorem nests (h : Recorded hooks start) (hnests : Nests start more owners) :
    Recorded (hooks ++ more) owners := by
  induction hnests with
  | nil => rwa [List.append_nil]
  | @step more owners view _ hshows ih =>
      rw [← List.append_assoc]
      exact ⟨(unmatched_append _ _).trans ih.unmatched, ih.pending.append (.step .nil),
        ih.fit.append (ih.step_fits hshows)⟩
  | @enter more owners owner _ ih =>
      rw [← List.append_assoc]
      have hfits : (Hook.enter owner).Fits (hooks ++ more) := trivial
      refine ⟨?_, ih.pending.deeper .nil, ih.fit.append hfits⟩
      rw [unmatched_append, ih.unmatched]
      rfl
  | @leave more owner caller owners _ ih =>
      rw [← List.append_assoc]
      refine ⟨?_, ih.pending.leave, ih.fit.append ih.leave_fits⟩
      rw [unmatched_append, ih.unmatched]
      rfl

end Recorded

/-! ### Operations -/

section
variable {env : Env ω σ} {w : World ω σ} {op : Operation}

/-- The hooks written down so far are a record of the frames there are. -/
theorem State.Runs.recorded {s t : State ω (σ × List Hook)} {log : List Event}
    (hstart : op.start env.logging w.logging = .running s)
    (hruns : State.Runs env.logging s log t) :
    t.OwnersListed ∧ t.owners.getLast? = some op.owner ∧
    Recorded t.world.watch.2 t.owners := by
  obtain ⟨hlisted, howners, hwatch⟩ := Operation.start_calls hstart
  obtain ⟨hooks, ⟨hcalled, hlisted', hnests⟩, hlast⟩ :=
    Operation.runs_calls hstart hruns
  have hwritten : t.world.watch.2 = [.enter op.owner] ++ hooks := by
    have hfold := env.observer.logging_foldl s.world.watch hooks
    rw [hwatch] at hfold
    exact (congrArg Prod.snd (hcalled.trans (by rw [hwatch]; rfl))).trans hfold
  rw [hwritten]
  rw [howners] at hnests
  exact ⟨hlisted', hlast, (Recorded.first op.owner).nests hnests⟩

/-- Too many frames is not what a frame ends with. -/
theorem State.finish_not_exhausted {s : State ω σ} {t : Trap} {site : Option Site}
    {w' : World ω σ} (h : s.finish env = .done (.error (.trap t site)) w') :
    t.code ≠ .callStackExhausted := by
  obtain ⟨-, ⟨t', hfinish, hresult⟩ | ⟨index, -, -, hresult⟩ | ⟨values, -,
    -, hresult, -⟩⟩ :=
    State.finish_done h
  · cases hresult
    unfold Frame.finish at hfinish
    split at hfinish
    · cases hfinish
    · unfold Stack.popMany at hfinish
      split at hfinish
      · cases hfinish
        exact nofun
      · cases hfinish
  · cases hresult
    exact nofun
  · cases hresult

/-- The hook of a step that ends a run: an instruction is shown, or the frame that has
ended is left. -/
inductive State.LastHook (s : State ω σ) : Hook → Prop
  | shown {node f} (hfetch : s.calls.top.fetch? = some (node, f)) :
      LastHook s (.step (s.view node f))
  | left (hend : s.calls.top.scopes = []) : LastHook s (.leave s.calls.top.owner)

theorem State.advance_done_logging {t : State ω (σ × List Hook)}
    {result : Except Error (List Value)} {w' : World ω (σ × List Hook)}
    (h : t.advance env.logging = .done result w') :
    ∃ hook, w'.watch.2 = t.world.watch.2 ++ [hook] ∧ t.LastHook hook := by
  rcases State.advance_done h with ⟨node, f, raised, hfetch, hwatch, -, -⟩ |
    ⟨hend, hfinish⟩
  · refine ⟨_, ?_, .shown hfetch⟩
    rw [hwatch]
    exact env.observer.logging_after _ _
  · refine ⟨_, ?_, .left hend⟩
    rw [(State.finish_done hfinish).1]
    rfl

/-- With the hook of the last step the record is complete. -/
theorem Recorded.ends {hooks : List Hook} {s : State ω σ} {hook : Hook}
    (h : Recorded hooks s.owners) (hs : s.OwnersListed) (hlast : s.LastHook hook) :
    AllFit (hooks ++ [hook]) ∧ ∃ more, Balanced (hooks ++ [hook] ++ more) := by
  cases hlast with
  | @shown node f hfetch =>
      have hshown : Balanced [.step (s.view node f)] := .step .nil
      exact ⟨h.fit.append (h.step_fits (State.view_shows hs hfetch)), _,
        (h.pending.append hshown).balanced⟩
  | left =>
      have hleft := h.pending.balanced
      rw [State.owners_eq] at h hleft
      refine ⟨h.fit.append h.leave_fits, (s.calls.callers.map (·.owner)).map .leave, ?_⟩
      rw [List.append_assoc]
      exact hleft

/-- The hooks of a run that returns are one call. -/
theorem Recorded.returns {hooks : List Hook} {s : State ω σ}
    {hook : Hook} {owner : Owner}
    {values : List Value} {w' : World ω σ} (h : Recorded hooks s.owners)
    (hbottom : s.owners.getLast? = some owner)
    (hadvance : s.advance env = .done (.ok values) w') (hlast : s.LastHook hook) :
    ∃ inner, Balanced inner ∧ hooks ++ [hook] = .enter owner :: inner ++
      [.leave owner] := by
  obtain ⟨hend, hcallers, -⟩ := State.advance_returns hadvance
  cases hlast with
  | shown hfetch => cases (Frame.fetch?_of_finished hend).symm.trans hfetch
  | left =>
      have halone : s.owners = [s.calls.top.owner] := by
        rw [State.owners_eq, hcallers]
        rfl
      rw [halone] at h hbottom
      cases hbottom
      exact h.pending.last

/-- A run that is refused one more frame has an instruction shown last. -/
theorem State.LastHook.shown_of_exhausted {s : State ω σ} {hook : Hook}
    (h : s.LastHook hook) {t : Trap} {site : Option Site} {w' : World ω σ}
    (hadvance : s.advance env = .done (.error (.trap t site)) w')
    (hcode : t.code = .callStackExhausted) : ∃ view, hook = .step view := by
  cases h with
  | shown => exact ⟨_, rfl⟩
  | left hend =>
      rw [State.advance_of_finished hend] at hadvance
      exact absurd hcode (State.finish_not_exhausted hadvance)

/-- The hooks of an operation are those of its run so far, or until its last step. -/
theorem Operation.hooks_cases (env : Env ω σ) (w : World ω σ)
    (op : Operation) (fuel : Nat)
    {s : State ω (σ × List Hook)}
    (hstart : op.start env.logging w.logging = .running s) :
    ∃ log t, State.Runs env.logging s log t ∧
      (((op.perform env fuel w).1 = .error .outOfFuel ∧
          op.hooks env fuel w = t.world.watch.2) ∨
        ∃ result w' hook, t.advance env.logging = .done result w' ∧ t.LastHook hook ∧
          op.hooks env fuel w = t.world.watch.2 ++ [hook] ∧
          (op.perform env fuel w).1 = op.answer (result.mapError .error)) := by
  have hanswer := congrArg Prod.fst (op.perform_logging env fuel w)
  dsimp only at hanswer
  rw [hooks, hanswer, perform_eq, hstart]
  dsimp only
  obtain ⟨log, t, hruns, hcut | ⟨values, w', hadvance, hreturned⟩ | ⟨e, w',
    hadvance, hfailed⟩⟩ :=
    State.run_ends env.logging s fuel
  · rw [hcut]
    refine ⟨log, t, hruns, .inl ⟨?_, rfl⟩⟩
    cases op <;> rfl
  · obtain ⟨hook, hwritten, hlast⟩ := State.advance_done_logging hadvance
    rw [hreturned]
    exact ⟨log, t, hruns, .inr ⟨_, w', hook, hadvance, hlast, hwritten, rfl⟩⟩
  · obtain ⟨hook, hwritten, hlast⟩ := State.advance_done_logging hadvance
    rw [hfailed]
    exact ⟨log, t, hruns, .inr ⟨_, w', hook, hadvance, hlast, hwritten, rfl⟩⟩

end

/-- Call events are well nested.  Writing the hooks of an operation down changes
nothing else.  Each instruction is shown with the owners of the frames there are, the
outermost first, which are those entered and not left yet, and the last of them is its
own; each frame that is left is the one entered last and not left yet.  At any time the
hooks are what there is of a balanced sequence.  If there is nothing to run, no hook is
called.  If what is run returns, the hooks are one balanced call of the function or
initializer asked for.  If it fails, the last hook is that of the step that fails, so
none is called behind it; and if that is for too many frames then an instruction has
been shown, and its callee is not entered. -/
theorem hooks_well_nested (env : Env ω σ) (w : World ω σ)
    (op : Operation) (fuel : Nat) :
    op.perform env fuel w = ((op.perform env.logging fuel w.logging).1,
        (op.perform env.logging fuel w.logging).2.through Prod.fst) ∧
      AllFit (op.hooks env fuel w) ∧ (∃ more, Balanced (op.hooks env fuel w ++ more)) ∧
      ((∀ s, op.start env w ≠ .running s) → op.hooks env fuel w = []) ∧
      ∀ s, op.start env w = .running s →
        (∀ values, (op.perform env fuel w).1 = .ok values → ∃ inner, Balanced inner ∧
          op.hooks env fuel w = .enter op.owner :: inner ++ [.leave op.owner]) ∧
        ∀ e, (op.perform env fuel w).1 = .error (.error e) → ∃ start log t w' hook,
          op.start env.logging w.logging = .running start ∧
          State.Runs env.logging start log t ∧ t.advance env.logging =
            .done (.error e) w' ∧
          op.hooks env fuel w = t.world.watch.2 ++ [hook] ∧ t.LastHook hook ∧
          (IsExhausted (op.perform env fuel w).1 → ∃ view, hook = .step view) := by
  have hmirrors : env.logging.observer.Mirrors env.observer Prod.fst :=
    env.observer.logging_mirrors
  have hstarts : op.start env w = (op.start env.logging w.logging).through Prod.fst :=
    op.start_through hmirrors.toTracksFrames w.logging
  refine ⟨op.perform_logging env fuel w, ?_⟩
  cases hstart : op.start env.logging w.logging with
  | done result w' =>
      rw [hstart] at hstarts
      have hnone : op.hooks env fuel w = [] := by
        have hwatch := Operation.start_done hstart
        rw [Operation.hooks, Operation.perform_eq, hstart]
        cases result <;> exact congrArg Prod.snd hwatch
      rw [hnone]
      refine ⟨fun before hook after h => by simp at h, ⟨[], .nil⟩, fun _ => rfl, ?_⟩
      intro s hrunning
      cases hstarts.symm.trans hrunning
  | running start =>
      rw [hstart] at hstarts
      obtain ⟨log, t, hruns, hends⟩ := op.hooks_cases env w fuel hstart
      obtain ⟨hlisted, hbottom, hrecorded⟩ := hruns.recorded hstart
      refine ⟨?_, ?_, fun hnone => absurd hstarts (hnone _), ?_⟩
      · rcases hends with ⟨-, hhooks⟩ | ⟨result, w', hook, -, hlast, hhooks, -⟩
        · exact hhooks ▸ hrecorded.fit
        · exact hhooks ▸ (hrecorded.ends hlisted hlast).1
      · rcases hends with ⟨-, hhooks⟩ | ⟨result, w', hook, -, hlast, hhooks, -⟩
        · exact hhooks ▸ ⟨_, hrecorded.pending.balanced⟩
        · exact hhooks ▸ (hrecorded.ends hlisted hlast).2
      · intro s hrunning
        rcases hends with ⟨hcut, -⟩ | ⟨result, w', hook, hadvance, hlast,
          hhooks, hanswer⟩
        · refine ⟨fun values hok => ?_, fun e herror => ?_⟩
          · cases hcut.symm.trans hok
          · cases hcut.symm.trans herror
        cases result with
        | ok returned =>
            obtain ⟨given, hgiven⟩ := Operation.answer_of_returned hstart hruns hadvance
            refine ⟨fun values hok => ?_, fun e herror => ?_⟩
            · rw [hhooks]
              exact hrecorded.returns hbottom hadvance hlast
            · cases (hanswer.symm.trans herror).symm.trans hgiven
        | error failed =>
            have hfailed : op.answer (.error (.error failed)) = .error
                (.error failed) := by
              cases op <;> rfl
            have hperform := hanswer.trans hfailed
            refine ⟨fun values hok => ?_, fun e herror => ?_⟩
            · cases hperform.symm.trans hok
            · cases hperform.symm.trans herror
              refine ⟨start, log, t, w', hook, rfl, hruns, hadvance, hhooks, hlast, ?_⟩
              rintro ⟨trap, site, hexhausted, hcode⟩
              cases hperform.symm.trans hexhausted
              exact hlast.shown_of_exhausted hadvance hcode

namespace NestingWitness

/-- An empty function and one that calls it. -/
def module : Module where
  types := #[⟨[], []⟩]
  functions := #[0, 0]
  codes := #[
    ⟨#[], 0, .scope 0 .block (.func 0) [] none⟩,
    ⟨#[], 0, .scope 0 .block (.func 0) [.plain 1 (.call ⟨0, 0, 0, 0, none⟩)] none⟩]

def env (limit : Nat) : Env Unit Unit :=
  { module, hosts := #[], observer := .silent, maxDepth := limit }

def world : World Unit Unit :=
  ⟨.ofModule module, (), ()⟩

def calls (limit : Nat) : List Hook :=
  (Operation.invoke 1 []).hooks (env limit) 5 world

/-- With two frames the call returns; with one the callee is refused after the call has
been shown. -/
theorem call_returns_or_is_refused :
    (∃ inner, Balanced inner ∧ calls 2 = .enter (.function 1) :: inner ++
      [.leave (.function 1)]) ∧ ∃ before view, calls 1 = before ++ [.step view] := by
  have hstart : ∀ limit, ∃ s, (Operation.invoke 1 []).start
      (env limit) world = .running s :=
    fun limit => ⟨_, by with_unfolding_all rfl⟩
  constructor
  · obtain ⟨s, hstart⟩ := hstart 2
    obtain ⟨-, -, -, -, hrun⟩ := hooks_well_nested (env 2) world (.invoke 1 []) 5
    exact (hrun s hstart).1 [] (by with_unfolding_all rfl)
  · obtain ⟨s, hstart⟩ := hstart 1
    obtain ⟨-, -, -, -, hrun⟩ := hooks_well_nested (env 1) world (.invoke 1 []) 5
    have hperform : ((Operation.invoke 1 []).perform (env 1) 5 world).1 =
        .error (.error (.trap (.callDepth 1) (some ⟨.call, "func[1]", 1⟩))) := by
      with_unfolding_all rfl
    obtain ⟨_, _, t, _, hook, -, -, -, hhooks, -, hshown⟩ :=
      (hrun s hstart).2 _ hperform
    obtain ⟨view, rfl⟩ := hshown ⟨_, _, hperform, rfl⟩
    exact ⟨_, view, hhooks⟩

end NestingWitness

end WasmVm
