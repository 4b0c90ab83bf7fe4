/-
The hooks that a step calls, and what becomes of the frames meanwhile.  An observer can
be made to write its hooks down, which changes nothing else.
-/
import WasmVm.Proofs.Machine.Calls
import WasmVm.Proofs.Observing.Projection

namespace WasmVm

variable {ω σ : Type}

/-- The call of a hook. -/
inductive Hook where
  | enter (owner : Owner)
  | leave (owner : Owner)
  | step (view : View)

namespace Observer

/-- What a hook leaves behind. -/
def after (o : Observer σ) (watch : σ) : Hook → σ
  | .enter owner => o.enter owner watch
  | .leave owner => o.leave owner watch
  | .step view => (o.step view watch).2

/-- Does as another observer does, and writes down the hooks as they are called; that
of an instruction is there whether it is refused or not. -/
def logging (o : Observer σ) : Observer (σ × List Hook) where
  enter owner s := (o.enter owner s.1, s.2 ++ [.enter owner])
  leave owner s := (o.leave owner s.1, s.2 ++ [.leave owner])
  step view s := ((o.step view s.1).1, (o.step view s.1).2, s.2 ++ [.step view])

theorem logging_mirrors (o : Observer σ) : o.logging.Mirrors o Prod.fst where
  enter _ _ := rfl
  leave _ _ := rfl
  step _ _ := rfl

theorem logging_after (o : Observer σ) (watch : σ × List Hook) (hook : Hook) :
    (o.logging.after watch hook).2 = watch.2 ++ [hook] := by
  cases hook <;> rfl

/-- Hooks are written down in the order of their calls. -/
theorem logging_foldl (o : Observer σ) (watch : σ × List Hook) (hooks : List Hook) :
    (hooks.foldl o.logging.after watch).2 = watch.2 ++ hooks := by
  induction hooks generalizing watch with
  | nil => exact (List.append_nil _).symm
  | cons hook hooks ih =>
      rw [List.foldl_cons, ih, logging_after, List.append_assoc]
      rfl

end Observer

/-- The same setting with the hooks written down. -/
def Env.logging (env : Env ω σ) : Env ω (σ × List Hook) :=
  env.watchedBy env.observer.logging

/-- The world before any hook has been called. -/
def World.logging (w : World ω σ) : World ω (σ × List Hook) :=
  ⟨w.store, w.host, (w.watch, [])⟩

/-- The hooks that an operation calls, in order. -/
def Operation.hooks (env : Env ω σ) (fuel : Nat) (w : World ω σ) (op : Operation) :
    List Hook :=
  (op.perform env.logging fuel w.logging).2.watch.2

/-- Writing the hooks down does not change an operation. -/
theorem Operation.perform_logging (env : Env ω σ) (fuel : Nat) (w : World ω σ)
    (op : Operation) :
    op.perform env fuel w = ((op.perform env.logging fuel w.logging).1,
      (op.perform env.logging fuel w.logging).2.through Prod.fst) := by
  have hmirrors : env.logging.observer.Mirrors env.observer Prod.fst :=
    env.observer.logging_mirrors
  exact op.perform_through hmirrors fuel w.logging

/-- What an operation from outside is about. -/
def Operation.owner : Operation → Owner
  | invoke function _ => .function function
  | readGlobal index => .global index

/-! ### Nesting -/

/-- An instruction is shown together with the frames of these owners. -/
structure View.Shows (view : View) (owners : List Owner) : Prop where
  frames : view.calls.frames.map (·.owner) = owners
  owners : view.calls.owners = owners

/-- Hooks that lead from frames of some owners to frames of others, the running one
first in both cases.  The last frame stays. -/
inductive Nests (start : List Owner) : List Hook → List Owner → Prop
  | nil : Nests start [] start
  | step {hooks owners view} (h : Nests start hooks owners)
      (hshows : view.Shows owners) :
      Nests start (hooks ++ [.step view]) owners
  | enter {hooks owners owner} (h : Nests start hooks owners) :
      Nests start (hooks ++ [.enter owner]) (owner :: owners)
  | leave {hooks owner caller owners}
      (h : Nests start hooks (owner :: caller :: owners)) :
      Nests start (hooks ++ [.leave owner]) (caller :: owners)

theorem Nests.trans {start middle last : List Owner} {hooks more : List Hook}
    (h : Nests start hooks middle) (hmore : Nests middle more last) :
    Nests start (hooks ++ more) last := by
  induction hmore with
  | nil => rwa [List.append_nil]
  | step _ hshows ih =>
      rw [← List.append_assoc]
      exact ih.step hshows
  | enter _ ih =>
      rw [← List.append_assoc]
      exact ih.enter
  | leave _ ih =>
      rw [← List.append_assoc]
      exact ih.leave

/-- The last frame is still the one it was. -/
theorem Nests.getLast?_eq {start owners : List Owner} {hooks : List Hook}
    (h : Nests start hooks owners) (hstart : start ≠ []) :
    owners ≠ [] ∧ owners.getLast? = start.getLast? := by
  induction h with
  | nil => exact ⟨hstart, rfl⟩
  | step _ _ ih => exact ih
  | @enter hooks owners owner _ ih =>
      obtain ⟨caller, callers, rfl⟩ := List.exists_cons_of_ne_nil ih.1
      exact ⟨nofun, List.getLast?_cons_cons.trans ih.2⟩
  | leave _ ih => exact ⟨nofun, List.getLast?_cons_cons.symm.trans ih.2⟩

/-! ### Steps -/

/-- Host functions are not watched. -/
theorem World.watch_callHost (env : Env ω σ) (w : World ω σ) (function : Nat)
    (args : List Value) : (w.callHost env function args).2.watch = w.watch := by
  unfold callHost
  dsimp only
  split
  · rfl
  · split
    · rfl
    · split
      · rfl
      · split <;> rfl

namespace State

variable {env : Env ω σ} {s s' : State ω σ}

/-- The list of owners is that of the frames there are. -/
def OwnersListed (s : State ω σ) : Prop :=
  s.calls.owners = s.owners

/-- The hooks that lead from one state to another, one call after the other. -/
def Calls (env : Env ω σ) (s : State ω σ) (hooks : List Hook) (s' : State ω σ) : Prop :=
  s'.world.watch = hooks.foldl env.observer.after s.world.watch ∧
    s'.OwnersListed ∧ Nests s.owners hooks s'.owners

theorem Calls.trans {s'' : State ω σ} {hooks more : List Hook}
    (h : s.Calls env hooks s')
    (hmore : s'.Calls env more s'') : s.Calls env (hooks ++ more) s'' := by
  obtain ⟨hwatch, -, hnests⟩ := h
  obtain ⟨hwatch', hlisted, hnests'⟩ := hmore
  exact ⟨by rw [hwatch', hwatch, List.foldl_append], hlisted, hnests.trans hnests'⟩

theorem push_calls (hs : s.OwnersListed) {p : Point} {callee : Except Trap Frame}
    (h : push env s p callee = .running s') :
    ∃ owner, s.Calls env [.enter owner] s' := by
  unfold push at h
  split at h
  · cases h
  · next frame =>
      split at h
      · cases h
      · cases h
        refine ⟨frame.owner, rfl, ?_, Nests.nil.enter⟩
        exact congrArg (frame.owner :: ·) hs

/-- What an instruction asks for enters at most one frame. -/
theorem perform_calls (hs : s.OwnersListed) {p : Point} {action : Action}
    (h : perform env s p action = .running s') : ∃ hooks, s.Calls env hooks s' := by
  cases action with
  | proceed | setGlobal | write | grow | dropSegment =>
      cases h
      exact ⟨[], rfl, hs, .nil⟩
  | startGlobal index =>
      obtain ⟨owner, hcalls⟩ :=
        push_calls (s := ⟨s.calls, s.world.mapStore (·.setGlobal index .evaluating)⟩) hs
          h
      exact ⟨_, hcalls⟩
  | call function args =>
      obtain ⟨owner, hcalls⟩ := push_calls hs h
      exact ⟨_, hcalls⟩
  | callHost function args =>
      have hwatch := s.world.watch_callHost env function args
      unfold perform at h
      dsimp only at h
      split at h
      · cases h
      · next values world hreply =>
          cases h
          rw [hreply] at hwatch
          exact ⟨[], hwatch, hs, .nil⟩

/-- A caller goes on with the list of owners that it had. -/
theorem handOver_calls {calls : CallStack} {world : World ω σ}
    {values pushed : List Value}
    (h : handOver calls world values pushed = .running s') :
    s'.world = world ∧ s'.calls.owners = calls.owners.tail := by
  unfold handOver at h
  split at h
  · cases h
  · next below hpop =>
      cases h
      unfold CallStack.pop? at hpop
      split at hpop
      · cases hpop
      · cases hpop
        exact ⟨rfl, rfl⟩

/-- The end of a frame leaves it, and nothing else. -/
theorem finish_calls (hs : s.OwnersListed) (h : finish env s = .running s') :
    s.Calls env [.leave s.calls.top.owner] s' := by
  have hnext : ∀ {calls : CallStack} {world : World ω σ} {values pushed : List Value},
      calls = s.calls → world.watch = env.observer.leave
        s.calls.top.owner s.world.watch →
      handOver calls world values pushed = .running s' →
        s.Calls env [.leave s.calls.top.owner] s' := by
    rintro calls world values pushed rfl hwatch hover
    obtain ⟨caller, callers, hcallers, hframes⟩ := handOver_frames hover
    obtain ⟨rfl, howners⟩ := handOver_calls hover
    have hbefore : s.owners = s.calls.top.owner :: caller.owner ::
        callers.map (·.owner) := by
      rw [owners_eq, hcallers]
      rfl
    have hafter : s'.owners = caller.owner :: callers.map (·.owner) := by
      rw [owners, hframes]
      rfl
    refine ⟨hwatch, ?_, ?_⟩
    · rw [OwnersListed, howners, hs, hbefore, hafter]
      rfl
    · rw [hbefore, hafter]
      exact Nests.nil.leave
  unfold finish at h
  dsimp only at h
  split at h
  · cases h
  · split at h
    · split at h
      · cases h
      · exact hnext rfl rfl h
    · exact hnext rfl rfl h

/-- What is shown of an instruction is shown with the frames there are. -/
theorem view_shows (hs : s.OwnersListed) {node : Node} {f : Frame}
    (hfetch : s.calls.top.fetch? = some (node, f)) :
    (s.view node f).Shows s.owners := by
  refine ⟨?_, hs⟩
  rw [owners_eq, ← Frame.fetch?_owner hfetch]
  rfl

/-- Each step shows an instruction, enters or leaves a frame as the frames change. -/
theorem advance_calls (hs : s.OwnersListed) (h : advance env s = .running s') :
    ∃ hooks, s.Calls env hooks s' := by
  rcases s.calls.top.scopes_cases with hend | ⟨scope, outer, hscopes, hrest⟩ |
    ⟨node, f, hfetch⟩
  · rw [advance_of_finished hend] at h
    exact ⟨_, finish_calls hs h⟩
  · rw [advance_of_empty hscopes hrest] at h
    cases h
    exact ⟨[], rfl, hs, .nil⟩
  · rcases fetch_cases env hfetch with ⟨e, watch, -, hadvance, -⟩ |
      ⟨watch, hstep, ⟨t, -, hadvance, -⟩ | ⟨g, action, hexecute, hadvance, -⟩⟩
    · cases h.symm.trans hadvance
    · cases h.symm.trans hadvance
    · -- The instruction is shown, its frame goes on, and a callee may be entered.
      rw [hadvance] at h
      have howner := (Frame.execute_fits hexecute).1.trans (Frame.fetch?_owner hfetch)
      have howners : State.owners ⟨s.calls.setTop g, s.world⟩ = s.owners := by
        rw [owners_eq, owners_eq, CallStack.setTop, howner]
      have hshown : s.Calls env [.step (s.view node f)]
          ⟨s.calls.setTop g, ⟨s.world.store, s.world.host, watch⟩⟩ := by
        refine ⟨(congrArg Prod.snd hstep).symm, hs.trans howners.symm, ?_⟩
        rw [show State.owners ⟨s.calls.setTop g, ⟨s.world.store, s.world.host, watch⟩⟩ =
          s.owners from howners]
        exact Nests.nil.step (view_shows hs hfetch)
      obtain ⟨hooks, hcalls⟩ := perform_calls hshown.2.1 h
      exact ⟨_, hshown.trans hcalls⟩

/-- A run calls hooks as its frames change. -/
theorem Runs.calls {log : List Event} (hruns : Runs env s log s')
    (hs : s.OwnersListed) :
    ∃ hooks, s.Calls env hooks s' := by
  induction hruns with
  | start => exact ⟨[], rfl, hs, .nil⟩
  | step _ hadvance ih =>
      obtain ⟨hooks, hcalls⟩ := ih
      obtain ⟨more, hmore⟩ := advance_calls hcalls.2.1 hadvance
      exact ⟨_, hcalls.trans hmore⟩

end State

/-! ### Operations -/

namespace Operation

variable {env : Env ω σ} {w w' : World ω σ} {op : Operation} {s t : State ω σ}

/-- An operation that has something to run enters what it is about. -/
theorem start_calls (h : op.start env w = .running s) :
    s.OwnersListed ∧ s.owners = [op.owner] ∧
      s.world.watch = env.observer.enter op.owner w.watch := by
  have henter : ∀ (w₁ : World ω σ) (frame : Except Trap Frame),
      (∀ f, frame = .ok f → f.owner = op.owner) → w₁.watch = w.watch →
      w₁.enter env frame = .running s → s.OwnersListed ∧ s.owners = [op.owner] ∧
        s.world.watch = env.observer.enter op.owner w.watch := by
    intro w₁ frame howner hwatch hrunning
    cases frame with
    | error t => cases hrunning
    | ok f =>
        cases hrunning
        rw [← howner f rfl, ← hwatch]
        exact ⟨rfl, rfl, rfl⟩
  cases op with
  | invoke function args =>
      rw [start] at h
      split at h
      · cases h
      · split at h
        · split at h <;> cases h
        · exact henter w _ (fun _ => Frame.ofFunction_owner) rfl h
  | readGlobal index =>
      rw [start] at h
      split at h
      · cases h
      · cases h
      · exact henter (w.mapStore _) _ (fun _ => Frame.ofGlobal_owner) rfl h

/-- One that has nothing to run calls no hook. -/
theorem start_done {result : Except Error (List Value)}
    (h : op.start env w = .done result w') :
    w'.watch = w.watch := by
  have henter : ∀ (w₁ : World ω σ) (frame : Except Trap Frame), w₁.watch = w.watch →
      w₁.enter env frame = .done result w' → w'.watch = w.watch := by
    intro w₁ frame hwatch hdone
    cases frame with
    | error t =>
        cases hdone
        exact hwatch
    | ok f => cases hdone
  cases op with
  | invoke function args =>
      have hhost := w.watch_callHost env function args
      rw [start] at h
      split at h
      · cases h
        rfl
      · split at h
        · split at h
          all_goals
            next hreply =>
              cases h
              rw [hreply] at hhost
              exact hhost
        · exact henter _ _ rfl h
  | readGlobal index =>
      rw [start] at h
      split at h
      · cases h
        rfl
      · cases h
        rfl
      · exact henter (w.mapStore _) _ rfl h

/-- The outermost frame of an operation's run is of what the operation is about. -/
theorem runs_calls {log : List Event} (hstart : op.start env w = .running s)
    (hruns : State.Runs env s log t) : ∃ hooks, s.Calls env hooks t ∧
      t.owners.getLast? = some op.owner := by
  obtain ⟨hlisted, howners, -⟩ := start_calls hstart
  obtain ⟨hooks, hcalls⟩ := hruns.calls hlisted
  have hlast := (hcalls.2.2.getLast?_eq (by simp [howners])).2
  rw [howners] at hlast
  exact ⟨hooks, hcalls, hlast⟩

end Operation

end WasmVm
