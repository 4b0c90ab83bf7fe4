/-
The limit on frames.  It is looked at in one place only, when a callee is about to go on
top; so frames never pile up beyond it, and a run that does not come up against a limit
is the same under every higher one.
-/
import WasmVm.Proofs.Observing.Erasure

namespace WasmVm

variable {ω σ : Type}

/-! ### The bound -/

namespace State

variable {env : Env ω σ} {s s' : State ω σ}

/-- A step adds a frame only below the limit. -/
theorem advance_depth_le (h : advance env s = .running s') :
    s'.calls.depth ≤ max s.calls.depth env.maxDepth := by
  have hbefore := s.length_control
  have hafter := s'.length_control
  have hdepth := s.calls.depth_eq
  rw [s'.calls.depth_eq, ← hafter]
  rcases advance_control h with ⟨-, hnext⟩ | ⟨-, outer, -, -, hnext⟩ |
    ⟨-, -, g, -, -, -, hnext | ⟨callee, -, hroom, hnext⟩⟩
  all_goals
    rw [hnext]
    simp only [List.length_cons, List.length_tail, hbefore]
    omega

/-- A run that starts with one frame has as many frames as the limit allows, or that
one. -/
theorem Runs.depth_le {log : List Event} (h : Runs env s log s')
    (hs : s.calls.depth = 1) :
    s'.calls.depth ≤ max 1 env.maxDepth := by
  induction h with
  | start =>
      rw [hs]
      exact Nat.le_max_left _ _
  | step _ hadvance ih =>
      have hstep := advance_depth_le hadvance
      omega

end State

/-- Every run starts with one frame. -/
theorem Operation.start_depth {env : Env ω σ} {w : World ω σ}
    {op : Operation} {s : State ω σ}
    (h : op.start env w = .running s) : s.calls.depth = 1 := by
  have hone : ∀ {w : World ω σ} {frame}, w.enter env frame = .running s →
      s.calls.depth = 1 := by
    intro w frame henter
    cases frame with
    | error t => cases henter
    | ok frame =>
        cases henter
        rfl
  cases op with
  | invoke function args =>
      rw [start] at h
      split at h
      · cases h
      · split at h
        · split at h <;> cases h
        · exact hone h
  | readGlobal index =>
      rw [start] at h
      split at h
      · cases h
      · cases h
      · exact hone h

/-! ### At the limit -/

/-- An instruction that needs one more frame: the call of a function that is defined,
with its arguments on the stack, or the read of a global that is defined and has not
been initialized. -/
inductive Frame.NeedsFrame (m : Module) (store : Store) (f : Frame) : Node → Prop
  | call {id target} (hsource : target.source = none)
      (hcode : (m.code? target.function).isSome)
      (hargs : target.params ≤ f.stack.length) :
      NeedsFrame m store f (.plain id (.call target))
  | global {id index} (hpending : store.globals[index]? = some .pending)
      (hbody : (m.initializer? index).isSome) :
      NeedsFrame m store f (.plain id (.globalGet index))

/-- Such an instruction asks for a callee that there is. -/
theorem Frame.NeedsFrame.provides {m : Module} {store : Store} {f : Frame} {node : Node}
    (h : f.NeedsFrame m store node) : ∃ g action callee,
      f.execute m store node = .ok (g, action) ∧ State.Provides m action callee := by
  cases h with
  | @call id target hsource hcode hargs =>
      obtain ⟨code, hcode⟩ := Option.isSome_iff_exists.mp hcode
      refine ⟨{ f with stack := f.stack.drop target.params },
        .call target.function (f.stack.take target.params).reverse, _, ?_,
        .function (by rw [Frame.ofFunction, hcode])⟩
      simp only [execute, executePlain, Stack.popMany,
        if_neg (Nat.not_lt.mpr hargs), hsource]
      rfl
  | @global id index hpending hbody =>
      obtain ⟨body, hbody⟩ := Option.isSome_iff_exists.mp hbody
      refine ⟨f, .startGlobal index, _, ?_,
        .initializer (by rw [Frame.ofGlobal, hbody])⟩
      simp only [execute, executePlain, Store.readGlobal, hpending]
      rfl

namespace State

variable {env : Env ω σ} {s : State ω σ}

/-- A callee that there is goes on top below the limit, and is refused at it. -/
theorem perform_of_provides (env : Env ω σ) (s : State ω σ) (p : Point)
    {action : Action} {callee : Frame} (h : Provides env.module action callee) :
    (env.maxDepth ≤ s.calls.depth →
      ∃ w : World ω σ, perform env s p action =
        w.trapAt env.module p (.callDepth env.maxDepth)) ∧
    (s.calls.depth < env.maxDepth →
      ∃ s', perform env s p action = .running s' ∧
        s'.calls.depth = s.calls.depth + 1) := by
  cases h with
  | function hcallee | initializer hcallee =>
      simp only [perform, push, hcallee]
      constructor
      · intro hfull
        rw [if_pos hfull]
        exact ⟨_, rfl⟩
      · intro hroom
        rw [if_neg (Nat.not_le.mpr hroom)]
        exact ⟨_, rfl, rfl⟩

/-- The run ends with the trap for too many frames. -/
def Exhausts (env : Env ω σ) (s : State ω σ) : Prop :=
  ∃ t site w, s.advance env = .done (.error (.trap t site)) w ∧
    t.code = .callStackExhausted

/-- An instruction that needs a frame gets it below the limit, and ends the run at it.
-/
theorem advance_of_needsFrame {node : Node} {f : Frame} (hpermitted : s.Permitted env)
    (hfetch : s.calls.top.fetch? = some (node, f))
    (hneeds : f.NeedsFrame env.module s.world.store node) :
    (env.maxDepth ≤ s.calls.depth → s.Exhausts env) ∧
    (s.calls.depth < env.maxDepth →
      ∃ s', s.advance env = .running s' ∧ s'.calls.depth = s.calls.depth + 1) := by
  obtain ⟨g, action, callee, hexecute, hcallee⟩ := hneeds.provides
  obtain ⟨w, -, hadvance⟩ := advance_of_permitted hpermitted hfetch
  rw [hexecute] at hadvance
  rw [Exhausts, hadvance]
  obtain ⟨hfull, hroom⟩ := perform_of_provides env ⟨s.calls.setTop g, w⟩
    (f.point node) hcallee
  refine ⟨fun hdepth => ?_, hroom⟩
  obtain ⟨w', htrap⟩ := hfull hdepth
  exact ⟨_, _, w', htrap, rfl⟩

end State

/-! ### Higher limits -/

/-- The same setting with another limit on frames. -/
def Env.withLimit (env : Env ω σ) (limit : Nat) : Env ω σ :=
  { env with maxDepth := limit }

namespace State

variable {env : Env ω σ} {limit limit' : Nat}

/-- A callee is refused, or it goes on top under a higher limit too. -/
theorem push_withLimit (env : Env ω σ) (hle : limit ≤ limit')
    (s : State ω σ) (p : Point) (callee : Except Trap Frame) :
    push (env.withLimit limit) s p callee = s.world.trapAt env.module p
      (.callDepth limit) ∨
      push (env.withLimit limit') s p callee = push (env.withLimit limit)
        s p callee := by
  cases callee with
  | error t => exact .inr rfl
  | ok frame =>
      by_cases hfull : limit ≤ s.calls.depth
      · exact .inl (if_pos hfull)
      · have hroom : ¬ limit' ≤ s.calls.depth := fun h => hfull (Nat.le_trans hle h)
        exact .inr ((if_neg hroom).trans (if_neg hfull).symm)

/-- What an instruction asks for comes up against the limit, or is the same under a
higher one. -/
theorem perform_withLimit (hle : limit ≤ limit') (s : State ω σ) (p : Point)
    (action : Action) :
    (∃ w : World ω σ, perform (env.withLimit limit) s p action =
      w.trapAt env.module p (.callDepth limit)) ∨
    perform (env.withLimit limit') s p action = perform
      (env.withLimit limit) s p action := by
  cases action with
  | proceed | setGlobal | write | grow | dropSegment | callHost => exact .inr rfl
  | startGlobal index =>
      exact (push_withLimit env hle
        ⟨s.calls, s.world.mapStore (·.setGlobal index .evaluating)⟩ p _).imp_left
          fun h => ⟨_, h⟩
  | call function args =>
      exact (push_withLimit env hle s p _).imp_left fun h => ⟨_, h⟩

/-- A step ends the run at the limit, or is the same under a higher one. -/
theorem advance_withLimit (env : Env ω σ) (hle : limit ≤ limit') (s : State ω σ) :
    s.Exhausts (env.withLimit limit) ∨
      s.advance (env.withLimit limit') = s.advance (env.withLimit limit) := by
  rcases s.calls.top.scopes_cases with hend | ⟨scope, outer, hscopes, hrest⟩ |
    ⟨node, f, hfetch⟩
  · rw [advance_of_finished hend, advance_of_finished hend]
    exact .inr rfl
  · rw [advance_of_empty hscopes hrest, advance_of_empty hscopes hrest]
    exact .inr rfl
  · rcases fetch_cases (env.withLimit limit) hfetch with ⟨e, watch, hstep, hlow, -⟩ |
      ⟨watch, hstep, hlow⟩
    all_goals
      rcases fetch_cases (env.withLimit limit') hfetch with
        ⟨e', watch', hstep', hhigh, -⟩ | ⟨watch', hstep', hhigh⟩
      all_goals cases hstep.symm.trans hstep'
    · exact .inr (hhigh.trans hlow.symm)
    rcases hlow with ⟨t, hexecute, hlow, -⟩ | ⟨g, action, hexecute, hlow, -⟩
    all_goals
      rcases hhigh with ⟨t', hexecute', hhigh, -⟩ | ⟨g', action', hexecute', hhigh, -⟩
      all_goals cases hexecute.symm.trans hexecute'
    · exact .inr (hhigh.trans hlow.symm)
    · rw [Exhausts, hlow, hhigh]
      refine (perform_withLimit hle _ _ _).imp_left fun ⟨w, htrap⟩ => ?_
      exact ⟨_, _, w, htrap, rfl⟩

theorem events_withLimit (s : State ω σ) :
    s.events (env.withLimit limit) = s.events env := rfl

/-- A run that does not end at a limit is the same under a higher one. -/
theorem run_withLimit (hle : limit ≤ limit') {fuel : Nat} {s : State ω σ}
    (hends : (s.run (env.withLimit limit) fuel).1 ≠ .error .outOfFuel)
    (hother : ∀ t site, (s.run (env.withLimit limit) fuel).1 =
      .error (.error (.trap t site)) → t.code ≠ .callStackExhausted) :
    s.run (env.withLimit limit') fuel = s.run (env.withLimit limit) fuel ∧
      s.trace (env.withLimit limit') fuel = s.trace (env.withLimit limit) fuel := by
  induction fuel generalizing s with
  | zero => exact absurd rfl hends
  | succ fuel ih =>
      rw [run] at hends hother
      rw [run, run, trace, trace]
      rcases advance_withLimit env hle s with ⟨t, site, w, hfull, hcode⟩ | hsame
      · rw [hfull] at hother
        exact absurd hcode (hother t site rfl)
      · rw [hsame, events_withLimit, events_withLimit]
        cases hadvance : s.advance (env.withLimit limit) with
        | running s' =>
            rw [hadvance] at hends hother
            obtain ⟨hrun, htrace⟩ := ih hends hother
            exact ⟨hrun, congrArg _ htrace⟩
        | done result w => cases result <;> exact ⟨rfl, rfl⟩

end State

/-- The answer is the trap for too many frames. -/
def IsExhausted {α : Type} (answer : Except Halt α) : Prop :=
  ∃ t site, answer = .error (.error (.trap t site)) ∧ t.code = .callStackExhausted

/-- An operation that is not stopped by a limit is the same under a higher one. -/
theorem Operation.perform_withLimit (env : Env ω σ) (w : World ω σ) (op : Operation)
    {limit limit' fuel : Nat} (hle : limit ≤ limit')
    (hends : (op.perform (env.withLimit limit) fuel w).1 ≠ .error .outOfFuel)
    (hother : ¬ IsExhausted (op.perform (env.withLimit limit) fuel w).1) :
    op.perform (env.withLimit limit') fuel w = op.perform (env.withLimit limit) fuel w ∧
      op.trace (env.withLimit limit') fuel w = op.trace
        (env.withLimit limit) fuel w := by
  have hstart : ∀ limit, op.start (env.withLimit limit) w = op.start env w := by
    intro limit
    cases op <;> rfl
  have hevents : ∀ limit, op.startEvents (env.withLimit limit) w =
      op.startEvents env w := by
    intro limit
    cases op <;> rfl
  rw [perform_eq, hstart] at hends hother
  rw [perform_eq, perform_eq, trace, trace, hstart, hstart, hevents, hevents]
  generalize op.start env w = outcome at hends hother ⊢
  cases outcome with
  | done result w' => cases result <;> exact ⟨rfl, rfl⟩
  | running s =>
      dsimp only at hends hother ⊢
      -- What a run fails with is the answer to every operation.
      have hfails : ∀ h, (s.run (env.withLimit limit) fuel).1 = .error h →
          op.answer (s.run (env.withLimit limit) fuel).1 = .error h := by
        intro h hrun
        rw [hrun]
        cases op <;> rfl
      obtain ⟨hrun, htrace⟩ := State.run_withLimit hle (fun h => hends (hfails _ h))
        fun t site h hcode => hother ⟨t, site, hfails _ h, hcode⟩
      rw [hrun, htrace]
      exact ⟨rfl, rfl⟩

/-- Frames never pile up beyond the limit, the first one aside.  An instruction that
needs one more is refused exactly if the limit has been reached.  And an operation that
is not refused a frame gives the same answer, leaves the same globals, memory and data
segments and calls the same host functions under every higher limit. -/
theorem call_depth_limited_monotone (env : Env ω σ) (w : World ω σ) (op : Operation) :
    (∀ s log t, op.start env w = .running s → State.Runs env s log t →
      t.calls.frames.length ≤ max 1 env.maxDepth ∧
      ∀ node f, t.Permitted env → t.calls.top.fetch? = some (node, f) →
        f.NeedsFrame env.module t.world.store node →
          (t.Exhausts env ↔ t.calls.frames.length = max 1 env.maxDepth) ∧
          (t.calls.frames.length ≠ max 1 env.maxDepth → ∃ t',
            t.advance env = .running t' ∧ t'.calls.frames.length =
              t.calls.frames.length + 1)) ∧
    ∀ limit limit' fuel, limit ≤ limit' →
      (op.perform (env.withLimit limit) fuel w).1 ≠ .error .outOfFuel →
      ¬ IsExhausted (op.perform (env.withLimit limit) fuel w).1 →
        op.perform (env.withLimit limit') fuel w = op.perform
          (env.withLimit limit) fuel w ∧
        op.trace (env.withLimit limit') fuel w = op.trace
          (env.withLimit limit) fuel w := by
  refine ⟨fun s log t hstart hruns => ?_,
    fun limit limit' fuel hle => op.perform_withLimit env w hle⟩
  have hlength : ∀ s : State ω σ, s.calls.frames.length = s.calls.depth :=
    fun s => s.calls.depth_eq.symm
  have hbound := hruns.depth_le (Operation.start_depth hstart)
  have hsome : 1 ≤ t.calls.depth := by
    rw [t.calls.depth_eq]
    exact Nat.le_add_left _ _
  have hreached : t.calls.depth = max 1 env.maxDepth ↔
      env.maxDepth ≤ t.calls.depth := by omega
  simp only [hlength, ne_eq, hreached, Nat.not_le]
  refine ⟨hbound, fun node f hpermitted hfetch hneeds => ?_⟩
  obtain ⟨hfull, hroom⟩ := State.advance_of_needsFrame hpermitted hfetch hneeds
  refine ⟨⟨fun hexhausts => ?_, hfull⟩, hroom⟩
  refine Decidable.byContradiction fun hless => ?_
  obtain ⟨t', hadvance, -⟩ := hroom (Nat.not_le.mp hless)
  obtain ⟨_, _, _, hdone, -⟩ := hexhausts
  cases hadvance.symm.trans hdone

namespace DepthWitness

/-- A function that gives five, and one that calls it. -/
def module : Module where
  types := #[⟨[], [.i32]⟩]
  functions := #[0, 0]
  codes := #[
    ⟨#[], 0, .scope 0 .block (.func 0) [.plain 1 (.const (.i32 5))] none⟩,
    ⟨#[], 0, .scope 0 .block (.func 0) [.plain 1 (.call ⟨0, 0, 0, 1, none⟩)] none⟩]

def env : Env Unit Unit :=
  { module, hosts := #[], observer := .silent, maxDepth := 1 }

def world : World Unit Unit :=
  ⟨.ofModule module, (), ()⟩

/-- The second function before its call. -/
def before : State Unit Unit :=
  ⟨.ofFrame (.ofBody module (.function 1) (module.codes[1]).body #[] (some 1)), world⟩

/-- One frame is not enough for the call; two are, and so are more. -/
theorem call_takes_two_frames :
    before.Exhausts env ∧ ∀ limit, 2 ≤ limit →
      (Operation.invoke 1 []).perform (env.withLimit limit) 6 world =
      (.ok [.i32 5], world) := by
  obtain ⟨hframes, hmonotone⟩ := call_depth_limited_monotone env world (.invoke 1 [])
  have hstart : (Operation.invoke 1 []).start env world = .running before := by
    with_unfolding_all rfl
  have hneeds : Frame.NeedsFrame module (.ofModule module)
      ⟨.function 1, #[], [], [⟨[], (module.codes[1]).body.body, 0, 1, false⟩], some 1⟩
      (.plain 1 (.call ⟨0, 0, 0, 1, none⟩)) := .call rfl rfl (Nat.zero_le _)
  have hperform : (Operation.invoke 1 []).perform (env.withLimit 2) 6 world =
      (.ok [.i32 5], world) := by with_unfolding_all rfl
  refine ⟨?_, fun limit hlimit => ?_⟩
  · obtain ⟨-, hlimit⟩ := hframes before [] before hstart .start
    exact ((hlimit _ _ (fun _ _ _ => rfl) rfl hneeds).1).mpr rfl
  · have hmore := hmonotone 2 limit 6 hlimit
    rw [hperform] at hmore
    refine (hmore nofun ?_).1
    rintro ⟨t, site, hanswer, -⟩
    cases hanswer

end DepthWitness

end WasmVm
