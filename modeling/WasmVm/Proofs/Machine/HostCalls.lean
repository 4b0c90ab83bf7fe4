/-
What calls leave behind.  A host function answers with one value at most, and a
signature without results drops it; so the call of an import delivers what its
signature promises as long as that is not more than one value.  The call of a function
with a body always does.
-/
import WasmVm.Proofs.Machine.Fetches
import WasmVm.Proofs.Observing.Erasure

namespace WasmVm

variable {ω σ : Type}

/-- What a call carries agrees with the signature of its callee. -/
theorem Module.functionType?_of_callTarget? {m : Module} {function : Nat}
    {target : CallTarget} (h : m.callTarget? function = some target) :
    ∃ type, m.functionType? function = some type ∧
      target.params = type.params.length := by
  unfold callTarget? at h
  obtain ⟨typeIndex, hindex, h⟩ := Option.bind_eq_some_iff.mp h
  obtain ⟨type, htype, h⟩ := Option.bind_eq_some_iff.mp h
  cases h
  exact ⟨type, by rw [functionType?, hindex]; exact htype, rfl⟩

/-- A host function that does not fail delivers nothing if its signature has no
results, and else the one value that it answers with. -/
theorem World.length_of_callHost {env : Env ω σ} {w w' : World ω σ} {function : Nat}
    {args values : List Value} {type : FuncType}
    (htype : env.module.functionType? function = some type)
    (h : w.callHost env function args = (.ok values, w')) :
    values.length = min 1 type.results.length := by
  unfold callHost at h
  dsimp only at h
  rw [htype] at h
  split at h
  · cases h
  · split at h
    · cases h
    · split at h
      · next hnone =>
          have hresults : type.results.length = 0 := hnone
          cases h
          rw [hresults]
          rfl
      · next hsome =>
          have hresults : type.results.length ≠ 0 := hsome
          split at h
          · cases h
            rw [List.length_singleton]
            omega
          · cases h

/-! ### Imports -/

/-- An import that is called from outside fails, or delivers its values. -/
theorem Env.invoke_of_imported {env : Env ω σ} {function : Nat} {type : FuncType}
    (htype : env.module.functionType? function = some type)
    (himported : function < env.module.importedFunctions) (fuel : Nat) (w : World ω σ)
    (args : List Value) :
    (∃ cause, (env.invoke fuel w function args).1 =
      .error (.error (.trap cause none))) ∨
      ∃ values, (env.invoke fuel w function args).1 = .ok values ∧
        values.length = min 1 type.results.length := by
  unfold invoke
  rw [htype]
  dsimp only
  rw [if_pos himported]
  rcases hreply : w.callHost env function args with ⟨cause | values, w'⟩
  · exact .inl ⟨cause, rfl⟩
  · exact .inr ⟨values, rfl, World.length_of_callHost htype hreply⟩

namespace Frame

/-- A call takes the parameters off the stack, if they are there. -/
theorem execute_call {m : Module} {store : Store} {f g : Frame} {id : Nat}
    {target : CallTarget} {action : Action} (hsource : target.source.isSome)
    (h : f.execute m store (.plain id (.call target)) = .ok (g, action)) :
    target.params ≤ f.stack.length ∧
    g = { f with stack := f.stack.drop target.params } ∧
      action = .callHost target.function (f.stack.take target.params).reverse := by
  simp only [execute, executePlain, Stack.popMany] at h
  by_cases hshort : f.stack.length < target.params
  · rw [if_pos hshort] at h
    cases h
  · rw [if_neg hshort] at h
    obtain ⟨source, hsome⟩ := Option.isSome_iff_exists.mp hsource
    simp only [bind, Except.bind, hsome] at h
    cases h
    exact ⟨Nat.not_lt.mp hshort, rfl, rfl⟩

end Frame

namespace State

variable {env : Env ω σ} {s : State ω σ}

/-- An import that is called by an instruction traps, or its values take the place of
its parameters. -/
theorem advance_of_hostCall {id : Nat} {target : CallTarget}
    {type : FuncType} {f : Frame}
    (htype : env.module.functionType? target.function = some type)
    (hpermitted : s.Permitted env)
    (hfetch : s.calls.top.fetch? = some (.plain id (.call target), f))
    (hsource : target.source.isSome) :
    (∃ cause site w, s.advance env = .done (.error (.trap cause site)) w) ∨
    ∃ values s', s.advance env = .running s' ∧ target.params ≤ f.stack.length ∧
      values.length = min 1 type.results.length ∧ s'.calls.frames =
        { f with stack := Stack.pushMany values (f.stack.drop target.params) } ::
          s.calls.callers := by
  obtain ⟨w, -, hadvance⟩ := advance_of_permitted hpermitted hfetch
  rw [hadvance]
  cases hexecute : f.execute env.module s.world.store (.plain id (.call target)) with
  | error t => exact .inl ⟨t, _, _, rfl⟩
  | ok result =>
      obtain ⟨g, action⟩ := result
      obtain ⟨henough, rfl, rfl⟩ := Frame.execute_call hsource hexecute
      simp only [perform]
      rcases hreply : w.callHost env target.function
        (f.stack.take target.params).reverse with
        ⟨cause | values, w'⟩
      · exact .inl ⟨cause, _, w', rfl⟩
      · exact .inr ⟨values, _, rfl, henough, World.length_of_callHost htype hreply, rfl⟩

/-- A function with a body that is called by an instruction leaves as many values as its
signature has results in the place of its parameters. -/
theorem height_of_return (hm : env.module.InRange)
    (hsize : env.module.codes.size = env.module.functions.size)
    {s₁ s₂ s₃ : State ω σ} {id : Nat} {target : CallTarget} {f : Frame}
    {log : List (Node × Decision)}
    (hfetch : s.calls.top.fetch? = some (.plain id (.call target), f))
    (hcall : s.advance env = .running s₁) (hhigher : s.calls.depth < s₁.calls.depth)
    (hrun : FrameRun env s₁.calls.callers.length s₁ log s₂)
    (hdepth : s₁.calls.depth ≤ s₂.calls.depth) (hreturn : s₂.advance env = .running s₃)
    (hlower : s₃.calls.depth < s₁.calls.depth) :
    ∃ type, env.module.functionType? target.function = some type ∧
      s₃.calls.top.stack.length + target.params = f.stack.length +
        type.results.length := by
  simp only [CallStack.depth_eq_length] at hhigher hdepth hlower
  rcases advance_frames hm hsize hcall with
    ⟨_, _, caller, callers, -, -, hcallers, hframes⟩ |
    ⟨_, -, -, hframes⟩ | ⟨node, f', caller, callee, hfetch', hcalls, -, -, hframes⟩
  · rw [hframes] at hhigher
    simp only [CallStack.frames, hcallers, List.length_cons] at hhigher
    omega
  · rw [hframes] at hhigher
    exact absurd hhigher (Nat.lt_irrefl _)
  · cases hfetch.symm.trans hfetch'
    obtain ⟨htop, hwaiting⟩ := List.cons.inj hframes
    obtain ⟨above, now, hnow, howner, hresults⟩ :=
      hrun.keeps_callers hm hsize (Nat.le_of_succ_le_succ hdepth)
    rw [hwaiting] at hnow
    rw [htop] at howner hresults
    rw [hframes] at hlower
    obtain ⟨-, values, pushed, hfinish, hpushed, hafter⟩ :=
      advance_takes_off hm hsize hreturn hnow hlower
    have hleaves := hcalls.leaves howner hresults hfinish hpushed
    cases hcalls with
    | function henough hbegins =>
        rw [Frame.Leaves, howner, hbegins.owner] at hleaves
        obtain ⟨type, htype, hlength, rfl⟩ := hleaves
        refine ⟨type, htype, ?_⟩
        obtain ⟨hcaller, -⟩ := List.cons.inj hafter
        rw [hcaller]
        simp only [Stack.pushMany, List.length_append, List.length_reverse,
          List.length_take, List.length_drop]
        omega

end State

/-- What the calls of a decoded module leave behind.  An import that is called from
outside or by an instruction ends in a trap, or delivers no value if its signature has
no results and a single one otherwise; its caller's stack is then less the parameters
and more that value.  So a signature of at most one result is honoured, and one of more
is not.  A function with a body always leaves as many values as its signature has
results. -/
theorem calls_balance_stack {env : Env ω σ} {fuel : Nat} {bytes : Array UInt8}
    (hmodule : Module.decode fuel bytes = .ok env.module) :
    (∀ (w : World ω σ) function args fuel, function < env.module.importedFunctions →
      ∃ type, env.module.functionType? function = some type ∧
        ((∃ cause, (env.invoke fuel w function args).1 =
          .error (.error (.trap cause none))) ∨
          ∃ values, (env.invoke fuel w function args).1 = .ok values ∧
            values.length = min 1 type.results.length)) ∧
    (∀ (w : World ω σ) (op : Operation) s log t id target f,
      op.start env w = .running s → State.Runs env s log t → t.Permitted env →
      t.calls.top.fetch? = some (.plain id (.call target), f) → target.source.isSome →
      ∃ type, env.module.functionType? target.function = some type ∧
        ((∃ cause site w', t.advance env = .done (.error (.trap cause site)) w') ∨
          ∃ t', t.advance env = .running t' ∧ t'.calls.callers = t.calls.callers ∧
            t'.calls.top.stack.length + type.params.length =
              f.stack.length + min 1 type.results.length)) ∧
    ∀ (s s₁ s₂ s₃ : State ω σ) id target f log,
      s.calls.top.fetch? = some (.plain id (.call target), f) →
      s.advance env = .running s₁ → s.calls.depth < s₁.calls.depth →
      FrameRun env s₁.calls.callers.length s₁ log s₂ → s₁.calls.depth ≤ s₂.calls.depth →
      s₂.advance env = .running s₃ → s₃.calls.depth < s₁.calls.depth →
      ∃ type, env.module.functionType? target.function = some type ∧
        s₃.calls.top.stack.length + target.params = f.stack.length +
          type.results.length := by
  obtain ⟨hrange, hsize⟩ := Module.decodeWith_inRange hmodule
  have hm := Module.decodeWith_bodiesRead hmodule
  refine ⟨?_, ?_, ?_⟩
  · intro w function args fuel himported
    obtain ⟨type, htype⟩ : ∃ type, env.module.functionType? function = some type :=
      hrange.functionType?_eq_some (by omega)
    exact ⟨type, htype, Env.invoke_of_imported htype himported fuel w args⟩
  · intro w op s log t id target f hstart hruns hpermitted hfetch hsource
    have hwithin := Operation.runs_within hrange hsize hstart hruns
    have htarget := (hwithin.canFetch hfetch).callTarget?_eq hm hsource
    obtain ⟨type, htype, hparams⟩ := Module.functionType?_of_callTarget? htarget
    refine ⟨type, htype, ?_⟩
    refine (State.advance_of_hostCall htype hpermitted hfetch hsource).imp_right ?_
    rintro ⟨values, t', hadvance, henough, hlength, hframes⟩
    obtain ⟨htop, hcallers⟩ := List.cons.inj hframes
    refine ⟨t', hadvance, hcallers, ?_⟩
    rw [htop, ← hparams, ← hlength]
    simp only [Stack.pushMany, List.length_append, List.length_reverse,
      List.length_drop]
    omega
  · intro s s₁ s₂ s₃ id target f log hfetch hcall hhigher hrun hdepth hreturn hlower
    exact State.height_of_return hrange hsize hfetch hcall hhigher hrun
      hdepth hreturn hlower

namespace HostCallsWitness

/-- The import `m.n` of two results, and a function that puts two constants on the
stack, calls it and drops two values. -/
def bytes : List UInt8 :=
  [0x00, 0x61, 0x73, 0x6d, 0x01, 0x00, 0x00, 0x00,
    0x01, 0x0a, 0x02, 0x60, 0x00, 0x02, 0x7f, 0x7f, 0x60, 0x00, 0x01, 0x7f,
    0x02, 0x07, 0x01, 0x01, 0x6d, 0x01, 0x6e, 0x00, 0x00,
    0x03, 0x02, 0x01, 0x01,
    0x0a, 0x0c, 0x01, 0x0a, 0x00, 0x41, 0x01, 0x41, 0x02, 0x10, 0x00, 0x1a, 0x1a, 0x0b]

def call : Node :=
  .plain 3 (.call ⟨0, 0, 0, 2, some ⟨"m", "n"⟩⟩)

def body : List Node :=
  [.plain 1 (.const (.i32 1)), .plain 2 (.const (.i32 2)), call,
    .plain 4 .drop, .plain 5 .drop]

def module : Module where
  types := #[⟨[], [.i32, .i32]⟩, ⟨[], [.i32]⟩]
  imports := #[⟨"m", "n", .function 0⟩]
  functions := #[1]
  codes := #[⟨#[], 0, .scope 0 .block (.func 1) body none⟩]

theorem decode_bytes : Module.decode 0 bytes.toArray = .ok module := by
  with_unfolding_all rfl

/-- The import always answers with seven. -/
def env : Env Unit Unit :=
  { module, hosts := #[some fun _ memory _ => ⟨.ok (some (.i32 7)), memory, ()⟩],
    observer := .silent, maxDepth := 1 }

def world : World Unit Unit :=
  ⟨.ofModule module, (), ()⟩

/-- The function with a stack and what it has left to run. -/
def state (stack : Stack) (rest : List Node) : State Unit Unit :=
  ⟨.ofFrame ⟨.function 1, #[], stack, [⟨rest, body, 0, 1, false⟩], some 1⟩, world⟩

/-- The function before its call. -/
def before : State Unit Unit :=
  state [.i32 2, .i32 1] (body.drop 2)

/-- The function after its call. -/
def after : State Unit Unit :=
  state [.i32 7, .i32 2, .i32 1] (body.drop 3)

theorem runs_to_call : ∃ log, State.Runs env (state [] body) log before := by
  have hfirst : (state [] body).advance env = .running (state [.i32 1] (body.drop 1)) :=
    rfl
  exact ⟨_, (State.Runs.start.step hfirst).step rfl⟩

/-- Two results are promised, one is delivered: from outside, and on the stack of a
caller, which then drops a value of its own and returns the wrong one. -/
theorem two_results_deliver_one :
    Module.decode 0 bytes.toArray = .ok module ∧
    module.functionType? 0 = some ⟨[], [.i32, .i32]⟩ ∧
    (env.invoke 0 world 0 []).1 = .ok [.i32 7] ∧
    before.advance env = .running after ∧
    after.calls.top.stack.length ≠ before.calls.top.stack.length - 0 + 2 ∧
    (env.invoke 7 world 1 []).1 = .ok [.i32 1] := by
  refine ⟨decode_bytes, ?_, ?_, rfl, by decide, ?_⟩
  all_goals with_unfolding_all rfl

/-- The height of the stack after the call. -/
theorem one_value_on_stack :
    Module.decode 0 bytes.toArray = .ok module ∧
    (∃ log, State.Runs env (state [] body) log before) ∧
    before.advance env = .running after ∧
    ∃ type, module.functionType? 0 = some type ∧
      after.calls.top.stack.length + type.params.length =
        2 + min 1 type.results.length := by
  have hmodule : Module.decode 0 bytes.toArray = .ok env.module := decode_bytes
  obtain ⟨log, hruns⟩ := runs_to_call
  refine ⟨decode_bytes, ⟨log, hruns⟩, rfl, ?_⟩
  obtain ⟨type, htype, ⟨cause, site, w, htrap⟩ | ⟨t', hadvance, -, hheight⟩⟩ :=
    (calls_balance_stack hmodule).2.1 world (.invoke 1 []) _ log before 3 _ _ rfl hruns
      (fun _ _ _ => rfl) rfl rfl
  · cases htrap
  · cases hadvance
    exact ⟨type, htype, hheight⟩

end HostCallsWitness

end WasmVm
