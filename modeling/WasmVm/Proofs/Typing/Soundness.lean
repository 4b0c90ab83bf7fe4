/-
Type soundness of runs.  Every frame of a run is typed, each caller for the values
that its callee will hand over, and every global that has a value has one of its
type.  One step keeps this, so a run of any length does, and it never ends with a
missing value, a value of a wrong type or a branch that leads nowhere.
-/
import WasmVm.Proofs.Machine.Step
import WasmVm.Proofs.Typing.Execution

namespace WasmVm

variable {ω σ : Type} {m : Module} {final : StackType}

/-- Whether an error is a trap that typing rules out. -/
def Error.Stuck : Error → Prop
  | .trap cause _ => cause.Stuck
  | _ => False

/-- Who is charged with an error does not matter. -/
theorem Error.stuck_chargedTo (e : Error) (site : Site) :
    (e.chargedTo site).Stuck ↔ e.Stuck := by
  cases e with
  | format | structural => exact Iff.rfl
  | trap cause charged => cases charged <;> exact Iff.rfl

/-- Every bound host function has at most one result, and if it returns a value for
arguments of its parameter types then one of its result type. -/
def Env.HostsTyped (env : Env ω σ) : Prop :=
  ∀ (function : Nat) (host : HostFunction ω) (type : FuncType),
    env.hosts[function]? = some (some host) →
      env.module.functionType? function = some type →
    type.results.length ≤ 1 ∧
      ∀ state memory args v, args.map Value.type = type.params →
        (host state memory args).result = .ok (some v) → ∀ t ∈ type.results, v.type = t

/-- The observer's own refusals are not taken for faults of the program. -/
def Observer.Fair (observer : Observer σ) : Prop :=
  ∀ view watch e, (observer.step view watch).1 = .error e → ¬ e.Stuck

theorem Observer.silent_fair : (Observer.silent : Observer σ).Fair := by
  intro view watch e h
  simp [Observer.silent] at h

/-- Frames that wait for their callees, the nearest caller first: each waits for what
the frame before it delivers, and the outermost delivers `final`. -/
inductive CallersTyped (m : Module) (final : StackType) : List Frame → StackType → Prop
  | nil : CallersTyped m final [] final
  | cons {f callers waiting answer} (hframe : FrameTyped m f waiting answer)
      (hcallers : CallersTyped m final callers answer) :
      CallersTyped m final (f :: callers) waiting

/-- A run whose frames and globals are typed, and which will return `final`. -/
def State.Typed (m : Module) (final : StackType) (s : State ω σ) : Prop :=
  s.world.store.Typed m ∧
    ∃ answer, FrameTyped m s.calls.top [] answer ∧
      CallersTyped m final s.calls.callers answer

/-- What a step may lead to. -/
def Outcome.Typed (m : Module) (final : StackType) : Outcome ω σ → Prop
  | .running s => s.Typed m final
  | .done (.ok values) w => w.store.Typed m ∧ values.map Value.type = final.reverse
  | .done (.error e) w => w.store.Typed m ∧ ¬ e.Stuck

/-! ### The store -/

namespace Store

variable {store : Store}

theorem Typed.setGlobal {index : Nat} {state : GlobalState} (h : store.Typed m)
    (hstate : ∀ v, state = .ready v → m.globalType? index = some v.type) :
    (store.setGlobal index state).Typed m := by
  intro i v hget
  rw [Store.setGlobal, Array.getElem?_setIfInBounds] at hget
  split at hget
  · rename_i hindex
    subst hindex
    split at hget
    · exact hstate v (Option.some.inj hget)
    · cases hget
  · exact h i v hget

theorem Typed.settle (h : store.Typed m) : store.settle.Typed m := by
  intro i v hget
  rw [Store.settle, Array.getElem?_map, Option.map_eq_some_iff] at hget
  obtain ⟨state, hstate, heq⟩ := hget
  split at heq
  · cases heq
  · subst heq
    exact h i v hstate

/-- Only the globals matter. -/
theorem Typed.congr {other : Store} (h : store.Typed m)
    (hsame : other.globals = store.globals) :
    other.Typed m := by
  intro i v hget
  rw [hsame] at hget
  exact h i v hget

end Store

/-! ### Starting frames -/

/-- Locals start with values of their declared types: an argument where there is one
for a parameter, and zero otherwise. -/
theorem Code.types_locals {code : Code} {type : FuncType} {args : List Value}
    (hlocals : type.params <+: code.locals.toList)
    (hparams : code.params = type.params.length)
    (hargs : ∀ (i : Nat) (v : Value) (t : ValType), args[i]? = some v →
      type.params[i]? = some t → v.type = t) :
    (code.locals.mapIdx fun i t =>
      if i < code.params then (args.toArray[i]?).getD t.zero
      else t.zero).toList.map Value.type = code.locals.toList := by
  apply List.ext_getElem?
  intro i
  rw [Array.toList_mapIdx, List.getElem?_map, List.getElem?_mapIdx]
  cases hlocal : code.locals.toList[i]? with
  | none => rfl
  | some t =>
      simp only [Option.map_some, List.getElem?_toArray, Option.some.injEq]
      split
      · rename_i hi
        have hparam : type.params[i]? = some t := by
          obtain ⟨declared, hdeclared⟩ := hlocals
          rwa [← hdeclared, List.getElem?_append_left (by omega)] at hlocal
        cases harg : args[i]? with
        | none => simp
        | some v => exact hargs i v t harg hparam
      · simp

/-- The frame of a function starts typed when the arguments that fill its parameters
have their types; the other locals are zeros of theirs. -/
theorem Frame.ofFunction_sound {function : Nat} {args : List Value} {type : FuncType}
    (hmodule : m.WellTyped) (htype : m.functionType? function = some type)
    (hargs : ∀ (i : Nat) (v : Value) (t : ValType), args[i]? = some v →
      type.params[i]? = some t → v.type = t) :
    Sound (fun f => FrameTyped m f [] type.results.reverse)
      (Frame.ofFunction m (.function function) function args
        (some type.results.length)) := by
  unfold Frame.ofFunction
  split
  · simp [Sound, Trap.Stuck, Trap.code]
  · rename_i code hcode
    have hfunction := hmodule.functions function code type hcode htype
    have harity := Module.blockArity_of_signature? hfunction.block
    refine ⟨⟨code.locals.toList, [type.results.reverse], some type.results.reverse⟩, [],
      [], rfl, ?_, ?_, ?_⟩
    · rw [← List.length_reverse]
      exact .function
    · exact Code.types_locals hfunction.locals hfunction.params hargs
    · exact .root (List.prefix_refl _) rfl (by simp [harity]) hfunction.body rfl

/-- The frame of an initializer starts typed. -/
theorem Frame.ofGlobal_sound {index : Nat} {t : ValType} (hmodule : m.WellTyped)
    (hglobal : m.globalType? index = some t) :
    Sound (fun f => FrameTyped m f [] [t]) (Frame.ofGlobal m index) := by
  unfold Frame.ofGlobal
  split
  · simp [Sound, Trap.Stuck, Trap.code]
  · rename_i root hroot
    have hinit := hmodule.initializers index root t hroot hglobal
    have harity := Module.blockArity_of_signature? hinit.block
    refine ⟨⟨[], [[t]], none⟩, [], [], rfl, .initializer hglobal, rfl, ?_⟩
    exact .root rfl rfl (by simp [harity]) hinit.body rfl

/-! ### One step -/

variable {env : Env ω σ}

theorem World.trapAt_typed {w : World ω σ} {t : Trap} (p : Point)
    (hstore : w.store.Typed m) (ht : ¬ t.Stuck) : (w.trapAt m p t).Typed m final :=
  ⟨hstore, ht⟩

/-- A call pushes a typed frame onto a caller that waits for its answer, or traps. -/
theorem State.push_typed {s : State ω σ} {p : Point} {callee : Except Trap Frame}
    {waiting answer : StackType} (hstore : s.world.store.Typed env.module)
    (hcallee : Sound (fun f => FrameTyped env.module f [] waiting) callee)
    (hframe : FrameTyped env.module s.calls.top waiting answer)
    (hcallers : CallersTyped env.module final s.calls.callers answer) :
    (push env s p callee).Typed env.module final := by
  cases callee with
  | error t => exact World.trapAt_typed p hstore hcallee
  | ok f =>
      rw [push]
      split
      · exact World.trapAt_typed p hstore (by simp [Trap.Stuck, Trap.code])
      · exact ⟨hstore, waiting, hcallee, .cons hframe hcallers⟩

/-- A host function delivers values of its result types, and no global changes. -/
theorem World.callHost_sound {w : World ω σ} {function : Nat} {args : List Value}
    {type : FuncType} (hhosts : env.HostsTyped)
    (htype : env.module.functionType? function = some type)
    (hargs : args.map Value.type = type.params) :
    Sound (fun values => values.map Value.type = type.results)
      (w.callHost env function args).1 ∧
      (w.callHost env function args).2.store.globals = w.store.globals := by
  obtain ⟨⟨globals, memory, segments⟩, state, watch⟩ := w
  unfold callHost
  dsimp only
  split
  · exact ⟨by simp [Sound, Trap.Stuck, Trap.code], rfl⟩
  · rename_i host hhost
    rw [Option.join_eq_some_iff] at hhost
    obtain ⟨hresults, hvalue⟩ := hhosts function host type hhost htype
    rw [htype, Option.elim_some]
    split
    · exact ⟨by simp [Sound, Trap.Stuck, Trap.code], rfl⟩
    · rename_i value hreply
      split
      · rename_i hnone
        exact ⟨by simp [Sound, List.eq_nil_of_length_eq_zero hnone], rfl⟩
      · rename_i hsome
        cases value with
        | none => exact ⟨by simp [Sound, Trap.Stuck, Trap.code], rfl⟩
        | some v =>
            refine ⟨?_, rfl⟩
            obtain ⟨t, ht⟩ : ∃ t, type.results = [t] :=
              List.length_eq_one_iff.1 (by omega)
            have hv := hvalue state memory args v hargs hreply t (by simp [ht])
            simp [Sound, ht, hv]

/-- A frame that is handed what it waits for can go on. -/
theorem FrameTyped.deliver {f : Frame} {values : List Value}
    {waiting answer : StackType}
    (h : FrameTyped m f waiting answer)
    (hvalues : values.map Value.type = waiting.reverse) :
    FrameTyped m { f with stack := f.stack.pushMany values } [] answer := by
  obtain ⟨Γ, above, below, hstack, hresumes⟩ := h
  apply (hresumes.withStack _).typed
  rw [← hstack, Stack.types_pushMany, hvalues, List.reverse_reverse]

/-- Carrying out an action gives the waiting frame what it waits for, or a callee that
will. -/
theorem State.perform_typed {s : State ω σ} {p : Point} {action : Action}
    {waiting answer : StackType} (hmodule : env.module.WellTyped)
    (hhosts : env.HostsTyped)
    (haction : action.Awaits env.module waiting)
    (hstore : s.world.store.Typed env.module)
    (hframe : FrameTyped env.module s.calls.top waiting answer)
    (hcallers : CallersTyped env.module final s.calls.callers answer) :
    (perform env s p action).Typed env.module final := by
  cases haction with
  | proceed => exact ⟨hstore, answer, hframe, hcallers⟩
  | setGlobal hglobal =>
      refine ⟨hstore.setGlobal ?_, answer, hframe, hcallers⟩
      rintro v ⟨⟩
      exact hglobal
  | write => exact ⟨hstore.congr rfl, answer, hframe, hcallers⟩
  | grow => exact ⟨hstore.congr rfl, answer, hframe, hcallers⟩
  | dropSegment => exact ⟨hstore.congr rfl, answer, hframe, hcallers⟩
  | startGlobal hglobal =>
      exact push_typed (hstore.setGlobal (by simp))
        (Frame.ofGlobal_sound hmodule hglobal) hframe hcallers
  | @call function args type htype hargs =>
      refine push_typed hstore ?_ hframe hcallers
      rw [htype]
      apply Frame.ofFunction_sound hmodule htype
      intro i v t hv ht
      rw [← hargs, List.getElem?_map, hv] at ht
      exact Option.some.inj ht
  | @callHost function args type htype hargs =>
      obtain ⟨hvalues, hglobals⟩ := s.world.callHost_sound hhosts htype hargs
      rw [perform]
      dsimp only
      split
      · rename_i t w hcall
        rw [hcall] at hvalues hglobals
        exact World.trapAt_typed p (hstore.congr hglobals) hvalues
      · rename_i values w hcall
        rw [hcall] at hvalues hglobals
        refine ⟨hstore.congr hglobals, answer, ?_, hcallers⟩
        exact hframe.deliver (by rw [List.reverse_reverse]; exact hvalues)

/-- A fetched instruction runs in a frame that is typed for what it leaves. -/
theorem FrameTyped.fetch {f g : Frame} {node : Node} {answer : StackType}
    (h : FrameTyped m f [] answer) (hfetch : f.fetch? = some (node, g)) :
    ∃ Γ taken left extra below, g.stack.types = taken ++ (extra ++ below) ∧
      NodeTyped m Γ node taken left ∧ Resumes m g Γ answer (left ++ extra) below := by
  obtain ⟨Γ, above, below, hstack, hpromise, hlocals, hscopes⟩ := h
  obtain ⟨scope, outer, rest, houter, hrest, rfl⟩ := Frame.fetch?_eq_some hfetch
  obtain ⟨locals, labels, returns⟩ := Γ
  rw [houter] at hscopes
  cases hscopes with
  | @cons _ _ label labels _ results extra base htail hheight harity
      hbody hloop hexit =>
      rw [hrest] at hbody
      cases hbody with
      | @cons _ _ _ taken left beneath _ hnode hnodes =>
          refine ⟨_, taken, left, beneath, extra ++ base, ?_, hnode,
            hpromise, hlocals, ?_⟩
          · rw [← List.append_assoc]
            exact hstack
          · exact .cons htail hheight harity hnodes hloop hexit

/-- What a frame at its end hands over is what it has promised. -/
theorem FrameTyped.finish {f : Frame} {answer : StackType}
    (h : FrameTyped m f [] answer) (hscopes : f.scopes = []) :
    Sound (fun values => values.map Value.type = answer.reverse) f.finish := by
  obtain ⟨⟨locals, labels, returns⟩, above, below, hstack, hpromise, hlocals, htyped⟩ :=
    h
  dsimp only at hpromise htyped
  rw [hscopes] at htyped
  cases htyped with
  | nil hends =>
      rw [List.append_nil, List.nil_append] at hstack
      generalize hresults : f.results = results at hpromise
      generalize f.owner = owner at hpromise
      cases hpromise with
      | function =>
          obtain ⟨rest, hrest⟩ := hends
          rw [Frame.finish, hresults]
          apply (Stack.popMany_sound (hstack.trans hrest.symm)).map
          exact fun _ hpopped => hpopped.1
      | initializer =>
          rw [Frame.finish, hresults]
          have htypes : f.stack.map Value.type = _ := hstack.trans hends
          simp only [Sound, List.map_reverse, htypes]

/-- A frame that ends gives its values to its caller, or to the outside. -/
theorem State.handOver_typed {calls : CallStack} {w : World ω σ}
    {values pushed : List Value} {answer : StackType} (hstore : w.store.Typed m)
    (hcallers : CallersTyped m final calls.callers answer)
    (hvalues : values.map Value.type = answer.reverse)
    (hpushed : pushed.map Value.type = answer.reverse) :
    (handOver calls w values pushed).Typed m final := by
  rw [handOver]
  generalize hcalls : calls.callers = callers at hcallers
  cases hcallers with
  | nil =>
      rw [CallStack.pop?_eq_none hcalls]
      exact ⟨hstore, hvalues⟩
  | @cons f callers _ answer' hframe hcallers =>
      obtain ⟨below, hpop, htop, hbelow⟩ := CallStack.pop?_eq_some hcalls
      rw [hpop]
      refine ⟨hstore, answer', ?_, ?_⟩
      · rw [htop]
        exact hframe.deliver hpushed
      · rw [CallStack.callers_setTop, hbelow]
        exact hcallers

/-- The end of a frame.  An initializer's value has its global's type. -/
theorem State.finish_typed {s : State ω σ} (h : s.Typed env.module final)
    (hscopes : s.calls.top.scopes = []) : (finish env s).Typed env.module final := by
  obtain ⟨calls, world⟩ := s
  obtain ⟨hstore, answer, hframe, hcallers⟩ := h
  have hvalues := hframe.finish hscopes
  rw [State.finish]
  dsimp only at hvalues ⊢
  split
  · rename_i t hfinish
    rw [hfinish] at hvalues
    exact World.trapAt_typed _ hstore hvalues
  · rename_i values hfinish
    rw [hfinish] at hvalues
    obtain ⟨Γ, above, below, hstack, hpromise, -⟩ := hframe
    dsimp only at hpromise
    generalize calls.top.results = results at hpromise
    generalize Γ.returns = returns at hpromise
    generalize howner : calls.top.owner = owner at hpromise
    cases hpromise with
    | function => exact handOver_typed hstore hcallers hvalues hvalues
    | @initializer index t hglobal =>
        obtain ⟨v, rfl⟩ : ∃ v, values = [v] := by
          have hlength := congrArg List.length hvalues
          rw [List.length_map] at hlength
          exact List.length_eq_one_iff.1 hlength
        refine handOver_typed (hstore.setGlobal ?_) hcallers hvalues hvalues
        rintro u ⟨⟩
        rw [hglobal]
        have hv : [Value.type v] = [t] := hvalues
        rw [List.cons.inj hv |>.1]

/-- An instruction, once the frame has gone past it. -/
theorem State.fetched_typed {s : State ω σ} {node : Node} {Γ : Context}
    {answer taken left extra below : StackType} (hmodule : env.module.WellTyped)
    (hhosts : env.HostsTyped) (hobserver : env.observer.Fair)
    (hstore : s.world.store.Typed env.module)
    (hframe : Resumes env.module s.calls.top Γ answer (left ++ extra) below)
    (hnode : NodeTyped env.module Γ node taken left)
    (hstack : s.calls.top.stack.types = taken ++ (extra ++ below))
    (hcallers : CallersTyped env.module final s.calls.callers answer) :
    (fetched env s node).Typed env.module final := by
  obtain ⟨calls, store, host, watch⟩ := s
  have hexecute := Frame.execute_sound hstore hframe hnode hstack
  rw [fetched]
  split
  · rename_i e watch hstep
    have hfair := hobserver _ _ e (congrArg Prod.fst hstep)
    exact ⟨hstore, fun hstuck => hfair ((e.stuck_chargedTo _).mp hstuck)⟩
  · split
    · rename_i t hresult
      rw [hresult] at hexecute
      exact World.trapAt_typed _ hstore hexecute
    · rename_i g action hresult
      rw [hresult] at hexecute
      obtain ⟨waiting, haction, hg⟩ := hexecute
      exact perform_typed hmodule hhosts haction hstore hg hcallers

/-- One step of the machine keeps a run typed. -/
theorem State.advance_typed {s : State ω σ} (hmodule : env.module.WellTyped)
    (hhosts : env.HostsTyped) (hobserver : env.observer.Fair)
    (h : s.Typed env.module final) :
    (advance env s).Typed env.module final := by
  rcases s.calls.top.scopes_cases with hend | ⟨scope, outer, hscopes, hrest⟩ |
    ⟨node, f, hfetch⟩
  · rw [advance_of_finished hend]
    exact finish_typed h hend
  · rw [advance_of_empty hscopes hrest]
    obtain ⟨hstore, answer, ⟨⟨locals, labels, returns⟩, above, below, hstack,
      hpromise, hlocals, htyped⟩, hcallers⟩ := h
    refine ⟨hstore, answer, ?_, hcallers⟩
    rw [hscopes] at htyped
    cases htyped with
    | @cons _ _ label labels _ results extra base houter hheight harity
        hbody hloop hexit =>
        rw [hrest] at hbody
        cases hbody
        refine ⟨⟨locals, labels, returns⟩, above ++ extra, base, ?_, hpromise,
          hlocals, houter⟩
        rw [List.append_assoc]
        exact hstack
  · rw [advance_of_fetch hfetch]
    obtain ⟨hstore, answer, hframe, hcallers⟩ := h
    obtain ⟨Γ, taken, left, extra, below, hstack, hnode, hresumes⟩ :=
      hframe.fetch hfetch
    exact fetched_typed hmodule hhosts hobserver hstore hresumes hnode hstack hcallers

/-- A run of any length keeps the globals typed, does not get stuck, and returns
values of the types promised. -/
theorem State.run_typed (hmodule : env.module.WellTyped) (hhosts : env.HostsTyped)
    (hobserver : env.observer.Fair) (fuel : Nat) {s : State ω σ}
    (h : s.Typed env.module final) :
    (run env fuel s).2.store.Typed env.module ∧
      (∀ e, (run env fuel s).1 = .error (.error e) → ¬ e.Stuck) ∧
      ∀ values, (run env fuel s).1 = .ok values →
        values.map Value.type = final.reverse := by
  induction fuel generalizing s with
  | zero => exact ⟨h.1, by simp [run], by simp [run]⟩
  | succ fuel ih =>
      have hstep := advance_typed hmodule hhosts hobserver h
      rw [run]
      split
      · rename_i next hadvance
        rw [hadvance] at hstep
        exact ih hstep
      · rename_i values world hadvance
        rw [hadvance] at hstep
        refine ⟨hstep.1, by simp, ?_⟩
        rintro _ ⟨⟩
        exact hstep.2
      · rename_i e world hadvance
        rw [hadvance] at hstep
        refine ⟨hstep.1.settle, ?_, by simp⟩
        rintro _ ⟨⟩
        exact hstep.2

/-- A run of a frame that starts typed. -/
theorem Env.runFrame?_typed (hmodule : env.module.WellTyped) (hhosts : env.HostsTyped)
    (hobserver : env.observer.Fair) {w : World ω σ} (hstore : w.store.Typed env.module)
    {frame : Except Trap Frame}
    (hframe : Sound (fun f => FrameTyped env.module f [] final) frame) (fuel : Nat) :
    (env.runFrame? fuel w frame).2.store.Typed env.module ∧
      (∀ e, (env.runFrame? fuel w frame).1 = .error (.error e) → ¬ e.Stuck) ∧
      ∀ values, (env.runFrame? fuel w frame).1 = .ok values →
        values.map Value.type = final.reverse := by
  cases frame with
  | error t =>
      refine ⟨hstore, ?_, by simp [runFrame?]⟩
      rintro _ ⟨⟩
      exact hframe
  | ok f => exact State.run_typed hmodule hhosts hobserver fuel ⟨hstore,
      final, hframe, .nil⟩

/-- Type soundness.  A call of a defined function of a well typed module, with
arguments of its parameters' types as far as there are both, never ends in a trap
that typing rules out, however long it runs; what it returns has the function's
result types in order; and at every point every global that has a value has one of
its declared type. -/
theorem invoke_type_sound (hmodule : env.module.WellTyped) (hhosts : env.HostsTyped)
    (hobserver : env.observer.Fair) {w : World ω σ} (hstore : w.store.Typed env.module)
    {function : Nat} {type : FuncType}
    (hdefined : env.module.importedFunctions ≤ function)
    (htype : env.module.functionType? function = some type) {args : List Value}
    (hargs : ∀ (i : Nat) (v : Value) (t : ValType), args[i]? = some v →
      type.params[i]? = some t → v.type = t) (fuel : Nat) :
    (env.invoke fuel w function args).2.store.Typed env.module ∧
      (∀ e, (env.invoke fuel w function args).1 = .error (.error e) → ¬ e.Stuck) ∧
      ∀ values, (env.invoke fuel w function args).1 = .ok values →
        values.map Value.type = type.results := by
  have hrun := Env.runFrame?_typed hmodule hhosts hobserver hstore
    (Frame.ofFunction_sound hmodule htype hargs) fuel
  rw [List.reverse_reverse] at hrun
  simpa only [Env.invoke, htype, if_neg (Nat.not_lt.2 hdefined)] using hrun

namespace TypingWitness

/-- A function from `i32` to `i64`: for a true argument it branches out with a
global's value, for a false one it falls through with a constant. -/
def code : Code where
  locals := #[.i32]
  params := 1
  body := .scope 0 .block (.func 0)
    [.plain 1 (.localGet 0),
      .scope 2 .ifThen (.value .i64) [.plain 3 (.globalGet 0), .plain 4 (.br 0)]
        (some [.plain 6 (.const (.i64 7))])] none

def sample : Module where
  types := #[⟨[.i32], [.i64]⟩]
  functions := #[0]
  globals := #[⟨.i64, false, [0x42, 0x2a, 0x0b],
    .scope 0 .block (.value .i64) [.plain 1 (.const (.i64 42))] none⟩]
  codes := #[code]

def setting : Env Unit Unit :=
  { module := sample, hosts := #[], observer := .silent, maxDepth := 2 }

def world : World Unit Unit :=
  ⟨.ofModule sample, (), ()⟩

theorem code_typed : FunctionTyped sample ⟨[.i32], [.i64]⟩ code := by
  refine ⟨List.prefix_refl _, rfl, rfl, ?_⟩
  let Γ : Context := ⟨[.i32], [[.i64]], some [.i64]⟩
  let inner : Context := { Γ with labels := [.i64] :: Γ.labels }
  have hlocal : NodeTyped sample Γ (.plain 1 (.localGet 0)) [] [.i32] :=
    .plain (.localGet rfl)
  have hglobal : NodeTyped sample inner (.plain 3 (.globalGet 0)) [] [.i64] :=
    .plain (.globalGet rfl)
  have hbr : NodeTyped sample inner (.plain 4 (.br 0)) ([.i64] ++ []) [.i64] :=
    .plain (.br rfl)
  have hconst : NodeTyped sample inner (.plain 6 (.const (.i64 7))) [] [.i64] :=
    .plain .const
  have hbody : BodyTyped sample inner [.plain 3 (.globalGet 0), .plain 4 (.br 0)] []
      [.i64] :=
    .cons hglobal (.cons hbr .nil)
  have hother : BodyTyped sample inner [.plain 6 (.const (.i64 7))] [] [.i64] :=
    .cons hconst .nil
  have hif : NodeTyped sample Γ (.scope 2 .ifThen (.value .i64)
      [.plain 3 (.globalGet 0), .plain 4 (.br 0)] (some [.plain 6 (.const (.i64 7))]))
      [.i32] [.i64] :=
    .ifElse (show sample.signature? _ = some ⟨[], [.i64]⟩ from rfl) hbody hother
  exact .cons hlocal (.cons hif .nil)

theorem sample_wellTyped : sample.WellTyped := by
  constructor
  · intro function c type hcode htype
    cases function with
    | zero =>
        obtain rfl := Option.some.inj hcode
        obtain rfl := Option.some.inj htype
        exact code_typed
    | succ n =>
        simp [Module.code?, sample, Module.importedFunctions,
          Module.functionImports] at hcode
  · intro index root t hroot hglobal
    cases index with
    | zero =>
        obtain rfl := Option.some.inj hroot
        obtain rfl := Option.some.inj hglobal
        have hconst : NodeTyped sample ⟨[], [[.i64]], none⟩
          (.plain 1 (.const (.i64 42))) []
          [.i64] := .plain .const
        exact ⟨rfl, .cons hconst .nil⟩
    | succ n =>
        simp [Module.initializer?, sample, Module.importedGlobals,
          Module.globalImports] at hroot

/-- A call with one argument too many runs the initializer, branches out of the `if`
and returns one `i64`. -/
theorem invoke_sample :
    ∃ values, (setting.invoke 20 world 0 [.i32 1, .f32 0]).1 = .ok values ∧
      values.map Value.type = [.i64] ∧
      (setting.invoke 20 world 0 [.i32 1, .f32 0]).2.store.Typed sample := by
  have hstore : world.store.Typed sample := by
    have hglobals : world.store.globals = #[.pending] := by
      simp [world, Store.ofModule, sample, Module.importedGlobals, Module.globalImports]
    intro index v hget
    rw [hglobals] at hget
    cases index <;> simp at hget
  have hargs : ∀ (i : Nat) (v : Value) (t : ValType),
      [Value.i32 1, .f32 0][i]? = some v → [ValType.i32][i]? = some t → v.type = t := by
    intro i v t hv ht
    cases i with
    | zero =>
        cases hv
        cases ht
        rfl
    | succ i => simp at ht
  have hhosts : setting.HostsTyped := by simp [Env.HostsTyped, setting]
  have hdefined : setting.module.importedFunctions ≤ 0 := Nat.le_refl 0
  have htype : setting.module.functionType? 0 = some ⟨[.i32], [.i64]⟩ := rfl
  have hsound := invoke_type_sound sample_wellTyped hhosts
    Observer.silent_fair hstore hdefined htype hargs 20
  have hresult : (setting.invoke 20 world 0 [.i32 1, .f32 0]).1 = .ok [.i64 42] := by
    with_unfolding_all rfl
  exact ⟨[.i64 42], hresult, hsound.2.2 _ hresult, hsound.1⟩

end TypingWitness

end WasmVm
