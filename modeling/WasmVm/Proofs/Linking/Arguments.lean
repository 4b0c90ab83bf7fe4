/-
What becomes of the arguments of a call.  A function with a body gets just as many as
it has parameters: those left over are ignored and those that are missing are zero.  A
host function that is exported again gets the arguments as they are.
-/
import WasmVm.Proofs.Decoding.Consistency
import WasmVm.Proofs.Linking.Binding
import WasmVm.Proofs.Linking.Exports

namespace WasmVm

variable {ω σ : Type}

/-- Arguments cut to the number of parameters, or filled up with zeros of their types.
-/
def argumentsFor (params : List ValType) (args : List Value) : List Value :=
  args.take params.length ++ (params.drop args.length).map ValType.zero

/-- The parameters that a body was read with. -/
def Code.parameters (code : Code) : List ValType :=
  code.locals.toList.take code.params

theorem argumentsFor_of_length {params : List ValType} {args : List Value}
    (h : args.length = params.length) : argumentsFor params args = args := by
  rw [argumentsFor, List.drop_eq_nil_of_le (Nat.le_of_eq h.symm), ← h, List.take_length]
  exact List.append_nil args

/-- Each parameter has the argument in its place, or zero. -/
theorem getElem?_argumentsFor (params : List ValType) (args : List Value) (i : Nat) :
    (argumentsFor params args)[i]? = params[i]?.map fun type =>
      args[i]?.getD type.zero := by
  rw [argumentsFor, List.getElem?_append, List.length_take]
  split
  · next hgiven =>
    rw [List.getElem?_take_of_lt (by omega), List.getElem?_eq_getElem (by omega),
      List.getElem?_eq_getElem (by omega)]
    rfl
  · next hmissing =>
    rw [List.getElem?_map, List.getElem?_drop]
    by_cases hshort : args.length ≤ params.length
    · have hplace : args.length + (i - min params.length args.length) = i := by omega
      rw [hplace, List.getElem?_eq_none (l := args) (by omega)]
      rfl
    · have hnone : ∀ n, params.length ≤ n → params[n]? = none :=
        fun n => List.getElem?_eq_none
      rw [hnone _ (by omega), hnone _ (by omega)]
      rfl

/-- A function that is defined has a body with the parameters of its signature. -/
theorem Module.CodesFit.exists_code {m : Module} (hm : m.CodesFit) {function : Nat}
    {type : FuncType} (hdefined : m.importedFunctions ≤ function)
    (htype : m.functionType? function = some type) :
    ∃ code, m.code? function = some code ∧ code.parameters = type.params := by
  have hbound : function < m.importedFunctions + m.functions.size := by
    obtain ⟨typeIndex, hindex, -⟩ := Option.bind_eq_some_iff.mp htype
    have hnone : m.functionImport? function = none := List.getElem?_eq_none hdefined
    rw [functionTypeIndex?, hnone] at hindex
    have hlt := (Array.getElem?_eq_some_iff.mp hindex).1
    omega
  obtain ⟨code, typeIndex, type', hcode, -, htype', hfits⟩ :=
    hm function hdefined hbound
  obtain rfl : type = type' := Option.some.inj (htype.symm.trans htype')
  exact ⟨code, hcode, hfits.locals⟩

namespace Frame

/-- A function starts the same with the arguments made to fit. -/
theorem ofFunction_argumentsFor {m : Module} {function : Nat} {code : Code}
    (hcode : m.code? function = some code) (owner : Owner) (args : List Value)
    (results : Option Nat) :
    ofFunction m owner function (argumentsFor code.parameters args) results =
      ofFunction m owner function args results := by
  unfold ofFunction
  rw [hcode]
  dsimp only
  congr 2
  apply Array.ext
  · simp
  · intro i hi _
    have hi : i < code.locals.size := by simpa using hi
    simp only [Array.getElem_mapIdx]
    by_cases hparam : i < code.params
    · have htype : code.parameters[i]? = some code.locals[i] := by
        rw [Code.parameters, List.getElem?_take_of_lt hparam, Array.getElem?_toList,
          Array.getElem?_eq_getElem hi]
      rw [if_pos hparam, if_pos hparam, List.getElem?_toArray, List.getElem?_toArray,
        getElem?_argumentsFor, htype]
      rfl
    · rw [if_neg hparam, if_neg hparam]

end Frame

namespace Instance

variable {i : Instance ω σ} {function : Nat}

theorem callIndex_eq (i : Instance ω σ) (fuel function : Nat) (args : List Value) :
    i.callIndex fuel function args =
      ((i.env.invoke fuel i.world function args).1,
        ⟨i.env, (i.env.invoke fuel i.world function args).2⟩) := rfl

/-- A function with a body gets the arguments made to fit. -/
theorem callIndex_argumentsFor {code : Code}
    (hcode : i.env.module.code? function = some code) (fuel : Nat) (args : List Value) :
    i.callIndex fuel function (argumentsFor code.parameters args) =
      i.callIndex fuel function args := by
  have hdefined : ¬ function < i.env.module.importedFunctions := by
    intro himported
    rw [Module.code?, if_pos himported] at hcode
    cases hcode
  have hinvoke : i.env.invoke fuel i.world function
      (argumentsFor code.parameters args) = i.env.invoke fuel i.world
        function args := by
    unfold Env.invoke
    cases i.env.module.functionType? function with
    | none => rfl
    | some type =>
        simp only [if_neg hdefined, Frame.ofFunction_argumentsFor hcode]
  rw [callIndex_eq, callIndex_eq, hinvoke]

/-- A host function gets the arguments as they are. -/
theorem host_callIndex {type : FuncType} {host : HostFunction ω}
    (htype : i.env.module.functionType? function = some type)
    (himported : function < i.env.module.importedFunctions)
    (hbound : i.env.hosts[function]? = some (some host)) (fuel : Nat)
    (args : List Value) :
    (i.callIndex fuel function args).2.world.host =
      (host i.world.host i.world.store.memory args).state := by
  rw [← (i.world.callHost_of_bound hbound args).1, callIndex_eq]
  unfold Env.invoke
  rw [htype]
  dsimp only
  rw [if_pos himported]
  rcases i.world.callHost i.env function args with ⟨_ | _, _⟩ <;> rfl

/-- Nothing but the reply of the host function depends on the arguments. -/
theorem callIndex_congr_of_imported
    (himported : function < i.env.module.importedFunctions) {args args' : List Value}
    (hreply : ∀ host, i.env.hosts[function]? = some (some host) →
      host i.world.host i.world.store.memory args = host i.world.host
        i.world.store.memory args')
    (fuel : Nat) : i.callIndex fuel function args =
      i.callIndex fuel function args' := by
  have hcall : i.world.callHost i.env function args =
      i.world.callHost i.env function args' := by
    unfold World.callHost
    cases hhost : (i.env.hosts[function]?).join with
    | none => rfl
    | some host =>
        have hbound := Option.join_eq_some_iff.mp hhost
        simp only [hreply host hbound]
  have hinvoke : i.env.invoke fuel i.world function args =
      i.env.invoke fuel i.world function args' := by
    unfold Env.invoke
    simp only [if_pos himported, hcall]
  rw [callIndex_eq, callIndex_eq, hinvoke]

/-- A call takes just as many arguments as there are parameters. -/
def TakesArguments (i : Instance ω σ) (f : ExportedFunction) (args : List Value) :
    Prop :=
  ∀ fuel, i.callIndex fuel f.index args =
    i.callIndex fuel f.index (argumentsFor f.type.params args)

end Instance

/-- What becomes of the arguments of exported functions.  A body gets the arguments cut
to the number of its parameters, with zeros for those that are missing; the parameters
are those of the signature if there is one code section.  An import gets the arguments
as they are, so that only the right number of them, or a host function that tells no
difference, makes this hold for it. -/
theorem exported_functions_take_arguments {limit : Nat} {bytes : Array UInt8}
    {i : Instance ω σ} (hmodule : Module.decode limit bytes = .ok i.env.module) :
    (∀ function code, i.env.module.code? function = some code → ∀ fuel args,
      i.callIndex fuel function args =
        i.callIndex fuel function (argumentsFor code.parameters args)) ∧
    ∀ name f, i.env.module.exportedFunctions[name]? = some f ∨
      i.env.module.exportedFunction name = .ok f →
      ((Module.sectionIds bytes).count 10 ≤ 1 →
        i.env.module.importedFunctions ≤ f.index →
        ∀ args, i.TakesArguments f args) ∧
      (f.index < i.env.module.importedFunctions → ∀ host,
        i.env.hosts[f.index]? = some (some host) →
        ∀ args, (∀ fuel, (i.callIndex fuel f.index args).2.world.host =
            (host i.world.host i.world.store.memory args).state) ∧
          (args.length = f.type.params.length ∨
            host i.world.host i.world.store.memory args =
              host i.world.host i.world.store.memory (argumentsFor f.type.params args) →
            i.TakesArguments f args)) := by
  refine ⟨?_, ?_⟩
  · intro function code hcode fuel args
    exact (Instance.callIndex_argumentsFor hcode fuel args).symm
  · intro name f hf
    obtain ⟨-, htype⟩ := Module.of_mem_functionsOf (Module.mem_functionsOf_of_found hf)
    refine ⟨?_, ?_⟩
    · intro honce hdefined args fuel
      obtain ⟨code, hcode, hparameters⟩ :=
        (Module.codesFit_of_decode hmodule honce).exists_code hdefined htype
      rw [← hparameters]
      exact (Instance.callIndex_argumentsFor hcode fuel args).symm
    · intro himported host hbound args
      refine ⟨fun fuel => Instance.host_callIndex htype himported hbound fuel args, ?_⟩
      intro hsame fuel
      apply Instance.callIndex_congr_of_imported himported
      intro host' hbound'
      obtain rfl : host = host' :=
        Option.some.inj (Option.some.inj (hbound.symm.trans hbound'))
      rcases hsame with hlength | hreply
      · rw [argumentsFor_of_length hlength]
      · exact hreply

namespace ArgumentsWitness

/-- An import, and a function that returns its parameter, both of one parameter and
exported. -/
def bytes : List UInt8 :=
  [0x00, 0x61, 0x73, 0x6d, 0x01, 0x00, 0x00, 0x00,
    0x01, 0x06, 0x01, 0x60, 0x01, 0x7f, 0x01, 0x7f,
    0x02, 0x07, 0x01, 0x01, 0x6d, 0x01, 0x6e, 0x00, 0x00,
    0x03, 0x02, 0x01, 0x00,
    0x07, 0x09, 0x02, 0x01, 0x6e, 0x00, 0x00, 0x01, 0x66, 0x00, 0x01,
    0x0a, 0x06, 0x01, 0x04, 0x00, 0x20, 0x00, 0x0b]

def module : Module where
  types := #[⟨[.i32], [.i32]⟩]
  imports := #[⟨"m", "n", .function 0⟩]
  functions := #[0]
  exports := #[⟨"n", .function, 0⟩, ⟨"f", .function, 1⟩]
  codes := #[⟨#[.i32], 1, .scope 0 .block (.func 0) [.plain 1 (.localGet 0)] none⟩]

theorem decode_bytes : Module.decode 0 bytes.toArray = .ok module := by
  with_unfolding_all rfl

/-- Answers with its first argument. -/
def first : HostFunction Unit := fun _ memory args =>
  match args with
  | [] => ⟨.error ["no argument"], memory, ()⟩
  | v :: _ => ⟨.ok (some v), memory, ()⟩

def linked : Instance Unit Unit where
  env := { module, hosts := #[some first], observer := .silent, maxDepth := 1 }
  world := ⟨.ofModule module, (), ()⟩

/-- The import fails without an argument, and would not with the zero that is missing.
-/
theorem import_without_zero :
    Module.decode 0 bytes.toArray = .ok module ∧
    Instance.create module { functions := Offers.define [] ⟨"m", "n"⟩ first }
      1 .silent () () =
      .ok linked ∧
    (linked.call 5 "n" []).1 = .error
    (.error (.trap (.hostFailed "n" ["no argument"]) none)) ∧
    (linked.call 5 "n" (argumentsFor [.i32] [])).1 = .ok [.i32 0] := by
  refine ⟨decode_bytes, ?_, ?_, ?_⟩
  all_goals with_unfolding_all rfl

/-- The function as its export shows it. -/
def returnsArgument : ExportedFunction :=
  ⟨"f", 1, ⟨[.i32], [.i32]⟩⟩

/-- The function starts with the zero that is missing. -/
theorem function_with_zero :
    Module.decode 0 bytes.toArray = .ok module ∧
    linked.TakesArguments returnsArgument [] ∧
    (linked.call 5 "f" []).1 = .ok [.i32 0] := by
  have hmodule : Module.decode 0 bytes.toArray = .ok linked.env.module := decode_bytes
  have hids : Module.sectionIds bytes.toArray = [1, 2, 3, 7, 10] := by
    with_unfolding_all rfl
  have hfound : module.exportedFunction "f" = .ok returnsArgument := rfl
  obtain ⟨-, hexports⟩ := exported_functions_take_arguments hmodule
  obtain ⟨hbody, -⟩ := hexports "f" returnsArgument (.inr hfound)
  refine ⟨decode_bytes, hbody (by rw [hids]; decide) (by decide) [], ?_⟩
  with_unfolding_all rfl

end ArgumentsWitness

end WasmVm
