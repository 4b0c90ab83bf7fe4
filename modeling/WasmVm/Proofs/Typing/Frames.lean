/-
Typing of frames.  The stack of a frame is cut into one piece for each open
scope, and what is left of the scope fits its piece; a caller fits as soon as the
values it waits for are there.  An instruction keeps its frame typed.
-/
import WasmVm.Proofs.Typing.Operands

namespace WasmVm

/-- Whether a body may end on a stack of these types.  A function's results lie on
top of what it leaves behind; an initializer leaves its value and nothing else. -/
def Ends (returns : Option StackType) (answer types : StackType) : Prop :=
  if returns.isSome then answer <+: types else types = answer

/-- Open scopes over a stack, the part above the innermost scope's height apart from
the part below it. -/
inductive ScopesTyped (m : Module) (locals : List ValType) (returns : Option StackType)
    (answer : StackType) : List Scope → List StackType → StackType → StackType → Prop
  | nil {above} (hends : Ends returns answer above) :
      ScopesTyped m locals returns answer [] [] above []
  | cons {scope outer label labels above results extra below}
      (houter : ScopesTyped m locals returns answer outer labels
        (results ++ extra) below)
      (hheight : (extra ++ below).length = scope.height)
      (harity : label.length = scope.arity)
      (hrest : BodyTyped m ⟨locals, label :: labels, returns⟩ scope.rest above results)
      (hloop : scope.isLoop = true →
        BodyTyped m ⟨locals, label :: labels, returns⟩ scope.body label results)
      (hexit : scope.isLoop = false → label = results) :
      ScopesTyped m locals returns answer (scope :: outer) (label :: labels) above
        (extra ++ below)

/-- A body before its first instruction, as the only open scope. -/
theorem ScopesTyped.root {m : Module} {locals : List ValType}
    {returns : Option StackType}
    {answer : StackType} {scope : Scope} (hends : Ends returns answer answer)
    (hheight : scope.height = 0) (harity : answer.length = scope.arity)
    (hbody : BodyTyped m ⟨locals, [answer], returns⟩ scope.rest [] answer)
    (hloop : scope.isLoop = false) :
    ScopesTyped m locals returns answer [scope] [answer] [] [] := by
  have hnil : ScopesTyped m locals returns answer [] [] (answer ++ []) [] :=
    .nil (by rwa [List.append_nil])
  exact .cons hnil hheight.symm harity hbody (by simp [hloop]) (fun _ => rfl)

/-- What the owner of a frame promises its caller, and whether it may `return`. -/
inductive Promise (m : Module) : Owner → Option Nat → Option StackType →
    StackType → Prop
  | function {index answer} : Promise m (.function index) (some answer.length)
      (some answer) answer
  | initializer {index t} (hglobal : m.globalType? index = some t) :
      Promise m (.global index) none none [t]

theorem Ends.append (answer rest : StackType) :
    Ends (some answer) answer (answer ++ rest) :=
  List.prefix_append answer rest

/-- A `return` hands back what the frame has promised. -/
theorem Promise.returns_eq {m : Module} {owner : Owner} {results : Option Nat}
    {result answer : StackType} (h : Promise m owner results (some result) answer) :
    result = answer := by
  cases h
  rfl

/-- The frame is in order as soon as its stack has the types `above ++ below`. -/
structure Resumes (m : Module) (f : Frame) (Γ : Context)
    (answer above below : StackType) : Prop where
  promise : Promise m f.owner f.results Γ.returns answer
  locals : f.locals.toList.map Value.type = Γ.locals
  scopes : ScopesTyped m Γ.locals Γ.returns answer f.scopes Γ.labels above below

/-- A frame that waits for values of the types `waiting` and will then deliver
`answer`. -/
def FrameTyped (m : Module) (f : Frame) (waiting answer : StackType) : Prop :=
  ∃ Γ above below, waiting ++ f.stack.types = above ++ below ∧
    Resumes m f Γ answer above below

/-- What an action is allowed to be, and what its frame waits for afterwards. -/
inductive Action.Awaits (m : Module) : Action → StackType → Prop
  | proceed : Awaits m .proceed []
  | setGlobal {index v} (hglobal : m.globalType? index = some v.type) :
      Awaits m (.setGlobal index v) []
  | startGlobal {index t} (hglobal : m.globalType? index = some t) :
      Awaits m (.startGlobal index) [t]
  | write {start bytes} : Awaits m (.write start bytes) []
  | grow {pages} : Awaits m (.grow pages) []
  | dropSegment {segment} : Awaits m (.dropSegment segment) []
  | call {function args type} (htype : m.functionType? function = some type)
      (hargs : args.map Value.type = type.params) :
      Awaits m (.call function args) type.results.reverse
  | callHost {function args type} (htype : m.functionType? function = some type)
      (hargs : args.map Value.type = type.params) :
      Awaits m (.callHost function args) type.results.reverse

/-- Every global that has a value has one of its declared type. -/
def Store.Typed (m : Module) (store : Store) : Prop :=
  ∀ (index : Nat) (v : Value), store.globals[index]? = some (.ready v) →
    m.globalType? index = some v.type

variable {m : Module} {f : Frame} {Γ : Context} {answer : StackType}

/-- A frame that needs nothing more is typed by its own stack. -/
theorem Resumes.typed {above below : StackType} (h : Resumes m f Γ answer above below)
    (hstack : f.stack.types = above ++ below) : FrameTyped m f [] answer :=
  ⟨Γ, above, below, hstack, h⟩

/-- Only the stack is free to change. -/
theorem Resumes.withStack {above below : StackType}
    (h : Resumes m f Γ answer above below)
    (stack : Stack) : Resumes m { f with stack } Γ answer above below :=
  ⟨h.promise, h.locals, h.scopes⟩

/-- What a branch finds: a scope that carries the label's values, on a stack that is
cut where one of the pieces below begins. -/
theorem ScopesTyped.drop {locals : List ValType} {returns : Option StackType}
    {scopes : List Scope} {labels : List StackType} {above below label : StackType}
    (h : ScopesTyped m locals returns answer scopes labels above below) {depth : Nat}
    (hlabel : labels[depth]? = some label) :
    ∃ scope outer rest results extra base,
      scopes.drop depth = scope :: outer ∧
      (extra ++ base) <:+ below ∧ (extra ++ base).length = scope.height ∧
      label.length = scope.arity ∧
      ScopesTyped m locals returns answer outer rest (results ++ extra) base ∧
      (scope.isLoop = true →
        BodyTyped m ⟨locals, label :: rest, returns⟩ scope.body label results) ∧
      (scope.isLoop = false → label = results) := by
  induction h generalizing depth with
  | nil _ => simp at hlabel
  | @cons scope outer first labels above results extra below houter hheight
      harity hrest hloop
      hexit ih =>
      cases depth with
      | zero =>
          simp only [List.getElem?_cons_zero, Option.some.injEq] at hlabel
          subst hlabel
          exact ⟨scope, outer, labels, results, extra, below, rfl,
            List.suffix_refl _, hheight, harity, houter, hloop, hexit⟩
      | succ depth =>
          rw [List.getElem?_cons_succ] at hlabel
          obtain ⟨target, around, rest, results', extra', base, hdrop,
            hsuffix, htarget⟩ :=
            ih hlabel
          refine ⟨target, around, rest, results', extra', base, ?_, ?_, htarget⟩
          · simpa using hdrop
          · exact hsuffix.trans (List.suffix_append extra below)

/-- The values that a branch keeps end up right above the target's height. -/
theorem pushMany_drop_types {below : Stack} {kept : List Value} {label base : StackType}
    (hkept : kept.map Value.type = label.reverse) (hbase : base <:+ below.types) :
    (Stack.pushMany kept (below.drop (below.length - base.length))).types =
      label ++ base := by
  have hdrop : below.types.drop (below.length - base.length) = base := by
    obtain ⟨front, hfront⟩ := hbase
    have hlength : front.length = below.length - base.length := by
      have := congrArg List.length hfront
      simp only [List.length_append, Stack.length_types] at this
      omega
    rw [← hfront, ← hlength, List.drop_left]
  rw [Stack.types_pushMany, Stack.types_drop, hdrop, hkept, List.reverse_reverse]

/-- A branch to a label whose values are on top of the stack keeps the frame typed. -/
theorem Frame.branch_sound {above below label extra : StackType} {depth : Nat}
    (hframe : Resumes m f Γ answer above below) (hlabel : Γ.labels[depth]? = some label)
    (hstack : f.stack.types = label ++ (extra ++ below)) :
    Sound (fun g => FrameTyped m g [] answer) (f.branch depth) := by
  obtain ⟨scope, outer, rest, results, more, base, hdrop, hsuffix, hheight,
    harity, houter, hloop, hexit⟩ := hframe.scopes.drop hlabel
  have hpop := Stack.popMany_sound hstack
  rw [harity] at hpop
  rw [Frame.branch, hdrop]
  apply hpop.bind
  rintro ⟨kept, left⟩ ⟨hkept, hleft⟩
  have hbase : (more ++ base) <:+ left.types := by
    rw [hleft]
    exact hsuffix.trans (List.suffix_append extra below)
  have htypes := pushMany_drop_types hkept hbase
  rw [hheight] at htypes
  dsimp only
  split
  · rename_i hisLoop
    refine ⟨{ Γ with labels := label :: rest }, label, more ++ base,
      htypes, hframe.promise, hframe.locals, ?_⟩
    exact .cons houter hheight harity (hloop hisLoop) hloop hexit
  · rename_i hisLoop
    have hsame : label = results := hexit (by simpa using hisLoop)
    refine ⟨{ Γ with labels := rest }, results ++ more, base, ?_, hframe.promise,
      hframe.locals, houter⟩
    rw [List.nil_append, List.append_assoc, ← hsame]
    exact htypes

/-- Entering a scope whose parameters are on the stack keeps the frame typed. -/
theorem Frame.enter_typed {kind : ScopeKind} {block : BlockType} {type : FuncType}
    {body : List Node} {extra below : StackType}
    (hframe : Resumes m f Γ answer (type.results.reverse ++ extra) below)
    (hblock : m.signature? block = some type)
    (hstack : f.stack.types = type.params.reverse ++ (extra ++ below))
    (hbody : BodyTyped m { Γ with labels :=
        (if kind = .loop then type.params.reverse
          else type.results.reverse) :: Γ.labels } body
      type.params.reverse type.results.reverse) :
    FrameTyped m (f.enter m kind block body) [] answer := by
  have harity := Module.blockArity_of_signature? hblock
  have hheight : (extra ++ below).length = f.stack.length - type.params.length := by
    have := congrArg List.length hstack
    simp only [Stack.length_types, List.length_append, List.length_reverse] at this
    simp only [List.length_append]
    omega
  by_cases hkind : kind = .loop
  · subst hkind
    refine ⟨{ Γ with labels := type.params.reverse :: Γ.labels }, type.params.reverse,
      extra ++ below, ?_, hframe.promise, hframe.locals, ?_⟩
    · simpa [Frame.enter] using hstack
    · simp only [Frame.enter, harity]
      exact .cons hframe.scopes hheight (by simp) hbody (fun _ => hbody) (by simp)
  · rw [if_neg hkind] at hbody
    refine ⟨{ Γ with labels := type.results.reverse :: Γ.labels }, type.params.reverse,
      extra ++ below, ?_, hframe.promise, hframe.locals, ?_⟩
    · simpa [Frame.enter] using hstack
    · simp only [Frame.enter, harity]
      exact .cons hframe.scopes hheight (by simp [hkind]) hbody
        (by simp [hkind]) (fun _ => rfl)

end WasmVm
