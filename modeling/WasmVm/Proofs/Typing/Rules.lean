/-
Typing of bodies.  An instruction takes values of some types from the top of the
stack and leaves values of others; a sequence composes, and what lies below is
left alone.  Instructions after which control goes elsewhere have every type
that begins with their operands.
-/
import WasmVm.Machine.Run

namespace WasmVm

/-- Types of the values on a stack, the top one first. -/
abbrev StackType := List ValType

/-- The signature of a scope. -/
def Module.signature? (m : Module) : BlockType → Option FuncType
  | .empty => some ⟨[], []⟩
  | .value t => some ⟨[], [t]⟩
  | .func index => m.types[index]?

/-- The arity of a scope counts what its signature lists. -/
theorem Module.blockArity_of_signature? {m : Module} {block : BlockType}
    {type : FuncType} (h : m.signature? block = some type) :
    m.blockArity block = (type.params.length, type.results.length) := by
  cases block with
  | empty =>
      cases h
      rfl
  | value t =>
      cases h
      rfl
  | func index =>
      have hindex : m.types[index]? = some type := h
      simp only [blockArity, hindex]

/-- The type of the value that a load leaves. -/
def LoadOp.type : LoadOp → ValType
  | full t => t
  | part32 .. => .i32
  | part64 .. => .i64

/-- The type of the value that a store takes. -/
def StoreOp.type : StoreOp → ValType
  | full t => t
  | part32 _ => .i32
  | part64 _ => .i64

namespace NumOp

/-- The types of an operation's operands, the right one first. -/
def operands : NumOp → StackType
  | eqz w => [w.intType]
  | intCompare w _ => [w.intType, w.intType]
  | floatCompare w _ => [w.floatType, w.floatType]
  | intUnary w _ => [w.intType]
  | intBinary w _ => [w.intType, w.intType]
  | floatUnary w _ => [w.floatType]
  | floatBinary w _ => [w.floatType, w.floatType]
  | wrap => [.i64]
  | extend _ => [.i32]
  | truncate _ source _ => [source.floatType]
  | truncateSat _ source _ => [source.floatType]
  | convert _ source _ => [source.intType]
  | demote => [.f64]
  | promote => [.f32]
  | reinterpretFloat w => [w.floatType]
  | reinterpretInt w => [w.intType]
  | signExtend32 _ => [.i32]
  | signExtend64 _ => [.i64]

/-- The type of an operation's result. -/
def result : NumOp → ValType
  | eqz _ | intCompare .. | floatCompare .. => .i32
  | intUnary w _ | intBinary w _ => w.intType
  | floatUnary w _ | floatBinary w _ => w.floatType
  | wrap => .i32
  | extend _ => .i64
  | truncate target .. | truncateSat target .. => target.intType
  | convert target .. => target.floatType
  | demote => .f32
  | promote => .f64
  | reinterpretFloat w => w.intType
  | reinterpretInt w => w.floatType
  | signExtend32 _ => .i32
  | signExtend64 _ => .i64

end NumOp

/-- What a sequence of instructions may refer to. -/
structure Context where
  /-- Types of the locals, parameters first. -/
  locals : List ValType
  /-- What a branch to each open scope carries, the innermost scope first. -/
  labels : List StackType
  /-- What a `return` hands back; the initializer of a global has no `return`. -/
  returns : Option StackType

/-- Instructions that open no scope.  A `catch` has no type, since it only marks a
handler and handlers never run. -/
inductive InstrTyped (m : Module) (Γ : Context) : Instr → StackType → StackType → Prop
  | unreachable {taken left} : InstrTyped m Γ .unreachable taken left
  | throwTag {tag taken left} : InstrTyped m Γ (.throwTag tag) taken left
  | rethrow {depth taken left} : InstrTyped m Γ (.rethrow depth) taken left
  | delegate {depth} : InstrTyped m Γ (.delegate depth) [] []
  | br {depth label below left} (hlabel : Γ.labels[depth]? = some label) :
      InstrTyped m Γ (.br depth) (label ++ below) left
  | brIf {depth label} (hlabel : Γ.labels[depth]? = some label) :
      InstrTyped m Γ (.brIf depth) (.i32 :: label) label
  | brTable {targets fallback label below left}
      (hlabels : ∀ depth ∈ fallback :: targets, Γ.labels[depth]? = some label) :
      InstrTyped m Γ (.brTable targets fallback) (.i32 :: (label ++ below)) left
  | returnOp {answer below left} (hreturns : Γ.returns = some answer) :
      InstrTyped m Γ .returnOp (answer ++ below) left
  | call {target type} (htype : m.functionType? target.function = some type)
      (hparams : target.params = type.params.length) :
      InstrTyped m Γ (.call target) type.params.reverse type.results.reverse
  | callIndirect {typeIndex table type} (htype : m.types[typeIndex]? = some type) :
      InstrTyped m Γ (.callIndirect typeIndex table) (.i32 :: type.params.reverse)
        type.results.reverse
  | drop {t} : InstrTyped m Γ .drop [t] []
  | select {t} : InstrTyped m Γ .select [.i32, t, t] [t]
  | localGet {index t} (hlocal : Γ.locals[index]? = some t) :
      InstrTyped m Γ (.localGet index) [] [t]
  | localSet {index t} (hlocal : Γ.locals[index]? = some t) :
      InstrTyped m Γ (.localSet index) [t] []
  | localTee {index t} (hlocal : Γ.locals[index]? = some t) :
      InstrTyped m Γ (.localTee index) [t] [t]
  | globalGet {index t} (hglobal : m.globalType? index = some t) :
      InstrTyped m Γ (.globalGet index) [] [t]
  | globalSet {index t} (hglobal : m.globalType? index = some t) :
      InstrTyped m Γ (.globalSet index) [t] []
  | load {op arg} : InstrTyped m Γ (.load op arg) [.i32] [op.type]
  | store {op arg} : InstrTyped m Γ (.store op arg) [op.type, .i32] []
  | memorySize : InstrTyped m Γ .memorySize [] [.i32]
  | memoryGrow : InstrTyped m Γ .memoryGrow [.i32] [.i32]
  | memoryCopy : InstrTyped m Γ .memoryCopy [.i32, .i32, .i32] []
  | memoryFill : InstrTyped m Γ .memoryFill [.i32, .i32, .i32] []
  | memoryInit {segment} : InstrTyped m Γ (.memoryInit segment) [.i32, .i32, .i32] []
  | dataDrop {segment} : InstrTyped m Γ (.dataDrop segment) [] []
  | const {v} : InstrTyped m Γ (.const v) [] [v.type]
  | numeric {op} : InstrTyped m Γ (.numeric op) op.operands [op.result]

mutual

/-- Any instruction.  Inside a scope a branch to it carries its results, or its
parameters if it is a loop.  A `try` is typed as a block. -/
inductive NodeTyped (m : Module) : Context → Node → StackType → StackType → Prop
  | plain {Γ id instr taken left} (hinstr : InstrTyped m Γ instr taken left) :
      NodeTyped m Γ (.plain id instr) taken left
  | block {Γ id kind block body alternative type}
      (hkind : kind = .block ∨ kind = .tryBlock)
      (hblock : m.signature? block = some type)
      (hbody : BodyTyped m { Γ with labels := type.results.reverse :: Γ.labels } body
        type.params.reverse type.results.reverse) :
      NodeTyped m Γ (.scope id kind block body alternative) type.params.reverse
        type.results.reverse
  | loop {Γ id block body alternative type} (hblock : m.signature? block = some type)
      (hbody : BodyTyped m { Γ with labels := type.params.reverse :: Γ.labels } body
        type.params.reverse type.results.reverse) :
      NodeTyped m Γ (.scope id .loop block body alternative) type.params.reverse
        type.results.reverse
  | ifThen {Γ id block body type} (hblock : m.signature? block = some type)
      (hsame : type.params = type.results)
      (hbody : BodyTyped m { Γ with labels := type.results.reverse :: Γ.labels } body
        type.params.reverse type.results.reverse) :
      NodeTyped m Γ (.scope id .ifThen block body none) (.i32 :: type.params.reverse)
        type.results.reverse
  | ifElse {Γ id block body other type} (hblock : m.signature? block = some type)
      (hbody : BodyTyped m { Γ with labels := type.results.reverse :: Γ.labels } body
        type.params.reverse type.results.reverse)
      (hother : BodyTyped m { Γ with labels := type.results.reverse :: Γ.labels } other
        type.params.reverse type.results.reverse) :
      NodeTyped m Γ (.scope id .ifThen block body (some other))
        (.i32 :: type.params.reverse) type.results.reverse

/-- A sequence of instructions; each leaves alone what lies below its operands. -/
inductive BodyTyped (m : Module) : Context → List Node → StackType → StackType → Prop
  | nil {Γ types} : BodyTyped m Γ [] types types
  | cons {Γ node nodes taken left below results} (hnode : NodeTyped m Γ node taken left)
      (hnodes : BodyTyped m Γ nodes (left ++ below) results) :
      BodyTyped m Γ (node :: nodes) (taken ++ below) results

end

/-- A function whose code keeps what its signature says. -/
structure FunctionTyped (m : Module) (type : FuncType) (code : Code) : Prop where
  /-- The locals begin with the parameters. -/
  locals : type.params <+: code.locals.toList
  params : code.params = type.params.length
  /-- The body as a whole is a block of the function's own type. -/
  block : m.signature? code.body.blockType = some type
  body : BodyTyped m ⟨code.locals.toList, [type.results.reverse],
    some type.results.reverse⟩ code.body.body [] type.results.reverse

/-- An initializer that leaves one value of the global's type. -/
structure InitializerTyped (m : Module) (t : ValType) (root : Node) : Prop where
  block : m.signature? root.blockType = some ⟨[], [t]⟩
  body : BodyTyped m ⟨[], [[t]], none⟩ root.body [] [t]

/-- Every function and every initializer of the module is well typed. -/
structure Module.WellTyped (m : Module) : Prop where
  functions : ∀ function code type, m.code? function = some code →
    m.functionType? function = some type → FunctionTyped m type code
  initializers : ∀ index root t, m.initializer? index = some root →
    m.globalType? index = some t → InitializerTyped m t root

end WasmVm
