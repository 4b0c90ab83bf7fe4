/-
What a step can fail with.  Every function that an instruction is made of raises traps
about values, memory, globals or the call stack; that an instruction is not supported
is said in few places, and where it is said depends on the node alone.
-/
import WasmVm.Proofs.Control.WellNested
import WasmVm.Proofs.Observing.Erasure

namespace WasmVm

variable {ω σ : Type}

/-- A trap that an instruction of a kind that is supported raises for the values and the
state that it finds. -/
def Trap.Ordinary : Trap → Prop
  | notImplemented _ | callIndirect | noFunction _ => False
  | interrupted _ | busyCall | busyObserver | reported .. => False
  | _ => True

theorem Trap.Ordinary.code_ne {t : Trap} (h : t.Ordinary) :
    t.code ≠ .unimplemented := by
  cases t <;> first | exact h.elim | exact nofun

/-- Whatever the computation fails with is allowed. -/
def Raises {α : Type} (allowed : Trap → Prop) : Except Trap α → Prop
  | .ok _ => True
  | .error t => allowed t

namespace Raises

variable {α β : Type} {P : Trap → Prop} {x : Except Trap α}

theorem ok {a : α} : Raises P (.ok a : Except Trap α) := trivial

theorem bind {next : α → Except Trap β} (hx : Raises P x)
    (hnext : ∀ a, Raises P (next a)) :
    Raises P (x >>= next) := by
  cases x with
  | ok a => exact hnext a
  | error t => exact hx

theorem map {f : α → β} (hx : Raises P x) : Raises P (f <$> x) := by
  cases x with
  | ok a => trivial
  | error t => exact hx

theorem of_error (hx : Raises P x) {t : Trap} (h : x = .error t) : P t := by
  subst h
  exact hx

end Raises

/-! ### Operands -/

namespace Value

theorem asI32_raises (v : Value) : Raises Trap.Ordinary v.asI32 := by
  cases v <;> trivial

theorem asI64_raises (v : Value) : Raises Trap.Ordinary v.asI64 := by
  cases v <;> trivial

theorem asF32_raises (v : Value) : Raises Trap.Ordinary v.asF32 := by
  cases v <;> trivial

theorem asF64_raises (v : Value) : Raises Trap.Ordinary v.asF64 := by
  cases v <;> trivial

theorem asInt_raises (w : Width) (v : Value) : Raises Trap.Ordinary (v.asInt w) := by
  cases w with
  | w32 => exact v.asI32_raises
  | w64 => exact v.asI64_raises

theorem asFloat_raises (w : Width) (v : Value) :
    Raises Trap.Ordinary (v.asFloat w) := by
  cases w with
  | w32 => exact v.asF32_raises
  | w64 => exact v.asF64_raises

end Value

namespace Stack

theorem pop_raises (s : Stack) : Raises Trap.Ordinary s.pop := by
  cases s <;> trivial

theorem popI32_raises (s : Stack) : Raises Trap.Ordinary s.popI32 :=
  s.pop_raises.bind fun r => r.1.asI32_raises.bind fun _ => trivial

theorem popCondition_raises (s : Stack) : Raises Trap.Ordinary s.popCondition :=
  s.pop_raises.bind fun r => .bind (r.1.asI32_raises.bind fun _ => trivial)
    fun _ => trivial

theorem popMany_raises (count : Nat) (s : Stack) :
    Raises Trap.Ordinary (s.popMany count) := by
  unfold popMany
  split <;> trivial

theorem unary_raises {α : Type} {get : Value → Except Trap α}
    {f : α → Except Trap Value}
    (hget : ∀ v, Raises Trap.Ordinary (get v)) (hf : ∀ a, Raises Trap.Ordinary (f a))
    (s : Stack) :
    Raises Trap.Ordinary (s.unary get f) :=
  s.pop_raises.bind fun r => (hget r.1).bind fun a => (hf a).bind fun _ => trivial

theorem binary_raises {α : Type} {get : Value → Except Trap α}
    {f : α → α → Except Trap Value}
    (hget : ∀ v, Raises Trap.Ordinary (get v))
    (hf : ∀ a b, Raises Trap.Ordinary (f a b))
    (s : Stack) : Raises Trap.Ordinary (s.binary get f) :=
  s.pop_raises.bind fun r => (hget r.1).bind fun b => r.2.pop_raises.bind fun r' =>
    (hget r'.1).bind fun a => (hf a b).bind fun _ => trivial

end Stack

/-! ### Numbers -/

theorem IntBinary.apply_raises (w : Width) (op : IntBinary) (a b : BitVec w.bits) :
    Raises Trap.Ordinary (op.apply w a b) := by
  unfold IntBinary.apply
  split
  case h_4 | h_5 | h_6 | h_7 =>
    split
    · trivial
    · first | trivial | (split <;> trivial)
  all_goals trivial

theorem truncateFloat_raises (source target : Width) (s : Sign)
    (a : BitVec source.bits) :
    Raises Trap.Ordinary (truncateFloat source target s a) := by
  unfold truncateFloat
  dsimp only
  split
  · trivial
  · split
    · trivial
    · split <;> trivial

/-- Every numeric operation has a rule. -/
theorem NumOp.apply_raises (op : NumOp) (s : Stack) :
    Raises Trap.Ordinary (op.apply s) := by
  cases op with
  | eqz w | intUnary w | convert _ w | reinterpretInt w =>
      exact Stack.unary_raises (Value.asInt_raises w) (fun _ => .ok) s
  | floatUnary w | truncateSat _ w | reinterpretFloat w =>
      exact Stack.unary_raises (Value.asFloat_raises w) (fun _ => .ok) s
  | intCompare w => exact Stack.binary_raises (Value.asInt_raises w) (fun _ _ => .ok) s
  | floatCompare w | floatBinary w =>
      exact Stack.binary_raises (Value.asFloat_raises w) (fun _ _ => .ok) s
  | intBinary w op =>
      exact Stack.binary_raises (Value.asInt_raises w)
        (fun a b => (op.apply_raises w a b).map) s
  | truncate target source sign =>
      exact Stack.unary_raises (Value.asFloat_raises source)
        (fun a => (truncateFloat_raises source target sign a).map) s
  | wrap | signExtend64 => exact Stack.unary_raises Value.asI64_raises (fun _ => .ok) s
  | extend sign => cases sign <;>
      exact Stack.unary_raises Value.asI32_raises (fun _ => .ok) s
  | signExtend32 => exact Stack.unary_raises Value.asI32_raises (fun _ => .ok) s
  | demote => exact Stack.unary_raises Value.asF64_raises (fun _ => .ok) s
  | promote => exact Stack.unary_raises Value.asF32_raises (fun _ => .ok) s

/-! ### Memory and globals -/

theorem Memory.check_raises (m : Memory) (start length : Nat) :
    Raises Trap.Ordinary (m.check start length) := by
  unfold check
  split <;> trivial

theorem Memory.load_raises (m : Memory) (address offset length : Nat) :
    Raises Trap.Ordinary (m.load address offset length) :=
  (m.check_raises _ _).bind fun _ => trivial

theorem StoreOp.encode_raises (op : StoreOp) (v : Value) :
    Raises Trap.Ordinary (op.encode v) := by
  refine .map ?_
  unfold number
  split
  · exact v.asI32_raises.map
  · exact v.asI32_raises.map
  · exact v.asI64_raises.map
  · exact v.asI64_raises.map
  · exact v.asF32_raises.map
  · exact v.asF64_raises.map

theorem Store.needMemory_raises (store : Store) :
    Raises Trap.Ordinary store.needMemory := by
  unfold needMemory
  split <;> trivial

theorem Store.readGlobal_raises (store : Store) (index : Nat) :
    Raises Trap.Ordinary (store.readGlobal index) := by
  unfold readGlobal
  split <;> trivial

/-! ### Instructions -/

namespace Frame

theorem branch_raises (f : Frame) (depth : Nat) :
    Raises Trap.Ordinary (f.branch depth) := by
  unfold branch
  split
  · trivial
  · refine (Stack.popMany_raises ..).bind fun r => ?_
    dsimp only
    split <;> trivial

theorem getLocal_raises (f : Frame) (index : Nat) :
    Raises Trap.Ordinary (f.getLocal index) := by
  unfold getLocal
  split <;> trivial

theorem setLocal_raises (f : Frame) (index : Nat) (v : Value) :
    Raises Trap.Ordinary (f.setLocal index v) := by
  unfold setLocal
  split <;> trivial

/-- Every instruction on memory has a rule. -/
theorem executeMemory_raises (store : Store) (stack : Stack) {instr : Instr}
    (h : instr.opcode.category = .memory) :
    Raises Trap.Ordinary (executeMemory store stack instr) := by
  cases instr with
  | load op arg =>
      exact stack.popI32_raises.bind fun _ => store.needMemory_raises.bind fun memory =>
        (memory.load_raises ..).bind fun _ => trivial
  | store op arg =>
      exact stack.pop_raises.bind fun r => r.2.popI32_raises.bind fun _ =>
        store.needMemory_raises.bind fun memory => (op.encode_raises _).bind fun _ =>
          (memory.check_raises ..).bind fun _ => trivial
  | memorySize => exact store.needMemory_raises.bind fun _ => trivial
  | memoryGrow =>
      refine stack.popI32_raises.bind fun r =>
        store.needMemory_raises.bind fun memory => ?_
      split <;> trivial
  | memoryFill =>
      exact stack.popI32_raises.bind fun r => r.2.popI32_raises.bind fun r' =>
        r'.2.popI32_raises.bind fun _ => store.needMemory_raises.bind fun memory =>
          (memory.check_raises ..).bind fun _ => trivial
  | memoryCopy =>
      exact stack.popI32_raises.bind fun r => r.2.popI32_raises.bind fun r' =>
        r'.2.popI32_raises.bind fun _ => store.needMemory_raises.bind fun memory =>
          (memory.check_raises ..).bind fun _ =>
          (memory.check_raises ..).bind fun _ => trivial
  | memoryInit segment =>
      refine stack.popI32_raises.bind fun r => r.2.popI32_raises.bind fun r' =>
        r'.2.popI32_raises.bind fun _ => ?_
      dsimp only
      split
      · trivial
      · split
        · trivial
        · exact store.needMemory_raises.bind fun memory =>
            (memory.check_raises ..).bind fun _ => trivial
  | dataDrop => trivial
  | _ => cases h

/-- So has every other instruction that opens no scope, the marks of handlers and
`call_indirect` apart. -/
theorem executePlain_raises (store : Store) (f : Frame) {id : Nat} {instr : Instr}
    (hmark : (Node.plain id instr).isCatch = false)
    (hindirect : ∀ typeIndex table, instr ≠ .callIndirect typeIndex table) :
    Raises Trap.Ordinary (f.executePlain store instr) := by
  have hbranch : ∀ (g : Frame) (depth : Nat), Raises Trap.Ordinary
      (g.branch depth >>= fun g => pure (g, Action.proceed)) :=
    fun g depth => (g.branch_raises depth).bind fun _ => trivial
  cases instr with
  | unreachable | throwTag | rethrow | delegate | returnOp | const => trivial
  | catchTag | catchAll => cases hmark
  | callIndirect typeIndex table => exact absurd rfl (hindirect typeIndex table)
  | load | store | memorySize | memoryGrow | memoryCopy | memoryFill |
      memoryInit | dataDrop =>
      exact (executeMemory_raises store f.stack rfl).bind fun _ => trivial
  | br depth => exact hbranch f depth
  | brIf depth =>
      refine f.stack.popCondition_raises.bind fun r => ?_
      dsimp only
      split
      · exact hbranch _ depth
      · trivial
  | brTable targets fallback => exact f.stack.popI32_raises.bind fun _ => hbranch _ _
  | call target =>
      refine (f.stack.popMany_raises _).bind fun r => ?_
      dsimp only
      split <;> trivial
  | drop => exact f.stack.pop_raises.bind fun _ => trivial
  | select =>
      exact f.stack.popCondition_raises.bind fun r => r.2.pop_raises.bind fun r' =>
        r'.2.pop_raises.bind fun _ => trivial
  | localGet index => exact (f.getLocal_raises index).bind fun _ => trivial
  | localSet index =>
      exact f.stack.pop_raises.bind fun r =>
        (setLocal_raises _ index r.1).bind fun _ => trivial
  | localTee index =>
      exact f.stack.pop_raises.bind fun r =>
        (f.setLocal_raises index r.1).bind fun _ => trivial
  | globalGet index =>
      refine (store.readGlobal_raises index).bind fun found => ?_
      cases found <;> trivial
  | globalSet index =>
      refine f.stack.pop_raises.bind fun r => ?_
      dsimp only
      split <;> trivial
  | numeric op => exact (op.apply_raises f.stack).bind fun _ => trivial

/-- Any node that marks no handler is run by a rule of its own, unless it is a
`call_indirect`. -/
theorem execute_raises (m : Module) (store : Store) (f : Frame) {node : Node}
    (hmark : node.isCatch = false)
    (hindirect : ∀ id typeIndex table,
      node ≠ .plain id (.callIndirect typeIndex table)) :
    Raises Trap.Ordinary (f.execute m store node) := by
  cases node with
  | plain id instr =>
      refine executePlain_raises store f hmark fun typeIndex table h => ?_
      exact hindirect id typeIndex table (h ▸ rfl)
  | scope id kind type body alternative =>
      cases kind with
      | block | loop | tryBlock => trivial
      | ifThen =>
          refine f.stack.popCondition_raises.bind fun r => ?_
          dsimp only
          split
          · trivial
          · cases alternative <;> trivial

theorem ofFunction_raises (m : Module) (owner : Owner) (function : Nat)
    (args : List Value)
    (results : Option Nat) : Raises Trap.Ordinary
    (ofFunction m owner function args results) := by
  unfold ofFunction
  split <;> trivial

theorem ofGlobal_raises (m : Module) (index : Nat) :
    Raises Trap.Ordinary (ofGlobal m index) := by
  unfold ofGlobal
  split <;> trivial

end Frame

theorem World.callHost_raises (env : Env ω σ) (w : World ω σ) (function : Nat)
    (args : List Value) : Raises Trap.Ordinary (w.callHost env function args).1 := by
  unfold callHost
  dsimp only
  split
  · trivial
  · split
    · trivial
    · split
      · trivial
      · split <;> trivial

/-! ### Steps -/

/-- If the run fails here, then with a trap that is allowed. -/
def Outcome.FailsWith (allowed : Trap → Prop) : Outcome ω σ → Prop
  | running _ | done (.ok _) _ => True
  | done (.error (.trap t _)) _ => allowed t
  | done (.error _) _ => False

namespace State

variable {env : Env ω σ} {s : State ω σ}

theorem push_failsWith (env : Env ω σ) (s : State ω σ) (p : Point)
    {callee : Except Trap Frame}
    (h : Raises Trap.Ordinary callee) :
    (push env s p callee).FailsWith Trap.Ordinary := by
  cases callee with
  | error t => exact h
  | ok frame =>
      unfold push
      dsimp only
      split <;> trivial

theorem perform_failsWith (env : Env ω σ) (s : State ω σ) (p : Point)
    (action : Action) :
    (perform env s p action).FailsWith Trap.Ordinary := by
  cases action with
  | proceed | setGlobal | write | grow | dropSegment => trivial
  | startGlobal index => exact push_failsWith _ _ _ (Frame.ofGlobal_raises _ _)
  | call function args => exact push_failsWith _ _ _ (Frame.ofFunction_raises ..)
  | callHost function args =>
      have hhost := s.world.callHost_raises env function args
      unfold perform
      dsimp only
      generalize s.world.callHost env function args = reply at hhost ⊢
      obtain ⟨t | values, w⟩ := reply
      · exact hhost
      · trivial

theorem handOver_failsWith (calls : CallStack) (world : World ω σ)
    (values pushed : List Value) :
    (handOver calls world values pushed).FailsWith Trap.Ordinary := by
  unfold handOver
  split <;> trivial

theorem finish_failsWith (env : Env ω σ) (s : State ω σ) :
    (finish env s).FailsWith Trap.Ordinary := by
  have hfinish : Raises Trap.Ordinary s.calls.top.finish := by
    unfold Frame.finish
    split
    · trivial
    · exact (Stack.popMany_raises ..).map
  unfold finish
  dsimp only
  split
  · next t ht => exact hfinish.of_error ht
  · split
    · split
      · trivial
      · exact handOver_failsWith ..
    · exact handOver_failsWith ..

/-- A step that the observer permits fails with an ordinary trap, unless it is a
`call_indirect` or the mark of a handler. -/
theorem advance_failsWith (hpermitted : s.Permitted env)
    (hnode : ∀ node f, s.calls.top.fetch? = some (node, f) → node.isCatch = false ∧
      ∀ id typeIndex table, node ≠ .plain id (.callIndirect typeIndex table)) :
    (s.advance env).FailsWith Trap.Ordinary := by
  rcases s.calls.top.scopes_cases with hend | ⟨scope, outer, hscopes, hrest⟩ |
    ⟨node, f, hfetch⟩
  · rw [advance_of_finished hend]
    exact finish_failsWith env s
  · rw [advance_of_empty hscopes hrest]
    trivial
  · obtain ⟨hmark, hindirect⟩ := hnode node f hfetch
    obtain ⟨w, -, hadvance⟩ := advance_of_permitted hpermitted hfetch
    rw [hadvance]
    cases hexecute : f.execute env.module s.world.store node with
    | error t => exact (Frame.execute_raises _ _ f hmark hindirect).of_error hexecute
    | ok result => exact perform_failsWith ..

/-- A `call_indirect` that the observer permits always traps. -/
theorem advance_of_callIndirect (hpermitted : s.Permitted env)
    {id typeIndex table : Nat} {f : Frame}
    (hfetch : s.calls.top.fetch? =
      some (.plain id (.callIndirect typeIndex table), f)) :
    ∃ site w, s.advance env = .done (.error (.trap .callIndirect site)) w := by
  obtain ⟨w, -, hadvance⟩ := advance_of_permitted hpermitted hfetch
  exact ⟨_, w, hadvance⟩

/-- What a run fails with is what one of its steps fails with. -/
theorem exists_step_of_run_error {fuel : Nat} {e : Error}
    (h : (s.run env fuel).1 = .error (.error e)) :
    ∃ log t w, Runs env s log t ∧ t.advance env = .done (.error e) w := by
  obtain ⟨log, t, hruns, hcut | ⟨values, w, -, hreturned⟩ | ⟨e', w,
    hadvance, hfailed⟩⟩ :=
    run_ends env s fuel
  · rw [hcut] at h
    cases h
  · rw [hreturned] at h
    cases h
  · rw [hfailed] at h
    cases h
    exact ⟨log, t, w, hruns, hadvance⟩

end State

end WasmVm
