/-
Calls and those who wait for them.  A callee starts afresh on its arguments, and a step
only ever moves the frame on top; so all callers stay as they are until the callee ends
and its values are put on the stack of the nearest one.
-/
import WasmVm.Proofs.Control.Refinement
import WasmVm.Proofs.Decoding.Indices
import WasmVm.Proofs.Globals.Cells

namespace WasmVm

variable {ω σ : Type}

/-! ### Frames -/

/-- A frame before the first instruction of a function.  It has an empty stack and a
local for each one declared; arguments fill the parameters from the left, and all else
is zero. -/
structure Frame.Begins (m : Module) (function : Nat) (code : Code) (type : FuncType)
    (args : List Value) (f : Frame) : Prop where
  code_eq : m.code? function = some code
  type_eq : m.functionType? function = some type
  owner : f.owner = .function function
  stack : f.stack = []
  scopes : f.scopes =
    [⟨code.body.body, code.body.body, 0, (m.blockArity code.body.blockType).2, false⟩]
  size : f.locals.size = code.locals.size
  filled : ∀ i, i < min code.params args.length → ∃ v, args[i]? = some v ∧
    f.locals[i]? = some v
  zeros : ∀ i t, min code.params args.length ≤ i → code.locals[i]? = some t →
    f.locals[i]? = some t.zero
  results : f.results = some type.results.length

/-- How an instruction puts a callee on top of its frame, which stands past it as `f`
and is then left as `caller`: a call takes its arguments off the stack, the deepest
first, and a global without a value has its initializer run. -/
inductive Frame.Calls (m : Module) (f : Frame) : Node → (caller callee : Frame) → Prop
  | function {id target code type callee} (henough : target.params ≤ f.stack.length)
      (hbegins : Frame.Begins m target.function code type
        (f.stack.take target.params).reverse callee) :
      Calls m f (.plain id (.call target))
        { f with stack := f.stack.drop target.params } callee
  | initializer {id index body} (hbody : m.initializer? index = some body) :
      Calls m f (.plain id (.globalGet index)) f
        (.ofBody m (.global index) body #[] none)

/-- What a frame leaves to its caller when it ends.  A function leaves as many values
as its signature has results, which are the top ones in order, and an initializer the
first value of its stack. -/
def Frame.Leaves (m : Module) (f : Frame) (values : List Value) : Prop :=
  match f.owner with
  | .function function => ∃ type, m.functionType? function = some type ∧
      type.results.length ≤ f.stack.length ∧
      values = (f.stack.take type.results.length).reverse
  | .global _ => ∃ v, f.stack.getLast? = some v ∧ values = [v]
  | .constant => False

namespace Frame

variable {m : Module} {function : Nat} {args : List Value} {f : Frame}

/-- A function with a body begins as it should, if the module is in range. -/
theorem begins_of_ofFunction (hm : m.InRange) (hsize : m.codes.size = m.functions.size)
    (h : ofFunction m (.function function) function args
      ((m.functionType? function).map (·.results.length)) = .ok f) :
    ∃ code type, f.Begins m function code type args := by
  unfold ofFunction at h
  split at h
  · cases h
  next code hcode =>
  obtain ⟨type, htype⟩ := hm.functionType?_eq_some (Module.lt_of_code? hsize hcode)
  have hparams : code.params ≤ code.locals.size := by
    refine (hm.codes code ?_).params
    unfold Module.code? at hcode
    split at hcode
    · cases hcode
    · exact Array.mem_of_getElem? hcode
  cases h
  refine ⟨code, type, hcode, htype, rfl, rfl, rfl, Array.size_mapIdx .., ?_,
    ?_, by simp [ofBody, htype]⟩
  · intro i hi
    have hlt : i < code.locals.size := by omega
    have harg : i < args.length := by omega
    refine ⟨args[i], List.getElem?_eq_getElem harg, ?_⟩
    simp [ofBody, hlt, harg, show i < code.params by omega]
  · intro i t hi ht
    rw [ofBody, Array.getElem?_mapIdx, ht]
    by_cases hparam : i < code.params
    · have harg : args.length ≤ i := by omega
      simp [harg]
    · simp [hparam]

theorem ofGlobal_eq_ok {index : Nat}
    (h : ofGlobal m index = .ok f) :
    ∃ body, m.initializer? index = some body ∧
      f = .ofBody m (.global index) body #[] none := by
  unfold ofGlobal at h
  split at h
  · cases h
  · next body hbody => exact ⟨body, hbody, (Except.ok.inj h).symm⟩

/-- What an instruction has done to its frame `f`, given what it asks for: only a call
or the read of a global asks for a callee. -/
def Asks (f : Frame) (node : Node) (after : Frame) : Action → Prop
  | .call function args => ∃ id target, node = .plain id (.call target) ∧
      target.function = function ∧ target.params ≤ f.stack.length ∧
      args = (f.stack.take target.params).reverse ∧
      after = { f with stack := f.stack.drop target.params }
  | .startGlobal index => (∃ id, node = .plain id (.globalGet index)) ∧ after = f
  | _ => True

theorem setLocal_results (f : Frame) (index : Nat) (v : Value) :
    Returns (fun g => g.results = f.results) (f.setLocal index v) := by
  unfold setLocal
  split
  · rfl
  · trivial

theorem branch_results (f : Frame) (depth : Nat) :
    Returns (fun g => g.results = f.results) (f.branch depth) := by
  unfold branch
  split
  · trivial
  · refine .bind fun kept _ => ?_
    dsimp only
    split <;> rfl

/-- Instructions on memory ask for no callee. -/
theorem executeMemory_asks (store : Store) (f g : Frame) (node : Node) (instr : Instr) :
    Returns (fun r => f.Asks node g r.2) (executeMemory store f.stack instr) := by
  cases instr with
  | load => exact .bind fun _ _ => .bind fun _ _ => .bind fun _ _ => trivial
  | store =>
      exact .bind fun _ _ => .bind fun _ _ => .bind fun _ _ => .bind fun _ _ =>
        .bind fun _ _ =>
        trivial
  | memorySize => exact .bind fun _ _ => trivial
  | memoryGrow =>
      refine .bind fun _ _ => .bind fun memory _ => ?_
      split <;> trivial
  | memoryFill =>
      exact .bind fun _ _ => .bind fun _ _ => .bind fun _ _ => .bind fun _ _ =>
        .bind fun _ _ =>
        trivial
  | memoryCopy =>
      exact .bind fun _ _ => .bind fun _ _ => .bind fun _ _ => .bind fun _ _ =>
        .bind fun _ _ =>
        .bind fun _ _ => trivial
  | memoryInit =>
      refine .bind fun _ _ => .bind fun _ _ => .bind fun _ _ => ?_
      dsimp only
      split
      · trivial
      · split
        · trivial
        · exact .bind fun _ _ => .bind fun _ _ => trivial
  | _ => trivial

theorem executePlain_asks (f : Frame) (store : Store) (id : Nat) (instr : Instr) :
    Returns (fun r => r.1.results = f.results ∧ f.Asks (.plain id instr) r.1 r.2)
      (f.executePlain store instr) := by
  have hbranch : ∀ (g : Frame) (depth : Nat), g.results = f.results →
      Returns (fun r => r.1.results = f.results ∧ f.Asks (.plain id instr) r.1 r.2)
        (g.branch depth >>= fun g => pure (g, Action.proceed)) := by
    intro g depth hg
    refine .bind fun after hafter => ⟨?_, trivial⟩
    exact ((branch_results g depth).ok hafter).trans hg
  cases instr with
  | unreachable | throwTag | rethrow | catchTag | catchAll | callIndirect => trivial
  | delegate | const | returnOp => exact ⟨rfl, trivial⟩
  | load | store | memorySize | memoryGrow | memoryCopy | memoryFill |
      memoryInit | dataDrop =>
      refine .bind fun r hr => ⟨rfl, ?_⟩
      exact (executeMemory_asks store f _ _ _).ok hr
  | br depth => exact hbranch f depth rfl
  | brIf depth =>
      refine .bind fun r _ => ?_
      dsimp only
      split
      · exact hbranch _ depth rfl
      · exact ⟨rfl, trivial⟩
  | brTable targets fallback => exact .bind fun r _ => hbranch _ _ rfl
  | call target =>
      refine .bind fun r hr => ?_
      unfold Stack.popMany at hr
      split at hr
      · cases hr
      · next henough =>
          cases hr
          dsimp only
          split
          · exact ⟨rfl, id, target, rfl, rfl, Nat.not_lt.mp henough, rfl, rfl⟩
          · exact ⟨rfl, trivial⟩
  | drop => exact .bind fun _ _ => ⟨rfl, trivial⟩
  | select => exact .bind fun _ _ => .bind fun _ _ => .bind fun _ _ => ⟨rfl, trivial⟩
  | localGet => exact .bind fun _ _ => ⟨rfl, trivial⟩
  | localSet index =>
      refine .bind fun r _ => .bind fun g hg => ⟨?_, trivial⟩
      exact (setLocal_results { f with stack := r.2 } index r.1).ok hg
  | localTee index =>
      refine .bind fun r _ => .bind fun g hg => ⟨?_, trivial⟩
      exact (setLocal_results f index r.1).ok hg
  | globalGet index =>
      refine .bind fun found _ => ?_
      cases found with
      | none => exact ⟨rfl, ⟨id, rfl⟩, rfl⟩
      | some v => exact ⟨rfl, trivial⟩
  | globalSet index =>
      refine .bind fun r _ => ?_
      dsimp only
      split
      · exact ⟨rfl, trivial⟩
      · trivial
  | numeric => exact .bind fun _ _ => ⟨rfl, trivial⟩

/-- Any instruction keeps the number of values that its frame owes. -/
theorem execute_asks {g : Frame} {action : Action} {node : Node} {store : Store}
    (h : f.execute m store node = .ok (g, action)) :
    g.results = f.results ∧ f.Asks node g action := by
  have hreturns : Returns (fun r => r.1.results = f.results ∧ f.Asks node r.1 r.2)
      (f.execute m store node) := by
    cases node with
    | plain id instr => exact executePlain_asks f store id instr
    | scope id kind type body alternative =>
        cases kind with
        | block | loop | tryBlock => exact ⟨rfl, trivial⟩
        | ifThen =>
            refine .bind fun r _ => ?_
            dsimp only
            split
            · exact ⟨rfl, trivial⟩
            · cases alternative <;> exact ⟨rfl, trivial⟩
  exact hreturns.ok h

end Frame

/-! ### Steps -/

/-- Which of a frame's values go to its caller. -/
def Owner.HandsOver : Owner → (values pushed : List Value) → Prop
  | global _, values, pushed => ∃ v rest, values = v :: rest ∧ pushed = [v]
  | _, values, pushed => pushed = values

namespace State

variable {env : Env ω σ} {s s' : State ω σ}

theorem handOver_frames {calls : CallStack} {world : World ω σ}
    {values pushed : List Value}
    (h : handOver calls world values pushed = .running s') :
    ∃ caller callers, calls.callers = caller :: callers ∧
      s'.calls.frames = { caller with stack := caller.stack.pushMany pushed } ::
        callers := by
  unfold handOver at h
  cases hcallers : calls.callers with
  | nil =>
      rw [CallStack.pop?_eq_none hcallers] at h
      cases h
  | cons caller callers =>
      obtain ⟨below, hpop, rfl, rfl⟩ := CallStack.pop?_eq_some hcallers
      rw [hpop] at h
      cases h
      exact ⟨_, _, rfl, rfl⟩

/-- A frame that ends leaves its values to its caller. -/
theorem finish_frames (h : finish env s = .running s') :
    ∃ values pushed caller callers, s.calls.top.finish = .ok values ∧
      s.calls.top.owner.HandsOver values pushed ∧ s.calls.callers = caller :: callers ∧
      s'.calls.frames = { caller with stack := caller.stack.pushMany pushed } ::
        callers := by
  unfold finish at h
  dsimp only at h
  split at h
  · cases h
  · next values hvalues =>
      cases howner : s.calls.top.owner with
      | function | constant =>
          rw [howner] at h
          obtain ⟨caller, callers, hcallers, hframes⟩ := handOver_frames h
          exact ⟨values, values, caller, callers, hvalues, rfl, hcallers, hframes⟩
      | global index =>
          rw [howner] at h
          cases values with
          | nil => cases h
          | cons v values =>
              obtain ⟨caller, callers, hcallers, hframes⟩ := handOver_frames h
              exact ⟨_, [v], caller, callers, hvalues, ⟨v, values, rfl, rfl⟩,
                hcallers, hframes⟩

/-- An instruction that asks for a callee calls it. -/
theorem Provides.calls {m : Module} (hm : m.InRange)
    (hsize : m.codes.size = m.functions.size)
    {f g callee : Frame} {node : Node} {action : Action} (h : Provides m action callee)
    (hasks : f.Asks node g action) : f.Calls m node g callee := by
  cases h with
  | function hcallee =>
      obtain ⟨id, target, rfl, rfl, henough, rfl, rfl⟩ := hasks
      obtain ⟨code, type, hbegins⟩ := Frame.begins_of_ofFunction hm hsize hcallee
      exact .function henough hbegins
  | initializer hcallee =>
      obtain ⟨⟨id, rfl⟩, rfl⟩ := hasks
      obtain ⟨body, hbody, rfl⟩ := Frame.ofGlobal_eq_ok hcallee
      exact .initializer hbody

/-- A step ends the running frame, moves it, or puts a callee on top of it.  The frames
below are as they were, but for the values that the nearest one gets from a frame that
has ended. -/
theorem advance_frames (hm : env.module.InRange)
    (hsize : env.module.codes.size = env.module.functions.size)
    (h : advance env s = .running s') :
    (∃ values pushed caller callers, s.calls.top.finish = .ok values ∧
      s.calls.top.owner.HandsOver values pushed ∧ s.calls.callers = caller :: callers ∧
      s'.calls.frames = { caller with stack := caller.stack.pushMany pushed } ::
        callers) ∨
    (∃ g, g.owner = s.calls.top.owner ∧ g.results = s.calls.top.results ∧
      s'.calls.frames = g :: s.calls.callers) ∨
    ∃ node f caller callee, s.calls.top.fetch? = some (node, f) ∧
      f.Calls env.module node caller callee ∧ caller.owner = s.calls.top.owner ∧
      caller.results = s.calls.top.results ∧
      s'.calls.frames = callee :: caller :: s.calls.callers := by
  rcases s.calls.top.scopes_cases with hscopes | ⟨scope, outer, hscopes, hrest⟩ |
    ⟨node, f, hfetch⟩
  · rw [advance_of_finished hscopes] at h
    exact .inl (finish_frames h)
  · rw [advance_of_empty hscopes hrest] at h
    cases h
    exact .inr (.inl ⟨{ s.calls.top with scopes := outer }, rfl, rfl, rfl⟩)
  · have hfetched : f.owner = s.calls.top.owner ∧ f.results = s.calls.top.results := by
      obtain ⟨scope, outer, rest, -, -, rfl⟩ := Frame.fetch?_eq_some hfetch
      exact ⟨rfl, rfl⟩
    rcases fetch_cases env hfetch with ⟨e, watch, -, hadvance, -⟩ |
      ⟨watch, -, ⟨t, -, hadvance, -⟩ | ⟨g, action, hexecute, hadvance, -⟩⟩
    · rw [hadvance] at h
      cases h
    · rw [hadvance] at h
      cases h
    · rw [hadvance] at h
      have howner := (Frame.execute_fits hexecute).1.trans hfetched.1
      obtain ⟨hresults, hasks⟩ := Frame.execute_asks hexecute
      rcases perform_frames h with ⟨stack, hframes⟩ | ⟨callee, hcallee, -, hframes⟩
      · exact .inr (.inl ⟨{ g with stack }, howner, hresults.trans hfetched.2, hframes⟩)
      · exact .inr (.inr ⟨node, f, g, callee, hfetch,
          hcallee.calls hm hsize hasks, howner, hresults.trans hfetched.2, hframes⟩)

end State

/-! ### Runs -/

/-- A callee that ends leaves what its signature promises, or the first value that an
initializer has. -/
theorem Frame.Calls.leaves {m : Module} {f caller callee now : Frame} {node : Node}
    {values pushed : List Value} (h : f.Calls m node caller callee)
    (howner : now.owner = callee.owner) (hresults : now.results = callee.results)
    (hfinish : now.finish = .ok values) (hpushed : now.owner.HandsOver values pushed) :
    now.Leaves m pushed := by
  unfold Frame.Leaves
  unfold Frame.finish at hfinish
  cases h with
  | function _ hbegins =>
      rw [howner, hbegins.owner] at hpushed ⊢
      rw [hresults, hbegins.results] at hfinish
      obtain rfl : pushed = values := hpushed
      dsimp only [Stack.popMany] at hfinish
      split at hfinish
      · cases hfinish
      · next henough =>
          cases hfinish
          exact ⟨_, hbegins.type_eq, Nat.not_lt.mp henough, rfl⟩
  | initializer =>
      rw [howner] at hpushed ⊢
      rw [hresults] at hfinish
      obtain ⟨v, rest, rfl, rfl⟩ := hpushed
      have hreverse : now.stack.reverse = v :: rest := Except.ok.inj hfinish
      refine ⟨v, ?_, rfl⟩
      rw [List.getLast?_eq_head?_reverse, hreverse]
      rfl

/-- A frame of the call stack is the running one or a caller. -/
theorem CallStack.frames_eq_append {c : CallStack}
    {above below : List Frame} {f : Frame} (h : c.frames = above ++ f :: below) :
    (above = [] ∧ c.top = f ∧ c.callers = below) ∨
      ∃ rest, above = c.top :: rest ∧ c.callers = rest ++ f :: below := by
  cases above with
  | nil =>
      obtain ⟨htop, hcallers⟩ := List.cons.inj h
      exact .inl ⟨rfl, htop, hcallers⟩
  | cons top rest =>
      obtain ⟨rfl, hcallers⟩ := List.cons.inj h
      exact .inr ⟨rest, rfl, hcallers⟩

theorem CallStack.length_frames (c : CallStack) :
    c.frames.length = c.callers.length + 1 := rfl

theorem CallStack.depth_eq_length (c : CallStack) :
    c.depth = c.frames.length := c.depth_eq

/-- A frame that a step takes off the call stack was on top of it, and has ended. -/
theorem State.advance_takes_off {env : Env ω σ} {s s' : State ω σ}
    (hm : env.module.InRange)
    (hsize : env.module.codes.size = env.module.functions.size)
    (hadvance : s.advance env = .running s') {above callers : List Frame}
    {now caller : Frame} (hframes : s.calls.frames = above ++ now :: caller :: callers)
    (hlower : s'.calls.frames.length < callers.length + 2) :
    above = [] ∧ ∃ values pushed, now.finish = .ok values ∧
    now.owner.HandsOver values pushed ∧
      s'.calls.frames = { caller with stack := caller.stack.pushMany pushed } ::
        callers := by
  have hlength := congrArg List.length hframes
  simp only [CallStack.length_frames, List.length_append, List.length_cons] at hlength
  rcases State.advance_frames hm hsize hadvance with
    ⟨values, pushed, nearest, others, hfinish, hpushed, hcallers, hafter⟩ |
      ⟨g, -, -, hafter⟩ |
    ⟨node, f, waiting, callee, -, -, -, -, hafter⟩
  · rcases CallStack.frames_eq_append hframes with ⟨habove, rfl, hbelow⟩ |
      ⟨rest, rfl, hbelow⟩
    · rw [hcallers] at hbelow
      obtain ⟨rfl, rfl⟩ := List.cons.inj hbelow
      exact ⟨habove, values, pushed, hfinish, hpushed, hafter⟩
    · rw [hcallers] at hlength
      simp only [hafter, List.length_cons] at hlower hlength
      omega
  · simp only [hafter, List.length_cons] at hlower
    omega
  · simp only [hafter, List.length_cons] at hlower
    omega

namespace FrameRun

variable {env : Env ω σ} {level : Nat} {s s' : State ω σ} {log : List (Node × Decision)}

theorem level_eq (hrun : FrameRun env level s log s') :
    s.calls.callers.length = level := by
  induction hrun with
  | start hlevel => exact hlevel
  | step _ _ _ ih => exact ih

/-- As long as a frame is on the call stack, those below it stay as they are, and what
it owes to its caller does not change. -/
theorem keeps_callers (hm : env.module.InRange)
    (hsize : env.module.codes.size = env.module.functions.size)
    (hrun : FrameRun env level s log s') (hlevel : level ≤ s'.calls.callers.length) :
    ∃ above now, s'.calls.frames = above ++ now :: s.calls.callers ∧
      now.owner = s.calls.top.owner ∧ now.results = s.calls.top.results := by
  induction hrun with
  | start => exact ⟨[], s.calls.top, rfl, rfl, rfl⟩
  | @step log mid after hbefore hmid hadvance ih =>
      obtain ⟨above, now, hframes, howner, hresults⟩ := ih hmid
      have hstart := hbefore.level_eq
      rcases State.advance_frames hm hsize hadvance with
        ⟨values, pushed, caller, callers, -, -, hcallers, hafter⟩ |
        ⟨g, hgowner, hgresults, hafter⟩ |
        ⟨node, f, caller, callee, -, -, hcowner, hcresults, hafter⟩
      · rcases CallStack.frames_eq_append hframes with ⟨-, -, hbelow⟩ |
          ⟨rest, -, hbelow⟩
        · -- The frame itself has ended, so it is no longer on the call stack.
          have hlength := after.calls.length_frames
          rw [hafter, List.length_cons] at hlength
          rw [← hstart, ← hbelow, hcallers, List.length_cons] at hlevel
          omega
        · rw [hcallers] at hbelow
          cases rest with
          | nil =>
              obtain ⟨rfl, rfl⟩ := List.cons.inj hbelow
              exact ⟨[], _, hafter, howner, hresults⟩
          | cons next rest =>
              obtain ⟨rfl, rfl⟩ := List.cons.inj hbelow
              exact ⟨_ :: rest, now, hafter, howner, hresults⟩
      · rcases CallStack.frames_eq_append hframes with ⟨-, rfl, hbelow⟩ |
          ⟨rest, -, hbelow⟩
        · rw [hbelow] at hafter
          exact ⟨[], g, hafter, hgowner.trans howner, hgresults.trans hresults⟩
        · rw [hbelow] at hafter
          exact ⟨g :: rest, now, hafter, howner, hresults⟩
      · rcases CallStack.frames_eq_append hframes with ⟨-, rfl, hbelow⟩ |
          ⟨rest, -, hbelow⟩
        · rw [hbelow] at hafter
          exact ⟨[callee], caller, hafter, hcowner.trans howner,
            hcresults.trans hresults⟩
        · rw [hbelow] at hafter
          exact ⟨callee :: caller :: rest, now, hafter, howner, hresults⟩

end FrameRun

/-- The frame that an operation starts with. -/
def Operation.Enters (m : Module) (f : Frame) : Operation → Prop
  | invoke function args => ∃ code type, f.Begins m function code type args
  | readGlobal index => ∃ body, m.initializer? index = some body ∧
      f = .ofBody m (.global index) body #[] none

theorem World.enter_eq_running {env : Env ω σ} {w : World ω σ}
    {frame : Except Trap Frame} {s : State ω σ} (h : w.enter env frame = .running s) :
    frame = .ok s.calls.top ∧ s.calls.callers = [] := by
  unfold World.enter at h
  split at h
  · cases h
  · cases h
    exact ⟨rfl, rfl⟩

theorem Operation.start_enters {env : Env ω σ} (hm : env.module.InRange)
    (hsize : env.module.codes.size = env.module.functions.size) {w : World ω σ}
    {op : Operation} {s : State ω σ} (h : op.start env w = .running s) :
    op.Enters env.module s.calls.top ∧ s.calls.callers = [] := by
  cases op with
  | invoke function args =>
      unfold start at h
      dsimp only at h
      split at h
      · cases h
      · next type htype =>
          split at h
          · split at h <;> cases h
          · obtain ⟨hframe, hcallers⟩ := World.enter_eq_running h
            refine ⟨Frame.begins_of_ofFunction hm hsize ?_, hcallers⟩
            rw [htype]
            exact hframe
  | readGlobal index =>
      unfold start at h
      dsimp only at h
      split at h
      · cases h
      · cases h
      · obtain ⟨hframe, hcallers⟩ := World.enter_eq_running h
        exact ⟨Frame.ofGlobal_eq_ok hframe, hcallers⟩

/-- A run starts with one frame, before the first instruction of what was asked for.  A
step that makes the call stack higher puts a callee on its frame, which begins on the
arguments that were taken off the caller's stack.  Until that callee ends, the frames
below it stay as they are; then the nearest one gets the values that the callee leaves,
and nothing else changes. -/
theorem callers_wait_unchanged {env : Env ω σ} {fuel : Nat} {bytes : Array UInt8}
    (hmodule : Module.decode fuel bytes = .ok env.module) :
    (∀ (w : World ω σ) (op : Operation) s, op.start env w = .running s →
      op.Enters env.module s.calls.top ∧ s.calls.callers = []) ∧
    ∀ s s₁ : State ω σ, s.advance env = .running s₁ → s.calls.depth < s₁.calls.depth →
      ∃ node f caller callee, s.calls.top.fetch? = some (node, f) ∧
        f.Calls env.module node caller callee ∧
        s₁.calls.frames = callee :: caller :: s.calls.callers ∧
        ∀ log s₂, FrameRun env s₁.calls.callers.length s₁ log s₂ →
          s₁.calls.depth ≤ s₂.calls.depth →
          ∃ above now, s₂.calls.frames = above ++ now :: caller :: s.calls.callers ∧
            now.owner = callee.owner ∧
            ∀ s₃, s₂.advance env = .running s₃ → s₃.calls.depth < s₁.calls.depth →
              above = [] ∧ ∃ values, now.Leaves env.module values ∧ s₃.calls.frames =
                { caller with stack := caller.stack.pushMany values } ::
                  s.calls.callers := by
  obtain ⟨hm, hsize⟩ := Module.decodeWith_inRange hmodule
  refine ⟨fun w op s hstart => Operation.start_enters hm hsize hstart, ?_⟩
  intro s s₁ hadvance hhigher
  simp only [CallStack.depth_eq_length] at hhigher ⊢
  rcases State.advance_frames hm hsize hadvance with
    ⟨_, _, caller, callers, -, -, hcallers, hframes⟩ | ⟨_, -, -, hframes⟩ |
    ⟨node, f, caller, callee, hfetch, hcalls, -, -, hframes⟩
  · rw [hframes] at hhigher
    simp only [CallStack.frames, hcallers, List.length_cons] at hhigher
    omega
  · rw [hframes] at hhigher
    exact absurd hhigher (Nat.lt_irrefl _)
  · obtain ⟨htop, hwaiting⟩ := List.cons.inj hframes
    refine ⟨node, f, caller, callee, hfetch, hcalls, hframes, ?_⟩
    intro log s₂ hrun hdepth
    obtain ⟨above, now, hnow, howner, hresults⟩ :=
      hrun.keeps_callers hm hsize (Nat.le_of_succ_le_succ hdepth)
    rw [hwaiting] at hnow
    rw [htop] at howner hresults
    refine ⟨above, now, hnow, howner, ?_⟩
    intro s₃ hlast hlower
    rw [hframes] at hlower
    obtain ⟨habove, values, pushed, hfinish, hpushed, hafter⟩ :=
      State.advance_takes_off hm hsize hlast hnow hlower
    exact ⟨habove, pushed, hcalls.leaves howner hresults hfinish hpushed, hafter⟩

namespace CallsWitness

/-- A function that subtracts, and one that calls it on two constants. -/
def bytes : List UInt8 :=
  [0x00, 0x61, 0x73, 0x6d, 0x01, 0x00, 0x00, 0x00,
    0x01, 0x0b, 0x02, 0x60, 0x02, 0x7f, 0x7f, 0x01, 0x7f, 0x60, 0x00, 0x01, 0x7f,
    0x03, 0x03, 0x02, 0x00, 0x01,
    0x0a, 0x12, 0x02, 0x07, 0x00, 0x20, 0x00, 0x20, 0x01, 0x6b, 0x0b,
    0x08, 0x00, 0x41, 0x05, 0x41, 0x03, 0x10, 0x00, 0x0b]

def module : Module where
  types := #[⟨[.i32, .i32], [.i32]⟩, ⟨[], [.i32]⟩]
  functions := #[0, 1]
  codes := #[
    ⟨#[.i32, .i32], 2, .scope 0 .block (.func 0)
      [.plain 1 (.localGet 0), .plain 2 (.localGet 1),
        .plain 3 (.numeric (.intBinary .w32 .sub))]
      none⟩,
    ⟨#[], 0, .scope 0 .block (.func 1)
      [.plain 1 (.const (.i32 5)), .plain 2 (.const (.i32 3)),
        .plain 3 (.call ⟨0, 0, 2, 1, none⟩)]
      none⟩]

theorem decode_bytes : Module.decode 0 bytes.toArray = .ok module := by
  with_unfolding_all rfl

def env : Env Unit Unit :=
  { module, hosts := #[], observer := .silent, maxDepth := 2 }

/-- The state after a step of a run that goes on. -/
def next (s : State Unit Unit) : State Unit Unit :=
  match s.advance env with
  | .running s' => s'
  | .done .. => s

/-- The second function before its call. -/
def before : State Unit Unit :=
  next (next ⟨.ofFrame (.ofBody module (.function 1)
    (.scope 0 .block (.func 1) module.codes[1].body.body none) #[] (some 1)),
    ⟨.ofModule module, (), ()⟩⟩)

def called : State Unit Unit := next before

/-- The first function with nothing left to run. -/
def ended : State Unit Unit := next (next (next (next called)))

theorem run_subtraction : ∃ log, FrameRun env 1 called log ended := by
  have hstart : FrameRun env 1 called [] called := .start rfl
  have hfirst :=
    hstart.step (by decide) (show called.advance env = .running (next called) from rfl)
  have hsecond := hfirst.step (by decide)
    (show (next called).advance env = .running (next (next called)) from rfl)
  have hthird := hsecond.step (by decide)
    (show (next (next called)).advance env = .running (next (next (next called)))
      from rfl)
  exact ⟨_, hthird.step (by decide) rfl⟩

/-- The difference comes back to a caller that has given both arguments away. -/
theorem subtraction_comes_back :
    Module.decode 0 bytes.toArray = .ok module ∧ before.advance env = .running called ∧
    (∃ log, FrameRun env 1 called log ended) ∧
    ended.advance env = .running (next ended) ∧
    (next ended).calls.top.stack = [.i32 2] ∧
    ∃ caller now values, called.calls.callers = [caller] ∧
      ended.calls.frames = [now, caller] ∧ now.Leaves module values ∧
      (next ended).calls.frames =
        [{ caller with stack := caller.stack.pushMany values }] := by
  obtain ⟨log, hrun⟩ := run_subtraction
  refine ⟨decode_bytes, rfl, ⟨log, hrun⟩, rfl, rfl, ?_⟩
  have hmodule : Module.decode 0 bytes.toArray = .ok env.module := decode_bytes
  obtain ⟨node, f, caller, callee, -, -, hframes, hwait⟩ :=
    (callers_wait_unchanged hmodule).2 before called rfl (by decide)
  obtain ⟨above, now, hnow, -, hends⟩ := hwait log ended hrun (by decide)
  obtain ⟨rfl, values, hleaves, hafter⟩ := hends (next ended) rfl (by decide)
  exact ⟨caller, now, values, (List.cons.inj hframes).2, hnow, hleaves, hafter⟩

end CallsWitness

end WasmVm
