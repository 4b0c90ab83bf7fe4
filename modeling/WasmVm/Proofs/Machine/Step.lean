/-
What one step of the machine can be: the end of a frame, the end of a scope, or
an instruction.  Later modules speak of steps through these equations only.
-/
import WasmVm.Machine.Run

namespace WasmVm

/-- What a computation returns, if it returns, meets `post`. -/
def Returns {α : Type} (post : α → Prop) : Except Trap α → Prop
  | .ok a => post a
  | .error _ => True

namespace Returns

variable {α β : Type} {P : β → Prop}

theorem bind {x : Except Trap α} {next : α → Except Trap β}
    (h : ∀ a, x = .ok a → Returns P (next a)) : Returns P (x >>= next) := by
  cases x with
  | ok a => exact h a rfl
  | error t => trivial

theorem ok {x : Except Trap β} (h : Returns P x) {b : β} (hb : x = .ok b) : P b := by
  subst hb
  exact h

end Returns

namespace CallStack

variable {c : CallStack} {f : Frame} {callers : List Frame}

@[simp] theorem callers_setTop (c : CallStack) (f : Frame) :
    (c.setTop f).callers = c.callers := rfl

theorem pop?_eq_none (h : c.callers = []) : c.pop? = none := by
  unfold pop?
  split
  · rfl
  · simp_all

theorem pop?_eq_some (h : c.callers = f :: callers) :
    ∃ below, c.pop? = some below ∧ below.top = f ∧ below.callers = callers := by
  unfold pop?
  split
  · simp_all
  · rename_i g fs hcallers
    rw [h] at hcallers
    obtain ⟨rfl, rfl⟩ := List.cons.inj hcallers
    exact ⟨_, rfl, rfl, rfl⟩

end CallStack

/-- The instruction that a frame runs next, and the frame as it stands past it. -/
def Frame.fetch? (f : Frame) : Option (Node × Frame) :=
  match f.scopes with
  | ⟨node :: rest, body, height, arity, isLoop⟩ :: outer =>
    some (node, { f with scopes := ⟨rest, body, height, arity, isLoop⟩ :: outer })
  | _ => none

namespace State

variable {ω σ : Type} {env : Env ω σ} {s : State ω σ} {f : Frame}

/-- A frame without open scopes ends. -/
theorem advance_of_finished (h : s.calls.top.scopes = []) :
    advance env s = finish env s := by
  obtain ⟨⟨⟨owner, locals, stack, scopes, results⟩, callers, owners, depth, hdepth,
    howners⟩, world⟩ := s
  cases h
  rfl

/-- A scope with nothing left to run is left. -/
theorem advance_of_empty {scope : Scope} {outer : List Scope}
    (h : s.calls.top.scopes = scope :: outer) (hrest : scope.rest = []) :
    advance env s =
      .running ⟨s.calls.setTop { s.calls.top with scopes := outer }, s.world⟩ := by
  obtain ⟨⟨⟨owner, locals, stack, scopes, results⟩, callers, owners, depth, hdepth,
    howners⟩, world⟩ := s
  obtain ⟨rest, body, height, arity, isLoop⟩ := scope
  cases h
  cases hrest
  rfl

/-- Anything else is an instruction. -/
theorem advance_of_fetch {node : Node} (h : s.calls.top.fetch? = some (node, f)) :
    advance env s = fetched env ⟨s.calls.setTop f, s.world⟩ node := by
  obtain ⟨⟨⟨owner, locals, stack, scopes, results⟩, callers, owners, depth, hdepth,
    howners⟩, world⟩ := s
  match scopes with
  | [] => simp [Frame.fetch?] at h
  | ⟨[], _, _, _, _⟩ :: _ => simp [Frame.fetch?] at h
  | ⟨first :: rest, body, height, arity, isLoop⟩ :: outer =>
    simp only [Frame.fetch?, Option.some.injEq, Prod.mk.injEq] at h
    obtain ⟨rfl, rfl⟩ := h
    rfl

end State

/-- Every frame is at its end, at the end of a scope, or before an instruction. -/
theorem Frame.scopes_cases (f : Frame) :
    f.scopes = [] ∨ (∃ scope outer, f.scopes = scope :: outer ∧ scope.rest = []) ∨
      ∃ node g, f.fetch? = some (node, g) := by
  unfold Frame.fetch?
  match f.scopes with
  | [] => exact Or.inl rfl
  | ⟨[], body, height, arity, isLoop⟩ :: outer =>
    exact Or.inr (Or.inl ⟨⟨[], body, height, arity, isLoop⟩, outer, rfl, rfl⟩)
  | ⟨node :: rest, body, height, arity, isLoop⟩ :: outer =>
    exact Or.inr (Or.inr ⟨node, _, rfl⟩)

/-- A fetch takes the first node of what the innermost scope still has to run. -/
theorem Frame.fetch?_eq_some {f g : Frame} {node : Node}
    (h : f.fetch? = some (node, g)) :
    ∃ scope outer rest, f.scopes = scope :: outer ∧ scope.rest = node :: rest ∧
      g = { f with scopes := { scope with rest } :: outer } := by
  unfold Frame.fetch? at h
  split at h
  · rename_i first rest body height arity isLoop outer hscopes
    simp only [Option.some.injEq, Prod.mk.injEq] at h
    obtain ⟨rfl, rfl⟩ := h
    exact ⟨_, _, rest, hscopes, rfl, rfl⟩
  · simp at h

theorem Frame.fetch?_of_finished {f : Frame} (h : f.scopes = []) : f.fetch? = none := by
  rw [Frame.fetch?, h]

theorem Frame.fetch?_of_empty {f : Frame} {scope : Scope} {outer : List Scope}
    (h : f.scopes = scope :: outer) (hrest : scope.rest = []) : f.fetch? = none := by
  obtain ⟨rest, body, height, arity, isLoop⟩ := scope
  cases hrest
  rw [Frame.fetch?, h]

namespace State

variable {ω σ : Type} {env : Env ω σ} {s s' : State ω σ}

/-- The open scopes of all frames, those of the running one first. -/
def control (s : State ω σ) : List (List Scope) :=
  s.calls.frames.map (·.scopes)

theorem control_eq (s : State ω σ) :
    s.control = s.calls.top.scopes :: s.calls.callers.map (·.scopes) := rfl

theorem length_control (s : State ω σ) :
    s.control.length = s.calls.callers.length + 1 := by
  simp [control_eq]

theorem handOver_control {calls : CallStack} {world : World ω σ}
    {values pushed : List Value}
    (h : handOver calls world values pushed = .running s') :
    s'.control = calls.callers.map (·.scopes) := by
  unfold handOver at h
  cases hcallers : calls.callers with
  | nil =>
      rw [CallStack.pop?_eq_none hcallers] at h
      cases h
  | cons f callers =>
      obtain ⟨below, hpop, rfl, rfl⟩ := CallStack.pop?_eq_some hcallers
      rw [hpop] at h
      cases h
      rfl

/-- The end of a frame leaves its callers where they stand. -/
theorem finish_control (h : finish env s = .running s') :
    s'.control = s.control.tail := by
  unfold finish at h
  dsimp only at h
  split at h
  · cases h
  · split at h
    · split at h
      · cases h
      · exact handOver_control h
    · exact handOver_control h

/-- A callee goes on top of the frames that are there, which are not too many yet. -/
theorem push_frames {p : Point} {callee : Except Trap Frame}
    (h : push env s p callee = .running s') :
    ∃ frame, callee = .ok frame ∧ s.calls.depth < env.maxDepth ∧
      s'.calls.frames = frame :: s.calls.frames := by
  unfold push at h
  split at h
  · cases h
  · next frame =>
      split at h
      · cases h
      · next hdepth =>
          cases h
          exact ⟨frame, rfl, Nat.not_le.mp hdepth, rfl⟩

/-- The frame that an action puts on top. -/
inductive Provides (m : Module) : Action → Frame → Prop
  | function {function args callee}
      (h : Frame.ofFunction m (.function function) function args
        ((m.functionType? function).map (·.results.length)) = .ok callee) :
      Provides m (.call function args) callee
  | initializer {index callee} (h : Frame.ofGlobal m index = .ok callee) :
      Provides m (.startGlobal index) callee

/-- What an instruction asks for changes at most the stack of its frame, or puts a
frame on top. -/
theorem perform_frames {p : Point} {action : Action}
    (h : perform env s p action = .running s') :
    (∃ stack, s'.calls.frames = { s.calls.top with stack } :: s.calls.callers) ∨
    ∃ callee, Provides env.module action callee ∧ s.calls.depth < env.maxDepth ∧
      s'.calls.frames = callee :: s.calls.frames := by
  cases action with
  | proceed | setGlobal | write | grow | dropSegment =>
      cases h
      exact .inl ⟨s.calls.top.stack, rfl⟩
  | startGlobal =>
      obtain ⟨callee, hcallee, hdepth, hframes⟩ := push_frames h
      exact .inr ⟨callee, .initializer hcallee, hdepth, hframes⟩
  | call =>
      obtain ⟨callee, hcallee, hdepth, hframes⟩ := push_frames h
      exact .inr ⟨callee, .function hcallee, hdepth, hframes⟩
  | callHost =>
      unfold perform at h
      dsimp only at h
      split at h
      · cases h
      · next values world _ =>
          cases h
          exact .inl ⟨s.calls.top.stack.pushMany values, rfl⟩

/-- What an instruction asks for moves no frame; it may put one on top. -/
theorem perform_control {p : Point} {action : Action}
    (h : perform env s p action = .running s') :
    s'.control = s.control ∨ ∃ callee, Provides env.module action callee ∧
      s.calls.depth < env.maxDepth ∧ s'.control = callee.scopes :: s.control := by
  rcases perform_frames h with ⟨stack, hframes⟩ | ⟨callee, hcallee, hdepth, hframes⟩
  · exact .inl (by rw [control, hframes]; rfl)
  · exact .inr ⟨callee, hcallee, hdepth, by rw [control, hframes]; rfl⟩

/-- A step ends the running frame, leaves its innermost scope, or runs its next
instruction, which may put a frame on top. -/
theorem advance_control (h : advance env s = .running s') :
    (s.calls.top.scopes = [] ∧ s'.control = s.control.tail) ∨
    (∃ scope outer, s.calls.top.scopes = scope :: outer ∧ scope.rest = [] ∧
      s'.control = outer :: s.control.tail) ∨
    ∃ node f g action, s.calls.top.fetch? = some (node, f) ∧
      f.execute env.module s.world.store node = .ok (g, action) ∧
      (s'.control = g.scopes :: s.control.tail ∨
        ∃ callee, Provides env.module action callee ∧ s.calls.depth < env.maxDepth ∧
          s'.control = callee.scopes :: g.scopes :: s.control.tail) := by
  rcases s.calls.top.scopes_cases with hscopes | ⟨scope, outer, hscopes, hrest⟩ |
    ⟨node, f, hfetch⟩
  · rw [advance_of_finished hscopes] at h
    exact .inl ⟨hscopes, finish_control h⟩
  · rw [advance_of_empty hscopes hrest] at h
    cases h
    exact .inr (.inl ⟨scope, outer, hscopes, hrest, rfl⟩)
  · rw [advance_of_fetch hfetch] at h
    unfold fetched at h
    dsimp only at h
    split at h
    · cases h
    · split at h
      · cases h
      · next g action hexecute =>
          exact .inr (.inr ⟨node, f, g, action, hfetch, hexecute, perform_control h⟩)

end State

end WasmVm
