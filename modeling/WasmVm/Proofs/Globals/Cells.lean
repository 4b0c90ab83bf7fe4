/-
The state machine of a global.  Of all that an instance does, one global sees only
few things: it is read or set, its initializer starts, ends or is cut short.  Each
step of the machine is one of these to every global.
-/
import WasmVm.Proofs.Machine.History

namespace WasmVm

variable {ω σ : Type}

/-- The global that an event is about. -/
def Event.index? : Event → Option Nat
  | fetched _ | hostCalled _ => none
  | started index | set index .. | completed index _ | read index _ => some index

/-- The events about one global. -/
def eventsAbout (index : Nat) (log : List Event) : List Event :=
  log.filter fun e => e.index? = some index

@[simp] theorem eventsAbout_nil (index : Nat) : eventsAbout index [] = [] := rfl

@[simp] theorem eventsAbout_cons (index : Nat) (e : Event) (log : List Event) :
    eventsAbout index (e :: log) =
      if e.index? = some index then e :: eventsAbout index log
      else eventsAbout index log := by
  simp [eventsAbout, List.filter_cons]

theorem eventsAbout_append (index : Nat) (log more : List Event) :
    eventsAbout index (log ++ more) = eventsAbout index log ++ eventsAbout index more :=
  List.filter_append ..

/-- What is left of a global's state when a run fails. -/
def GlobalState.settled (g : GlobalState) : GlobalState :=
  if g = .evaluating then .pending else g

@[simp] theorem GlobalState.settled_eq_ready {g : GlobalState} {v : Value} :
    g.settled = .ready v ↔ g = .ready v := by
  cases g <;> simp [settled]

@[simp] theorem GlobalState.settled_ne_evaluating (g : GlobalState) :
    g.settled ≠ .evaluating := by
  cases g <;> simp [settled]

/-- A global as its state machine sees it. -/
structure Cell where
  /-- Its state, if there is such a global. -/
  state : Option GlobalState
  /-- How many frames of its initializer are on the call stack. -/
  frames : Nat

/-- A global at a moment. -/
def Moment.cell (m : Moment ω σ) (index : Nat) : Cell :=
  ⟨m.store.globals[index]?, m.owners.count (.global index)⟩

/-- The steps of the state machine. -/
inductive CellStep (index : Nat) : Cell → List Event → Cell → Prop
  | rest {c} : CellStep index c [] c
  | read {v frames} :
      CellStep index ⟨some (.ready v), frames⟩ [.read index v] ⟨some (.ready v), frames⟩
  | set {state v owners} :
      CellStep index ⟨some state, owners.count (.global index)⟩ [.set index v owners]
        ⟨some (.ready v), owners.count (.global index)⟩
  | start {frames} :
      CellStep index ⟨some .pending, frames⟩ [.started index]
        ⟨some .evaluating, frames + 1⟩
  /-- The value that an initializer leaves goes to its global, whatever that holds, and
  to whoever wanted it. -/
  | complete {state v frames} :
      CellStep index ⟨state, frames + 1⟩ [.completed index v, .read index v]
        ⟨state.map fun _ => .ready v, frames⟩
  | fail {state frames} : CellStep index ⟨state, frames⟩ []
      ⟨state.map GlobalState.settled, 0⟩
  /-- The initializer cannot start, so the run fails. -/
  | refuse {frames} :
      CellStep index ⟨some .pending, frames⟩ [.started index] ⟨some .pending, 0⟩

/-! ### Instructions -/

namespace Store

variable {store : Store} {index : Nat}

/-- A global gives its value exactly if it has one. -/
theorem readGlobal_eq_some {v : Value} :
    store.readGlobal index = .ok (some v) ↔
    store.globals[index]? = some (.ready v) := by
  unfold readGlobal
  split <;> simp_all

/-- Its initializer has to run first exactly if it is pending. -/
theorem readGlobal_eq_none :
    store.readGlobal index = .ok none ↔ store.globals[index]? = some .pending := by
  unfold readGlobal
  split <;> simp_all

end Store

/-- What an instruction must have found, given what it asks for and how it has left
its frame. -/
def Action.Fits (store : Store) (node : Node) (after : Frame) : Action → Prop
  | .proceed => node.readEvents after = [] ∨ ∃ index v,
      node.readEvents after = [.read index v] ∧ store.globals[index]? = some (.ready v)
  | .setGlobal index _ => index < store.globals.size
  | .startGlobal index => store.globals[index]? = some .pending
  | _ => True

namespace Frame

variable {f : Frame} {m : Module} {store : Store}

theorem setLocal_owner (f : Frame) (index : Nat) (v : Value) :
    Returns (fun g => g.owner = f.owner) (f.setLocal index v) := by
  unfold setLocal
  split
  · rfl
  · trivial

theorem branch_owner (f : Frame) (depth : Nat) :
    Returns (fun g => g.owner = f.owner) (f.branch depth) := by
  unfold branch
  split
  · trivial
  · apply Returns.bind
    rintro ⟨kept, below⟩ -
    dsimp only
    split <;> rfl

/-- Instructions on memory leave globals alone. -/
theorem executeMemory_fits {node : Node} (store : Store) (stack : Stack) (instr : Instr)
    {after : Frame} (hnode : node.readEvents after = []) :
    Returns (fun r => r.2.Fits store node after) (executeMemory store stack instr) := by
  have hproceed : Action.proceed.Fits store node after := .inl hnode
  cases instr with
  | load => exact .bind fun _ _ => .bind fun _ _ => .bind fun _ _ => hproceed
  | store =>
      exact .bind fun _ _ => .bind fun _ _ => .bind fun _ _ => .bind fun _ _ =>
        .bind fun _ _ =>
        trivial
  | memorySize => exact .bind fun _ _ => hproceed
  | memoryGrow =>
      refine .bind fun _ _ => .bind fun memory _ => ?_
      split
      · trivial
      · exact hproceed
  | memoryFill =>
      exact .bind fun _ _ => .bind fun _ _ => .bind fun _ _ => .bind fun _ _ =>
        .bind fun _ _ =>
        trivial
  | memoryCopy =>
      exact .bind fun _ _ => .bind fun _ _ => .bind fun _ _ => .bind fun _ _ =>
        .bind fun _ _ =>
        .bind fun _ _ => trivial
  | memoryInit =>
      refine .bind fun _ _ => .bind fun _ _ => .bind fun _ _ => ?_
      dsimp only
      split
      · trivial
      · split
        · trivial
        · exact .bind fun _ _ => .bind fun _ _ => trivial
  | dataDrop => trivial
  | _ => trivial

/-- An instruction that opens no scope. -/
theorem executePlain_fits (f : Frame) (store : Store) (id : Nat) (instr : Instr) :
    Returns (fun r => r.1.owner = f.owner ∧ r.2.Fits store (.plain id instr) r.1)
      (f.executePlain store instr) := by
  have hquiet : ∀ {g : Frame} {node : Node}, node.readEvents g = [] →
      Action.proceed.Fits store node g := .inl
  have hbranch : ∀ (g : Frame) (depth : Nat) (node : Node), g.owner = f.owner →
      (∀ after, node.readEvents after = []) →
      Returns (fun r => r.1.owner = f.owner ∧ r.2.Fits store node r.1)
        (g.branch depth >>= fun g => pure (g, Action.proceed)) := by
    intro g depth node hg hnode
    refine .bind fun after hafter => ?_
    exact ⟨((branch_owner g depth).ok hafter).trans hg, hquiet (hnode after)⟩
  cases instr with
  | unreachable | throwTag | rethrow | catchTag | catchAll | callIndirect => trivial
  | delegate | const | returnOp => exact ⟨rfl, hquiet rfl⟩
  | load | store | memorySize | memoryGrow | memoryCopy | memoryFill |
      memoryInit | dataDrop =>
      refine .bind fun r hr => ⟨rfl, ?_⟩
      exact (executeMemory_fits store f.stack _ rfl).ok hr
  | br depth => exact hbranch f depth _ rfl fun _ => rfl
  | brIf depth =>
      refine .bind fun r _ => ?_
      dsimp only
      split
      · exact hbranch _ depth _ rfl fun _ => rfl
      · exact ⟨rfl, hquiet rfl⟩
  | brTable targets fallback => exact .bind fun r _ => hbranch _ _ _ rfl fun _ => rfl
  | call target =>
      refine .bind fun r _ => ?_
      dsimp only
      split <;> exact ⟨rfl, trivial⟩
  | drop => exact .bind fun _ _ => ⟨rfl, hquiet rfl⟩
  | select => exact .bind fun _ _ => .bind fun _ _ => .bind fun _ _ => ⟨rfl, hquiet rfl⟩
  | localGet => exact .bind fun _ _ => ⟨rfl, hquiet rfl⟩
  | localSet index =>
      refine .bind fun r _ => .bind fun g hg => ⟨?_, hquiet rfl⟩
      exact (setLocal_owner { f with stack := r.2 } index r.1).ok hg
  | localTee index =>
      refine .bind fun r _ => .bind fun g hg => ⟨?_, hquiet rfl⟩
      exact (setLocal_owner _ index r.1).ok hg
  | globalGet index =>
      refine .bind fun found hfound => ?_
      cases found with
      | none => exact ⟨rfl, Store.readGlobal_eq_none.mp hfound⟩
      | some v =>
          exact ⟨rfl, .inr ⟨index, v, rfl, Store.readGlobal_eq_some.mp hfound⟩⟩
  | globalSet index =>
      refine .bind fun r _ => ?_
      dsimp only
      split
      · next hindex => exact ⟨rfl, hindex⟩
      · trivial
  | numeric => exact .bind fun _ _ => ⟨rfl, hquiet rfl⟩

/-- Any instruction keeps its frame's owner, and asks for what the globals it has found
allow. -/
theorem execute_fits {g : Frame} {action : Action} {node : Node}
    (h : f.execute m store node = .ok (g, action)) :
    g.owner = f.owner ∧ action.Fits store node g := by
  have hreturns : Returns (fun r => r.1.owner = f.owner ∧ r.2.Fits store node r.1)
      (f.execute m store node) := by
    cases node with
    | plain id instr => exact executePlain_fits f store id instr
    | scope id kind type body alternative =>
        have hquiet : ∀ after, Action.proceed.Fits store
            (.scope id kind type body alternative) after := fun _ => .inl rfl
        cases kind with
        | block | loop | tryBlock => exact ⟨rfl, hquiet _⟩
        | ifThen =>
            refine .bind fun r _ => ?_
            dsimp only
            split
            · exact ⟨rfl, hquiet _⟩
            · cases alternative <;> exact ⟨rfl, hquiet _⟩
  exact hreturns.ok h

end Frame

/-! ### Steps -/

@[simp] theorem World.store_mapWatch (w : World ω σ) (f : σ → σ) :
    (w.mapWatch f).store = w.store := rfl

/-- Setting a global changes no other. -/
theorem Store.getElem?_setGlobal (store : Store) (j index : Nat) (g : GlobalState) :
    (store.setGlobal j g).globals[index]? =
      if j = index then (store.globals[index]?).map fun _ => g
      else store.globals[index]? := by
  rw [setGlobal, Array.getElem?_setIfInBounds]
  split
  · next h =>
      subst h
      split
      · next hlt => simp [hlt]
      · next hge => simp [Nat.not_lt.mp hge]
  · rfl

theorem World.getElem?_setGlobal (w : World ω σ) (j index : Nat) (g : GlobalState) :
    (w.mapStore (·.setGlobal j g)).store.globals[index]? =
      if j = index then (w.store.globals[index]?).map fun _ => g
      else w.store.globals[index]? :=
  w.store.getElem?_setGlobal j index g

theorem Moment.cell_busy (s : State ω σ) (index : Nat) :
    (busy s).cell index =
      ⟨s.world.store.globals[index]?, s.owners.count (.global index)⟩ := rfl

theorem Moment.cell_idle (w : World ω σ) (index : Nat) :
    (idle w).cell index = ⟨w.store.globals[index]?, 0⟩ := by
  simp [cell, store, owners]

/-- After a failure there are no frames left. -/
theorem Outcome.cell_failed (e : Error) (w : World ω σ) (index : Nat) :
    (Outcome.done (.error e) w).moment.cell index =
      ⟨(w.store.globals[index]?).map GlobalState.settled, 0⟩ := by
  rw [moment, Moment.cell_idle, World.mapStore, Store.settle, Array.getElem?_map]
  rfl

namespace State

variable {env : Env ω σ} {s : State ω σ}

theorem owners_eq (s : State ω σ) :
    s.owners = s.calls.top.owner :: s.calls.callers.map (·.owner) := rfl

theorem handOver_cell {calls : CallStack} {world : World ω σ}
    {values pushed : List Value} (index : Nat) :
    (handOver calls world values pushed).moment.cell index =
      ⟨world.store.globals[index]?, (calls.callers.map (·.owner)).count
        (.global index)⟩ := by
  unfold handOver
  cases hcallers : calls.callers with
  | nil =>
      rw [CallStack.pop?_eq_none hcallers]
      simp [Outcome.moment, Moment.cell_idle]
  | cons f callers =>
      obtain ⟨below, hpop, rfl, rfl⟩ := CallStack.pop?_eq_some hcallers
      rw [hpop]
      rfl

/-- The end of a frame completes the global that it has initialized, if it was an
initializer and leaves a value. -/
theorem finish_cell (hscopes : s.calls.top.scopes = []) (index : Nat) :
    CellStep index ((Moment.busy s).cell index) (eventsAbout index (s.events env))
      ((finish env s).moment.cell index) := by
  obtain ⟨calls, world⟩ := s
  rw [events, Frame.fetch?_of_finished hscopes, hscopes, finish,
    Moment.cell_busy, owners_eq]
  dsimp only
  cases hfinish : calls.top.finish with
  | error t =>
      dsimp only
      rw [World.trapAt, Outcome.cell_failed]
      cases calls.top.owner <;> exact .fail
  | ok values =>
      cases howner : calls.top.owner with
      | function | constant =>
          dsimp only
          rw [handOver_cell, List.count_cons_of_ne (by simp)]
          exact .rest
      | global j =>
          cases values with
          | nil =>
              dsimp only
              rw [Outcome.cell_failed]
              exact .fail
          | cons v values =>
              dsimp only
              rw [handOver_cell]
              rw [World.getElem?_setGlobal]
              by_cases hj : j = index
              · subst hj
                rw [List.count_cons_self, if_pos rfl]
                simpa [Event.index?] using CellStep.complete
              · rw [List.count_cons_of_ne (by simp [hj]), if_neg hj]
                simpa [Event.index?, hj] using CellStep.rest

end State

theorem Frame.fetch?_owner {f g : Frame} {node : Node} (h : f.fetch? = some (node, g)) :
    g.owner = f.owner := by
  obtain ⟨scope, outer, rest, -, -, rfl⟩ := Frame.fetch?_eq_some h
  rfl

theorem Frame.ofFunction_owner {m : Module} {owner : Owner} {function : Nat}
    {args : List Value} {results : Option Nat} {frame : Frame}
    (h : Frame.ofFunction m owner function args results = .ok frame) :
    frame.owner = owner := by
  unfold Frame.ofFunction at h
  split at h
  · cases h
  · cases h
    rfl

theorem Frame.ofGlobal_owner {m : Module} {index : Nat} {frame : Frame}
    (h : Frame.ofGlobal m index = .ok frame) : frame.owner = .global index := by
  unfold Frame.ofGlobal at h
  split at h
  · cases h
  · cases h
    rfl

/-- A host function is handed the memory and nothing else. -/
theorem World.globals_callHost (env : Env ω σ) (w : World ω σ) (function : Nat)
    (args : List Value) : (w.callHost env function args).2.store.globals =
      w.store.globals := by
  unfold World.callHost
  dsimp only
  repeat' split
  all_goals rfl

theorem World.eventsAbout_hostEvents (env : Env ω σ) (w : World ω σ) (function : Nat)
    (args : List Value) (index : Nat) :
    eventsAbout index (w.hostEvents env function args) = [] := by
  unfold World.hostEvents
  split <;> rfl

namespace State

variable {env : Env ω σ} {s : State ω σ}

/-- A callee is pushed, or the run fails. -/
theorem push_cell (env : Env ω σ) (s : State ω σ) (p : Point)
    (callee : Except Trap Frame)
    {owner : Owner} (howner : ∀ frame, callee = .ok frame → frame.owner = owner)
    (index : Nat) :
    (push env s p callee).moment.cell index =
        ⟨s.world.store.globals[index]?, (owner :: s.owners).count (.global index)⟩ ∨
      (push env s p callee).moment.cell index =
        ⟨(s.world.store.globals[index]?).map GlobalState.settled, 0⟩ := by
  unfold push
  split
  · exact .inr (Outcome.cell_failed ..)
  · next frame =>
      split
      · exact .inr (Outcome.cell_failed ..)
      · refine .inl ?_
        rw [← howner frame rfl]
        rfl

/-- What an instruction asks for is one step of every global. -/
theorem perform_cell (env : Env ω σ) (s : State ω σ) (p : Point)
    {node : Node} {after : Frame} {action : Action}
    (hfits : action.Fits s.world.store node after) (index : Nat) :
    CellStep index ((Moment.busy s).cell index)
      (eventsAbout index (s.actionEvents env node after action))
      ((perform env s p action).moment.cell index) := by
  obtain ⟨calls, world⟩ := s
  have hfound : ∀ {j g}, j = index → world.store.globals[j]? = some g →
      world.store.globals[index]? = some g := fun hj hg => hj ▸ hg
  rw [Moment.cell_busy]
  cases action with
  | proceed =>
      simp only [perform, actionEvents, Outcome.moment, Moment.cell_busy]
      rcases hfits with hread | ⟨j, v, hread, hready⟩
      · rw [hread]
        exact .rest
      · rw [hread]
        by_cases hj : j = index
        · rw [hfound hj hready]
          simpa [Event.index?, hj] using CellStep.read
        · simpa [Event.index?, hj] using CellStep.rest
  | write | grow | dropSegment => exact .rest
  | setGlobal j v =>
      obtain ⟨g, hg⟩ : ∃ g, world.store.globals[j]? = some g :=
        ⟨_, Array.getElem?_eq_getElem hfits⟩
      simp only [perform, actionEvents, Outcome.moment, Moment.cell_busy, owners,
        World.getElem?_setGlobal]
      by_cases hj : j = index
      · subst hj
        rw [if_pos rfl, hg]
        simpa [Event.index?] using CellStep.set
      · rw [if_neg hj]
        simpa [Event.index?, hj] using CellStep.rest
  | startGlobal j =>
      have hpush := push_cell env ⟨calls, world.mapStore (·.setGlobal j .evaluating)⟩ p
        (Frame.ofGlobal env.module j) (fun _ => Frame.ofGlobal_owner) index
      rw [World.getElem?_setGlobal] at hpush
      rw [perform]
      by_cases hj : j = index
      · have hpending := hfound hj hfits
        rw [if_pos hj, hpending] at hpush
        rw [hpending]
        subst hj
        rcases hpush with hpush | hpush
        · rw [hpush, List.count_cons_self]
          simpa [actionEvents, Event.index?, owners] using CellStep.start
        · rw [hpush]
          simpa [actionEvents, Event.index?, GlobalState.settled] using CellStep.refuse
      · rw [if_neg hj] at hpush
        rcases hpush with hpush | hpush
        · rw [hpush, List.count_cons_of_ne (by simp [hj])]
          simpa [actionEvents, Event.index?, owners, hj] using CellStep.rest
        · rw [hpush]
          simpa [actionEvents, Event.index?, hj] using CellStep.fail
  | call function args =>
      have hpush := push_cell env ⟨calls, world⟩ p
        (Frame.ofFunction env.module (.function function) function args
          ((env.module.functionType? function).map (·.results.length)))
        (fun _ => Frame.ofFunction_owner) index
      rw [perform]
      rcases hpush with hpush | hpush
      · rw [hpush, List.count_cons_of_ne (by simp)]
        exact .rest
      · rw [hpush]
        exact .fail
  | callHost function args =>
      have hglobals := world.globals_callHost env function args
      simp only [actionEvents, World.eventsAbout_hostEvents]
      rw [perform]
      dsimp only
      split
      · next t world' hcall =>
          rw [hcall] at hglobals
          rw [World.trapAt, Outcome.cell_failed, hglobals]
          exact .fail
      · next values world' hcall =>
          rw [hcall] at hglobals
          simp only [Outcome.moment, Moment.cell_busy]
          rw [hglobals]
          exact .rest

/-- Every step of the machine is one step of every global. -/
theorem advance_cell (env : Env ω σ) (s : State ω σ) (index : Nat) :
    CellStep index ((Moment.busy s).cell index) (eventsAbout index (s.events env))
      ((s.advance env).moment.cell index) := by
  rcases s.calls.top.scopes_cases with hend | ⟨scope, outer, hscopes, hrest⟩ |
    ⟨node, f, hfetch⟩
  · rw [advance_of_finished hend]
    exact finish_cell hend index
  · rw [advance_of_empty hscopes hrest, events,
      Frame.fetch?_of_empty hscopes hrest, hscopes]
    exact .rest
  · rcases fetch_cases env hfetch with
      ⟨e, watch, -, hadvance, hevents⟩ | ⟨watch, -, ⟨t, -, hadvance, hevents⟩ |
        ⟨g, action, hexecute, hadvance, hevents⟩⟩
    · rw [hadvance, hevents, Outcome.cell_failed]
      exact .fail
    · rw [hadvance, hevents, World.trapAt, Outcome.cell_failed]
      exact .fail
    · obtain ⟨howner, hfits⟩ := Frame.execute_fits hexecute
      -- The instruction has changed its frame, but the owners are the same.
      have howners : ∀ world : World ω σ,
          owners ⟨s.calls.setTop g, world⟩ = s.owners := by
        intro world
        rw [owners_eq, owners_eq, CallStack.setTop, howner, Frame.fetch?_owner hfetch]
      have hsame : actionEvents env ⟨s.calls.setTop g,
        ⟨s.world.store, s.world.host, watch⟩⟩
          node g action = s.actionEvents env node g action := by
        cases action with
        | setGlobal j v => simp only [actionEvents, howners]
        | _ => rfl
      have hstep := perform_cell env ⟨s.calls.setTop g,
        ⟨s.world.store, s.world.host, watch⟩⟩ (f.point node) hfits index
      rw [Moment.cell_busy, howners, hsame] at hstep
      rw [hadvance, hevents, Moment.cell_busy]
      simpa [Event.index?] using hstep

end State

/-- The frame that an operation runs is the only one. -/
theorem World.enter_cell {env : Env ω σ} {w : World ω σ} {frame : Except Trap Frame}
    {s : State ω σ} {owner : Owner} (hstart : w.enter env frame = .running s)
    (howner : ∀ f, frame = .ok f → f.owner = owner) (index : Nat) :
    (Moment.busy s).cell index = ⟨w.store.globals[index]?,
      [owner].count (.global index)⟩ := by
  unfold World.enter at hstart
  split at hstart
  · cases hstart
  · next f =>
      cases hstart
      rw [← howner f rfl]
      rfl

namespace Operation

variable {env : Env ω σ} {w w' : World ω σ} {op : Operation}

/-- An operation that is answered without a run reads at most one global. -/
theorem answered_cell {result : Except Error (List Value)}
    (hstart : op.start env w = .done result w')
    (hdefined : ∀ i, w.store.globals[i]? = some .pending →
      (env.module.initializer? i).isSome)
    (index : Nat) :
    CellStep index ((Moment.idle w).cell index)
      (eventsAbout index (op.startEvents env w)) ((Moment.idle w').cell index) := by
  rw [Moment.cell_idle, Moment.cell_idle]
  cases op with
  | invoke function args =>
      have hglobals := w.globals_callHost env function args
      have hquiet : eventsAbout index ((invoke function args).startEvents env w) =
          [] := by
        rw [startEvents]
        split
        · rfl
        · split
          · exact w.eventsAbout_hostEvents env function args index
          · rfl
      have hsame : w'.store.globals = w.store.globals := by
        rw [start] at hstart
        split at hstart
        · cases hstart
          rfl
        · split at hstart
          · split at hstart
            all_goals
              next hcall =>
                cases hstart
                rw [hcall] at hglobals
                exact hglobals
          · unfold World.enter at hstart
            split at hstart <;> cases hstart
            rfl
      rw [hquiet, hsame]
      exact .rest
  | readGlobal j =>
      rw [start] at hstart
      rw [startEvents]
      cases hread : w.store.readGlobal j with
      | error t =>
          rw [hread] at hstart
          cases hstart
          exact .rest
      | ok found =>
          rw [hread] at hstart
          cases found with
          | some v =>
              cases hstart
              have hready := Store.readGlobal_eq_some.mp hread
              by_cases hj : j = index
              · subst hj
                rw [hready]
                simpa [Event.index?] using CellStep.read
              · simpa [Event.index?, hj] using CellStep.rest
          | none =>
              obtain ⟨body, hbody⟩ :=
                Option.isSome_iff_exists.mp
                  (hdefined j (Store.readGlobal_eq_none.mp hread))
              simp [World.enter, Frame.ofGlobal, hbody] at hstart

/-- A run starts with a frame of a function, or with the initializer that it is for. -/
theorem begun_cell {s : State ω σ} (hstart : op.start env w = .running s)
    (index : Nat) :
    CellStep index ((Moment.idle w).cell index)
      (eventsAbout index (op.startEvents env w)) ((Moment.busy s).cell index) := by
  rw [Moment.cell_idle]
  cases op with
  | invoke function args =>
      rw [start] at hstart
      rw [startEvents]
      split at hstart
      · cases hstart
      · split at hstart
        · split at hstart <;> cases hstart
        · next hlocal =>
            rw [if_neg hlocal, World.enter_cell hstart (fun _ =>
              Frame.ofFunction_owner) index, List.count_cons_of_ne (by simp)]
            exact .rest
  | readGlobal j =>
      rw [start] at hstart
      rw [startEvents]
      split at hstart
      · cases hstart
      · cases hstart
      · next hread =>
          have hpending := Store.readGlobal_eq_none.mp hread
          rw [World.enter_cell hstart (fun _ => Frame.ofGlobal_owner) index,
            World.getElem?_setGlobal]
          by_cases hj : j = index
          · subst hj
            rw [if_pos rfl, hpending, List.count_cons_self]
            simpa [Event.index?] using CellStep.start
          · rw [if_neg hj, List.count_cons_of_ne (by simp [hj])]
            simpa [Event.index?, hj] using CellStep.rest

end Operation

/-- Globals without a value have initializers that can give them one. -/
def Moment.Defined (m : Module) (now : Moment ω σ) : Prop :=
  ∀ index, now.store.globals[index]? = some .pending ∨
    now.store.globals[index]? = some .evaluating → (m.initializer? index).isSome

/-- Whatever happens is one step of every global. -/
theorem Follows.cell {env : Env ω σ} {now later : Moment ω σ} {events : List Event}
    (h : Follows env now events later) (hdefined : now.Defined env.module)
    (index : Nat) :
    CellStep index (now.cell index) (eventsAbout index events) (later.cell index) := by
  cases h with
  | outside => exact .rest
  | answered hstart =>
      exact Operation.answered_cell hstart (fun i hi => hdefined i (.inl hi)) index
  | begun hstart => exact Operation.begun_cell hstart index
  | advanced => exact State.advance_cell env _ index

/-! ### Histories -/

/-- The life of one global. -/
inductive CellRun (index : Nat) (start : Cell) : List Event → Cell → Prop
  | nil : CellRun index start [] start
  | next {log events c c'} (hpast : CellRun index start log c)
      (hstep : CellStep index c events c') :
      CellRun index start (log ++ events) c'

/-- A global never gets rid of its value. -/
theorem CellStep.unready {index : Nat} {c c' : Cell} {events : List Event}
    (h : CellStep index c events c') (hlater : c'.state = some .pending ∨
      c'.state = some .evaluating) :
    c.state = some .pending ∨ c.state = some .evaluating := by
  cases h with
  | rest => exact hlater
  | read | set => simp at hlater
  | start | refuse => exact .inl rfl
  | @complete state => cases state <;> simp at hlater
  | @fail state =>
      rcases state with _ | g
      · simp at hlater
      · by_cases hg : g = .evaluating
        · exact .inr (congrArg some hg)
        · simpa [GlobalState.settled, hg] using hlater

/-- What happens to an instance is the life of each of its globals. -/
theorem History.cellRun {env : Env ω σ} {start now : Moment ω σ} {log : List Event}
    (h : History env start log now) (hdefined : start.Defined env.module) :
    now.Defined env.module ∧
      ∀ index, CellRun index (start.cell index) (eventsAbout index log)
        (now.cell index) := by
  induction h with
  | nil => exact ⟨hdefined, fun _ => .nil⟩
  | next _ hfollows ih =>
      obtain ⟨hnow, hruns⟩ := ih
      refine ⟨fun index hlater => hnow index ?_, fun index => ?_⟩
      · exact (hfollows.cell hnow index).unready hlater
      · rw [eventsAbout_append]
        exact (hruns index).next (hfollows.cell hnow index)

end WasmVm
