/-
The life of data segments.  A passive segment keeps its bytes until an instruction
drops it, an active one has none from the start, and nothing else that ever happens to
an instance changes what is left of a segment, or makes a memory or takes it away.
-/
import WasmVm.Proofs.Globals.Cells
import WasmVm.Proofs.Memory.LoadStore

namespace WasmVm

variable {ω σ : Type}

/-- Where an active segment is written. -/
def DataSegment.offset? (segment : DataSegment) : Option Nat :=
  match segment.mode with
  | .active _ offset => some offset
  | .passive => none

/-- An instruction drops the segment. -/
def Event.drops (k : Nat) : Event → Bool
  | fetched (.plain _ (.dataDrop segment)) => segment = k
  | _ => false

/-- What `memory.init` finds of the segment with an index, after some events. -/
def DataSegment.left (segment : DataSegment) (k : Nat) (log : List Event) :
    List UInt8 :=
  if segment.offset?.isSome || log.any (Event.drops k) then [] else segment.bytes

/-- How a store changes over some events, its globals and the contents of its memory
apart. -/
structure Store.Keeps (before : Store) (events : List Event) (after : Store) :
    Prop where
  segments : ∀ k, after.segments[k]? =
    if events.any (Event.drops k) then before.segments[k]?.map fun _ => []
    else before.segments[k]?
  memory : after.memory.isSome = before.memory.isSome

namespace Store

variable {before now after : Store} {log events : List Event}

/-- Where nothing is dropped segments stay. -/
theorem Keeps.quiet (hsegments : after.segments = before.segments)
    (hmemory : after.memory.isSome = before.memory.isSome)
    (hquiet : ∀ k, events.any (Event.drops k) = false) : before.Keeps events after := by
  refine ⟨fun k => ?_, hmemory⟩
  rw [hquiet, hsegments]
  rfl

theorem Keeps.trans (h : before.Keeps log now) (hnext : now.Keeps events after) :
    before.Keeps (log ++ events) after := by
  refine ⟨fun k => ?_, hnext.memory.trans h.memory⟩
  rw [hnext.segments, h.segments, List.any_append]
  cases log.any (Event.drops k) <;> cases events.any (Event.drops k) <;>
    simp [Function.comp_def]

/-- It matters of events just what they drop. -/
theorem Keeps.congr (h : before.Keeps events after)
    (hdrops : ∀ k, log.any (Event.drops k) = events.any (Event.drops k)) :
    before.Keeps log after :=
  ⟨fun k => by rw [h.segments, hdrops], h.memory⟩

end Store

/-! ### Instructions -/

/-- The action drops the segment. -/
def Action.drops (k : Nat) : Action → Bool
  | dropSegment segment => segment = k
  | _ => false

namespace Frame

variable {f g : Frame} {m : Module} {store : Store} {node : Node} {k : Nat}

/-- Of the instructions on memory only `data.drop` drops segments. -/
theorem executeMemory_drops (store : Store) (stack : Stack) (id : Nat)
    (instr : Instr) (k : Nat) :
    Returns (fun r => r.2.drops k = (Event.fetched (.plain id instr)).drops k)
      (executeMemory store stack instr) := by
  cases instr with
  | load => exact .bind fun _ _ => .bind fun _ _ => .bind fun _ _ => rfl
  | store =>
      exact .bind fun _ _ => .bind fun _ _ => .bind fun _ _ => .bind fun _ _ =>
        .bind fun _ _ => rfl
  | memorySize => exact .bind fun _ _ => rfl
  | memoryGrow =>
      refine .bind fun _ _ => .bind fun memory _ => ?_
      split <;> rfl
  | memoryFill =>
      exact .bind fun _ _ => .bind fun _ _ => .bind fun _ _ => .bind fun _ _ =>
        .bind fun _ _ => rfl
  | memoryCopy =>
      exact .bind fun _ _ => .bind fun _ _ => .bind fun _ _ => .bind fun _ _ =>
        .bind fun _ _ =>
        .bind fun _ _ => rfl
  | memoryInit =>
      refine .bind fun _ _ => .bind fun _ _ => .bind fun _ _ => ?_
      dsimp only
      split
      · trivial
      · split
        · trivial
        · exact .bind fun _ _ => .bind fun _ _ => rfl
  | dataDrop => rfl
  | _ => trivial

theorem executePlain_drops (f : Frame) (store : Store) (id : Nat)
    (instr : Instr) (k : Nat) :
    Returns (fun r => r.2.drops k = (Event.fetched (.plain id instr)).drops k)
      (f.executePlain store instr) := by
  have hbranch : ∀ (g : Frame) (depth : Nat), Returns (fun r => r.2.drops k = false)
      (g.branch depth >>= fun g => pure (g, Action.proceed)) := fun g depth =>
        .bind fun _ _ => rfl
  cases instr with
  | unreachable | throwTag | rethrow | catchTag | catchAll | callIndirect => trivial
  | delegate | const | returnOp => rfl
  | load | store | memorySize | memoryGrow | memoryCopy | memoryFill |
      memoryInit | dataDrop =>
      exact .bind fun r hr => (executeMemory_drops store f.stack id _ k).ok hr
  | br depth => exact hbranch f depth
  | brIf depth =>
      refine .bind fun r _ => ?_
      dsimp only
      split
      · exact hbranch _ depth
      · rfl
  | brTable => exact .bind fun r _ => hbranch _ _
  | call target =>
      refine .bind fun r _ => ?_
      dsimp only
      split <;> rfl
  | drop | localGet | numeric => exact .bind fun _ _ => rfl
  | select => exact .bind fun _ _ => .bind fun _ _ => .bind fun _ _ => rfl
  | localSet | localTee => exact .bind fun _ _ => .bind fun _ _ => rfl
  | globalGet =>
      refine .bind fun found _ => ?_
      cases found <;> rfl
  | globalSet index =>
      refine .bind fun r _ => ?_
      dsimp only
      split
      · rfl
      · trivial

/-- An instruction asks for the end of a segment just if it is a `data.drop` of it. -/
theorem execute_drops {action : Action} (h : f.execute m store node = .ok (g, action))
    (k : Nat) :
    action.drops k = (Event.fetched node).drops k := by
  have hreturns : Returns (fun r => r.2.drops k = (Event.fetched node).drops k)
      (f.execute m store node) := by
    cases node with
    | plain id instr => exact executePlain_drops f store id instr k
    | scope id kind type body alternative =>
        cases kind with
        | block | loop | tryBlock => rfl
        | ifThen =>
            refine .bind fun r _ => ?_
            dsimp only
            split
            · rfl
            · cases alternative <;> rfl
  exact hreturns.ok h

/-- A `data.drop` never fails. -/
theorem drops_of_execute_error {t : Trap} (h : f.execute m store node = .error t)
    (k : Nat) :
    (Event.fetched node).drops k = false := by
  cases node with
  | scope => rfl
  | plain id instr => cases instr <;> first | rfl | cases h

end Frame

/-! ### Steps -/

/-- The lasting state after a step. -/
def Outcome.store : Outcome ω σ → Store
  | running s => s.world.store
  | done _ w => w.store

theorem Outcome.keeps_moment (outcome : Outcome ω σ) :
    outcome.store.Keeps [] outcome.moment.store := by
  match outcome with
  | running s => exact .quiet rfl rfl fun _ => rfl
  | done (.ok values) w => exact .quiet rfl rfl fun _ => rfl
  | done (.error e) w => exact .quiet rfl rfl fun _ => rfl

/-- A host function may change the memory, but neither makes it nor takes it away. -/
theorem World.keeps_callHost (env : Env ω σ) (w : World ω σ) (function : Nat)
    (args : List Value) : w.store.Keeps [] (w.callHost env function args).2.store := by
  unfold callHost
  dsimp only
  split
  · exact .quiet rfl rfl fun _ => rfl
  · have hmemory : ∀ reply : HostReply ω,
        (reply.memoryAfter w.store.memory).isSome = w.store.memory.isSome := by
      intro reply
      rw [HostReply.memoryAfter, Option.isSome_map]
    repeat' split
    all_goals exact .quiet rfl (hmemory _) fun _ => rfl

theorem World.drops_hostEvents (env : Env ω σ) (w : World ω σ) (function : Nat)
    (args : List Value) (k : Nat) :
    (w.hostEvents env function args).any (Event.drops k) = false := by
  unfold hostEvents
  split <;> rfl

namespace State

variable {env : Env ω σ} {s : State ω σ}

theorem handOver_store {calls : CallStack} {world : World ω σ}
    {values pushed : List Value} :
    (handOver calls world values pushed).store = world.store := by
  unfold handOver
  split <;> rfl

theorem push_store (env : Env ω σ) (s : State ω σ) (p : Point)
    (callee : Except Trap Frame) :
    (push env s p callee).store = s.world.store := by
  unfold push
  split
  · rfl
  · split <;> rfl

/-- The end of a frame drops nothing. -/
theorem finish_keeps (hscopes : s.calls.top.scopes = []) :
    s.world.store.Keeps (s.events env) (finish env s).store := by
  have hquiet : ∀ k, (s.events env).any (Event.drops k) = false := by
    intro k
    rw [events, Frame.fetch?_of_finished hscopes]
    dsimp only
    split <;> rfl
  obtain ⟨calls, world⟩ := s
  unfold finish
  dsimp only
  split
  · exact .quiet rfl rfl hquiet
  · split
    · split
      · exact .quiet rfl rfl hquiet
      · rw [handOver_store]
        exact .quiet rfl rfl hquiet
    · rw [handOver_store]
      exact .quiet rfl rfl hquiet

/-- What an instruction asks for drops the segment that it names. -/
theorem perform_keeps (env : Env ω σ) (s : State ω σ) (p : Point) (action : Action)
    {events : List Event} (hevents : ∀ k, events.any (Event.drops k) = action.drops k) :
    s.world.store.Keeps events (perform env s p action).store := by
  obtain ⟨calls, world⟩ := s
  cases action with
  | proceed | setGlobal => exact .quiet rfl rfl hevents
  | write | grow => exact .quiet rfl (Option.isSome_map) hevents
  | startGlobal | call =>
      rw [perform, push_store]
      exact .quiet rfl rfl hevents
  | dropSegment segment =>
      refine ⟨fun k => ?_, rfl⟩
      rw [hevents, Action.drops]
      change (world.store.segments.setIfInBounds segment [])[k]? = _
      rw [Array.getElem?_setIfInBounds]
      by_cases hk : segment = k
      · subst hk
        simp only [decide_true, if_true]
        split
        · next hin => simp [hin]
        · next hout => simp [hout]
      · simp [hk]
  | callHost function args =>
      have hkeeps := world.keeps_callHost env function args
      have hstore : (perform env ⟨calls, world⟩ p (.callHost function args)).store =
          (world.callHost env function args).2.store := by
        rw [perform]
        dsimp only
        split
        · next hcall => rw [hcall]; rfl
        · next hcall => rw [hcall]; rfl
      rw [hstore]
      exact hkeeps.congr hevents

/-- What an instruction asks for is not itself seen as an end of a segment. -/
theorem drops_actionEvents (env : Env ω σ) (s : State ω σ) (node : Node) (after : Frame)
    (action : Action) (k : Nat) :
    (s.actionEvents env node after action).any (Event.drops k) = false := by
  cases action with
  | proceed =>
      rw [actionEvents, Node.readEvents.eq_def]
      split
      · cases after.stack.head? <;> rfl
      · rfl
  | callHost function args => exact s.world.drops_hostEvents env function args k
  | _ => rfl

/-- A step drops the segment that its instruction names. -/
theorem advance_keeps (env : Env ω σ) (s : State ω σ) :
    s.world.store.Keeps (s.events env) (s.advance env).store := by
  rcases s.calls.top.scopes_cases with hend | ⟨scope, outer, hscopes, hrest⟩ |
    ⟨node, f, hfetch⟩
  · rw [advance_of_finished hend]
    exact finish_keeps hend
  · rw [advance_of_empty hscopes hrest, events,
      Frame.fetch?_of_empty hscopes hrest, hscopes]
    exact .quiet rfl rfl fun _ => rfl
  · rcases fetch_cases env hfetch with
      ⟨e, watch, -, hadvance, hevents⟩ | ⟨watch, -, ⟨t, hexecute, hadvance, hevents⟩ |
        ⟨g, action, hexecute, hadvance, hevents⟩⟩
    · rw [hadvance, hevents]
      exact .quiet rfl rfl fun _ => rfl
    · rw [hadvance, hevents]
      refine .quiet rfl rfl fun k => ?_
      rw [List.any_cons, Frame.drops_of_execute_error hexecute k]
      rfl
    · rw [hadvance, hevents]
      refine perform_keeps env ⟨s.calls.setTop g, ⟨s.world.store, s.world.host, watch⟩⟩
        _ action
        fun k => ?_
      rw [List.any_cons, drops_actionEvents, Bool.or_false,
        Frame.execute_drops hexecute k]

end State

/-! ### Histories -/

theorem World.enter_store {env : Env ω σ} {w : World ω σ} {frame : Except Trap Frame} :
    (w.enter env frame).store = w.store := by
  unfold World.enter
  split <;> rfl

/-- The start of an operation drops nothing. -/
theorem Operation.start_keeps (env : Env ω σ) (w : World ω σ) (op : Operation) :
    w.store.Keeps (op.startEvents env w) (op.start env w).store := by
  cases op with
  | invoke function args =>
      unfold start startEvents
      dsimp only
      split
      · exact .quiet rfl rfl fun _ => rfl
      · split
        · have hkeeps := (w.keeps_callHost env function args).congr
            fun k => w.drops_hostEvents env function args k
          split
          all_goals
            next hcall =>
              rw [hcall] at hkeeps
              exact hkeeps
        · rw [World.enter_store]
          exact .quiet rfl rfl fun _ => rfl
  | readGlobal index =>
      unfold start startEvents
      dsimp only
      split
      · exact .quiet rfl rfl fun _ => rfl
      · exact .quiet rfl rfl fun _ => rfl
      · rw [World.enter_store]
        exact .quiet rfl rfl fun _ => rfl

/-- Whatever happens drops just the segments that instructions name. -/
theorem Follows.keeps {env : Env ω σ} {now later : Moment ω σ} {events : List Event}
    (h : Follows env now events later) : now.store.Keeps events later.store := by
  cases h with
  | outside => exact .quiet rfl rfl fun _ => rfl
  | @answered w w' op result hstart | @begun w s op hstart =>
      have hkeeps := op.start_keeps env w
      rw [hstart] at hkeeps
      exact hkeeps
  | @advanced s =>
      have hkeeps := (s.advance_keeps env).trans (s.advance env).keeps_moment
      rwa [List.append_nil] at hkeeps

theorem History.keeps {env : Env ω σ} {start now : Moment ω σ} {log : List Event}
    (h : History env start log now) : start.store.Keeps log now.store := by
  induction h with
  | nil => exact .quiet rfl rfl fun _ => rfl
  | next _ hfollows ih => exact ih.trans hfollows.keeps

/-! ### Copying from segments -/

namespace Frame

variable {store : Store} {memory : Memory} {bytes : List UInt8} {k : Nat}

/-- With its operands, a segment and a memory, `memory.init` wants two ranges, and
nothing else. -/
theorem executeMemory_init (hsegment : store.segments[k]? = some bytes)
    (hmemory : store.memory = some memory) (length source target : BitVec 32)
    (rest : Stack) :
    executeMemory store (.i32 length :: .i32 source :: .i32 target :: rest)
      (.memoryInit k) =
      if bytes.length < source.toNat + length.toNat then
        .error (.segmentRange length.toNat source.toNat k bytes.length)
      else if target.toNat + length.toNat ≤ memory.size then
        .ok (rest, .write target.toNat
          ⟨((bytes.drop source.toNat).take length.toNat).toArray⟩)
      else .error (.access length.toNat target.toNat memory.size) := by
  rw [← Memory.check_bind]
  simp only [executeMemory, Stack.popI32, Stack.pop, Value.asI32,
    Store.needMemory, hsegment, hmemory, bind, Except.bind, pure, Except.pure]
  rfl

end Frame

/-- What a `memory.init` does with these operands, if `rest` is below them on the stack
and its segment has `bytes` left.  It copies just the bytes that it is asked for and
takes its operands off, or it traps and changes nothing, and that just where one of the
two ranges is not there. -/
def State.Inits (env : Env ω σ) (s : State ω σ) (f : Frame) (bytes : List UInt8)
    (memory : Memory) (length source target : BitVec 32) (rest : Stack) : Prop :=
  (source.toNat + length.toNat ≤ bytes.length ∧
    target.toNat + length.toNat ≤ memory.size ∧
    ∃ s' memory',
      s.GoesTo env { f with stack := rest }
        { s.world.store with memory := some memory' } s' ∧
      memory'.maximum = memory.maximum ∧
      Overlaid memory.contents target.toNat
        ((bytes.drop source.toNat).take length.toNat) memory'.contents) ∨
  ((bytes.length < source.toNat + length.toNat ∨
    memory.size < target.toNat + length.toNat) ∧
    ∃ cause, cause.code = .memoryOutOfBounds ∧ s.Traps env cause)

/-- A `memory.init` that is fetched does just that. -/
theorem State.advance_of_memoryInit {env : Env ω σ} {s : State ω σ}
    {id k : Nat} {f : Frame}
    {length source target : BitVec 32} {rest : Stack} {bytes : List UInt8}
    {memory : Memory} (hpermitted : s.Permitted env)
    (hfetch : s.calls.top.fetch? = some (.plain id (.memoryInit k), f))
    (hstack : f.stack = .i32 length :: .i32 source :: .i32 target :: rest)
    (hsegment : s.world.store.segments[k]? = some bytes)
    (hmemory : s.world.store.memory = some memory) :
    s.Inits env f bytes memory length source target rest := by
  obtain ⟨w, hstore, hadvance⟩ := advance_of_permitted hpermitted hfetch
  have hexecute : f.execute env.module s.world.store (.plain id (.memoryInit k)) =
      (Frame.executeMemory s.world.store f.stack (.memoryInit k) >>= fun result =>
        .ok ({ f with stack := result.1 }, result.2)) := rfl
  rw [hexecute, hstack, Frame.executeMemory_init hsegment hmemory] at hadvance
  by_cases hsource : bytes.length < source.toNat + length.toNat
  · rw [if_pos hsource] at hadvance
    exact .inr ⟨.inl hsource, _, rfl, _, w, hadvance, hstore⟩
  · rw [if_neg hsource] at hadvance
    by_cases htarget : target.toNat + length.toNat ≤ memory.size
    · rw [if_pos htarget] at hadvance
      have hcount : ((bytes.drop source.toNat).take length.toNat).length =
          length.toNat := by
        rw [List.length_take, List.length_drop]
        omega
      have hlaid := @Memory.overlaid_overlay memory target.toNat
        ⟨((bytes.drop source.toNat).take length.toNat).toArray⟩
          (by rwa [← hcount] at htarget)
      refine .inl ⟨Nat.not_lt.mp hsource, htarget, _, _, ⟨hadvance, rfl, ?_⟩,
        memory.maximum_overlay _ _, hlaid⟩
      simp only [World.mapStore, Store.mapMemory, hstore, hmemory, Option.map_some]
    · rw [if_neg htarget] at hadvance
      exact .inr ⟨.inr (Nat.not_le.mp htarget), _, rfl, _, w, hadvance, hstore⟩

end WasmVm
