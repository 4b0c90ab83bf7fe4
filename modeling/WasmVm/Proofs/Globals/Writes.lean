/-
What a read of a global yields.  Two things write to a global, `global.set` and the end
of its initializer, and a read yields what was written last.  An initializer that ends
overwrites what was set while it ran; a global that is set at other times only is
never written by its initializer again.
-/
import WasmVm.Proofs.Globals.Lifecycle

namespace WasmVm

variable {ω σ : Type}

/-- The value that the event sets a global to. -/
def Event.set? (index : Nat) : Event → Option Value
  | set i v _ => if i = index then some v else none
  | _ => none

/-- The value that the event writes to a global, as a `global.set` or as the end of its
initializer. -/
def Event.written? (index : Nat) : Event → Option Value
  | set i v _ | completed i v => if i = index then some v else none
  | _ => none

/-- The last value that the events of a log give. -/
def latest (value? : Event → Option Value) (log : List Event) : Option Value :=
  (log.filterMap value?).getLast?

@[simp] theorem latest_nil (value? : Event → Option Value) :
    latest value? [] = none := rfl

@[simp] theorem latest_cons (value? : Event → Option Value) (e : Event)
    (log : List Event) :
    latest value? (e :: log) = (latest value? log).or (value? e) := by
  rcases hgives : value? e with _ | v
  · simp [latest, hgives]
  · simp only [latest, List.filterMap_cons, hgives, List.getLast?_cons]
    cases (List.filterMap value? log).getLast? <;> rfl

theorem latest_append (value? : Event → Option Value) (log events : List Event) :
    latest value? (log ++ events) = (latest value? events).or (latest value? log) := by
  simp [latest, List.getLast?_append]

/-- Events about other globals can be left out. -/
theorem latest_eventsAbout {value? : Event → Option Value} {index : Nat}
    (hvalue : ∀ e v, value? e = some v → e.index? = some index) (log : List Event) :
    latest value? (eventsAbout index log) = latest value? log := by
  rw [latest, latest, eventsAbout, List.filterMap_filter]
  congr 2
  funext e
  rcases hgives : value? e with _ | v
  · simp
  · simp [hvalue e v hgives]

/-- A value comes from some event. -/
theorem exists_mem_of_latest {value? : Event → Option Value}
    {log : List Event} {v : Value}
    (h : latest value? log = some v) : ∃ e ∈ log, value? e = some v :=
  List.mem_filterMap.mp (List.mem_of_getLast? h)

theorem latest_eq_none {value? : Event → Option Value} {log : List Event} :
    latest value? log = none ↔ ∀ e ∈ log, value? e = none := by
  simp [latest]

namespace Event

variable {index : Nat} {e : Event} {v : Value}

theorem set?_eq_some : e.set? index = some v ↔ ∃ owners, e = .set index v owners := by
  cases e <;> simp [set?]

theorem written?_eq_some :
    e.written? index = some v ↔ e.set? index = some v ∨ e = .completed index v := by
  cases e <;> simp [written?, set?]

theorem index?_of_set? (h : e.set? index = some v) : e.index? = some index := by
  obtain ⟨owners, rfl⟩ := set?_eq_some.mp h
  rfl

theorem index?_of_written? (h : e.written? index = some v) : e.index? = some index := by
  rcases written?_eq_some.mp h with hset | rfl
  · exact index?_of_set? hset
  · rfl

end Event

/-- A value that is read was there, or the initializer has just left it. -/
theorem CellStep.read_cases {index i : Nat} {c c' : Cell} {v : Value}
    {events before after : List Event} (h : CellStep index c events c')
    (hevents : events = before ++ .read i v :: after) :
    (before = [] ∧ c.state = some (.ready v)) ∨
    (before = [.completed index v] ∧ c.frames ≠ 0) := by
  cases h with
  | rest | fail => simp at hevents
  | set | start | refuse => cases before <;> simp at hevents
  | read =>
      cases before with
      | nil => simp_all
      | cons => simp at hevents
  | complete =>
      cases before with
      | nil => simp at hevents
      | cons e before =>
          obtain ⟨rfl, htail⟩ := List.cons.inj hevents
          cases before with
          | nil =>
              cases htail
              exact .inr ⟨rfl, by simp⟩
          | cons => simp at htail

/-- The value of a global, if it has one. -/
def GlobalState.value? : GlobalState → Option Value
  | ready v => some v
  | _ => none

theorem GlobalState.value?_eq_some {g : GlobalState} {v : Value} :
    g.value? = some v ↔ g = .ready v := by
  cases g <;> simp [value?]

namespace CellRun

variable {index : Nat} {start c : Cell} {log : List Event}

/-- A global holds what was written to it last, or what it had to start with. -/
theorem holds_latest {v : Value} (h : CellRun index start log c)
    (hready : c.state = some (.ready v)) :
    (latest (Event.written? index) log).or (start.state.bind GlobalState.value?) =
      some v := by
  induction h generalizing v with
  | nil => simp [hready, latest, GlobalState.value?]
  | next _ hstep ih =>
      rw [latest_append]
      cases hstep with
      | rest => exact ih hready
      | read => exact ih hready
      | set =>
          cases hready
          simp [Event.written?]
      | start | refuse => cases hready
      | complete =>
          obtain ⟨-, -, hv⟩ := Option.map_eq_some_iff.mp hready
          cases hv
          simp [Event.written?]
      | fail => exact ih (by simpa using hready)

/-- If a global is not set while its initializer runs, it is not set before that either,
so that what it holds later is what it was set to last. -/
theorem holds_latest_set (h : CellRun index start log c)
    (houtside : ∀ v owners, .set index v owners ∈ log → .global index ∉ owners) :
    (c.frames ≠ 0 ∨ c.state = some .pending ∨ c.state = some .evaluating →
      latest (Event.set? index) log = none) ∧
    ∀ v w, c.state = some (.ready v) → latest (Event.set? index) log = some w →
      v = w := by
  induction h with
  | nil => exact ⟨fun _ => rfl, fun v w _ hset => nomatch hset⟩
  | @next log events c c' hpast hstep ih =>
      obtain ⟨hunset, hset⟩ := ih fun v owners hmem =>
        houtside v owners (List.mem_append_left _ hmem)
      rw [latest_append]
      cases hstep with
      | rest => exact ⟨hunset, hset⟩
      | read => exact ⟨hunset, hset⟩
      | @set state v owners =>
          have hframes : owners.count (.global index) = 0 :=
            List.count_eq_zero.mpr (houtside v owners (by simp))
          refine ⟨fun hruns => ?_, fun u w hu hw => ?_⟩
          · simp [hframes] at hruns
          · cases hu
            simpa [Event.set?] using hw
      | start =>
          refine ⟨fun _ => hunset (.inr (.inl rfl)), fun v w hready => ?_⟩
          cases hready
      | complete =>
          have hnone := hunset (.inl (by simp))
          refine ⟨fun _ => hnone, fun v w _ hw => ?_⟩
          simp [hnone, Event.set?] at hw
      | fail =>
          refine ⟨fun hlater => hunset (.inr ?_), fun v w hready => ?_⟩
          · exact (CellStep.fail : CellStep index _ [] _).unready
              (hlater.resolve_left (by simp))
          · exact hset v w (by simpa using hready)
      | refuse =>
          refine ⟨fun _ => hunset (.inr (.inl rfl)), fun v w hready => ?_⟩
          cases hready

/-- When a value is read the global holds it, or its initializer has just left it. -/
theorem read_cases {v : Value} {before after : List Event}
    (h : CellRun index start log c) (hlog : log = before ++ .read index v :: after) :
    ∃ past now, CellRun index start past now ∧
      (before = past ∧ now.state = some (.ready v) ∨
        before = past ++ [.completed index v] ∧ now.frames ≠ 0) := by
  induction h generalizing after with
  | nil => simp at hlog
  | @next log events c c' hpast hstep ih =>
      rcases List.append_eq_append_iff.mp hlog with ⟨rest, rfl, hevents⟩ |
        ⟨rest, hpast', hrest⟩
      · refine ⟨log, c, hpast, ?_⟩
        rcases hstep.read_cases hevents with ⟨rfl, hready⟩ | ⟨rfl, hframes⟩
        · exact .inl ⟨by simp, hready⟩
        · exact .inr ⟨rfl, hframes⟩
      · cases rest with
        | nil =>
            refine ⟨log, c, hpast, ?_⟩
            have hevents : events = [] ++ .read index v :: after := hrest.symm
            rcases hstep.read_cases hevents with ⟨-, hready⟩ | ⟨hnil, -⟩
            · exact .inl ⟨by simpa using hpast'.symm, hready⟩
            · cases hnil
        | cons e rest =>
            obtain ⟨rfl, -⟩ := List.cons.inj hrest
            exact ih hpast'

/-- What is read is what was written last, or set last if the initializer has not
interfered. -/
theorem read_yields {v : Value} {before after : List Event}
    (h : CellRun index start log c) (hlog : log = before ++ .read index v :: after) :
    (latest (Event.written? index) before).or (start.state.bind GlobalState.value?) =
      some v ∧
    ((∀ w owners, .set index w owners ∈ before → .global index ∉ owners) →
      ∀ w, latest (Event.set? index) before = some w → v = w) := by
  obtain ⟨past, now, hpast, ⟨rfl, hready⟩ | ⟨rfl, hframes⟩⟩ := h.read_cases hlog
  · exact ⟨hpast.holds_latest hready, fun houtside w =>
      (hpast.holds_latest_set houtside).2 v w hready⟩
  · refine ⟨by simp [latest_append, Event.written?], fun houtside w hw => ?_⟩
    have hunset := (hpast.holds_latest_set fun w owners hmem =>
      houtside w owners (List.mem_append_left _ hmem)).1 (.inl hframes)
    simp [latest_append, Event.set?, hunset] at hw

end CellRun

/-- A read of a global yields what was written to it last, be it by a `global.set` or by
the end of its initializer, or else the value it was imported with.  If no `global.set`
so far was executed while the initializer was running, the read yields what the last of
them has set, and the initializer's result only if there was none. -/
theorem read_yields_latest_write {m : Module} {offered : Imports ω} {maxDepth : Nat}
    {observer : Observer σ} {host : ω} {watch : σ} {inst : Instance ω σ}
    (hcreate : Instance.create m offered maxDepth observer host watch = .ok inst)
    {log before after : List Event} {now : Moment ω σ}
    (hpast : History inst.env (.idle inst.world) log now) {index : Nat} {v : Value}
    (hread : log = before ++ .read index v :: after) :
    (latest (Event.written? index) before).or
        ((inst.world.store.globals[index]?).bind GlobalState.value?) = some v ∧
    ((∀ w owners, .set index w owners ∈ before → .global index ∉ owners) →
      (∀ w, latest (Event.set? index) before = some w → v = w) ∧
      (latest (Event.set? index) before = none →
        .completed index v ∈ before ∨ inst.world.store.globals[index]? = some
          (.ready v))) := by
  obtain ⟨-, hrun⟩ := hpast.cellRun (Instance.create_defined hcreate)
  have hlog : eventsAbout index log =
      eventsAbout index before ++ .read index v :: eventsAbout index after := by
    rw [hread, eventsAbout_append, eventsAbout_cons]
    simp [Event.index?]
  obtain ⟨hlatest, hset⟩ := (hrun index).read_yields hlog
  rw [latest_eventsAbout (fun _ _ => Event.index?_of_written?)] at hlatest
  rw [latest_eventsAbout (fun _ _ => Event.index?_of_set?)] at hset
  refine ⟨hlatest, fun houtside => ⟨hset fun w owners hmem => ?_, fun hunset => ?_⟩⟩
  · exact houtside w owners ((mem_eventsAbout rfl).mp hmem)
  · cases hwrite : latest (Event.written? index) before with
    | none =>
        rw [hwrite, Option.none_or, Moment.cell_idle] at hlatest
        obtain ⟨g, hg, hvalue⟩ := Option.bind_eq_some_iff.mp hlatest
        exact .inr (hg.trans (congrArg some (GlobalState.value?_eq_some.mp hvalue)))
    | some u =>
        obtain rfl : u = v := by simpa [hwrite] using hlatest
        obtain ⟨e, hmem, he⟩ := exists_mem_of_latest hwrite
        rcases Event.written?_eq_some.mp he with hset | rfl
        · simp [latest_eq_none.mp hunset e hmem] at hset
        · exact .inl hmem

namespace WritesWitness

/-- A global whose initializer calls a function that sets it to seven and then leaves
one, and a function that reads it twice and returns what it has read last. -/
def clobbering : Module where
  types := #[⟨[], []⟩, ⟨[], [.i32]⟩]
  functions := #[0, 1]
  globals := #[⟨.i32, true, [0x10, 0x00, 0x41, 0x01, 0x0b],
    .scope 0 .block (.value .i32) [.plain 1 (.call ⟨0, 0, 0, 0, none⟩),
      .plain 2 (.const (.i32 1))] none⟩]
  codes := #[
    ⟨#[], 0, .scope 0 .block (.func 0) [.plain 1 (.const (.i32 7)),
      .plain 2 (.globalSet 0)] none⟩,
    ⟨#[], 0, .scope 0 .block (.func 1)
      [.plain 1 (.globalGet 0), .plain 2 .drop, .plain 3 (.globalGet 0)] none⟩]

def fresh : Instance Unit Unit where
  env := { module := clobbering, hosts := #[], observer := .silent, maxDepth := 4 }
  world := ⟨⟨#[.pending], none, #[]⟩, (), ()⟩

theorem create_clobbering : Instance.create clobbering {} 4 .silent ()
    () = .ok fresh := by
  with_unfolding_all rfl

/-- A call of the second function.  Its first read starts the initializer, whose result
takes the place of what was set in between. -/
theorem second_call : History fresh.env (.idle fresh.world)
    ([.fetched (.plain 1 (.globalGet 0)), .started 0,
      .fetched (.plain 1 (.call ⟨0, 0, 0, 0, none⟩)),
        .fetched (.plain 1 (.const (.i32 7))),
      .fetched (.plain 2 (.globalSet 0)), .set 0 (.i32 7)
        [.function 0, .global 0, .function 1],
      .fetched (.plain 2 (.const (.i32 1))), .completed 0 (.i32 1)] ++
      .read 0 (.i32 1) :: [.fetched (.plain 2 .drop),
        .fetched (.plain 3 (.globalGet 0)),
        .read 0 (.i32 1)])
    (.idle ⟨⟨#[.ready (.i32 1)], none, #[]⟩, (), ()⟩) := by
  have hperform : (Operation.invoke 1 []).perform fresh.env 40 fresh.world =
      (.ok [.i32 1], ⟨⟨#[.ready (.i32 1)], none, #[]⟩, (), ()⟩) := by
        with_unfolding_all rfl
  have hpast := History.nil.perform hperform (by simp)
  with_unfolding_all exact hpast

/-- The value that was set is lost. -/
theorem initializer_overwrites_set :
    Instance.create clobbering {} 4 .silent () () = .ok fresh ∧
    ¬ ∀ (log before after : List Event) (now : Moment Unit Unit) (v w : Value),
      History fresh.env (.idle fresh.world) log now →
        log = before ++ .read 0 v :: after →
      latest (Event.set? 0) before = some w → v = w := by
  refine ⟨create_clobbering, fun hclaim => ?_⟩
  have hsame := hclaim _ _ _ _ _ (.i32 7) second_call rfl rfl
  cases hsame

/-- A call of the first function and then one of the second. -/
theorem both_calls : History fresh.env (.idle fresh.world)
    ([.fetched (.plain 1 (.const (.i32 7))), .fetched (.plain 2 (.globalSet 0)),
      .set 0 (.i32 7) [.function 0], .fetched (.plain 1 (.globalGet 0))] ++
      .read 0 (.i32 7) :: [.fetched (.plain 2 .drop),
        .fetched (.plain 3 (.globalGet 0)),
        .read 0 (.i32 7)])
    (.idle ⟨⟨#[.ready (.i32 7)], none, #[]⟩, (), ()⟩) := by
  have hfirst : (Operation.invoke 0 []).perform fresh.env 40 fresh.world =
      (.ok [], ⟨⟨#[.ready (.i32 7)], none, #[]⟩, (), ()⟩) := by with_unfolding_all rfl
  have hsecond : (Operation.invoke 1 []).perform fresh.env 40
      ⟨⟨#[.ready (.i32 7)], none, #[]⟩, (), ()⟩ =
      (.ok [.i32 7], ⟨⟨#[.ready (.i32 7)], none, #[]⟩, (), ()⟩) := by
        with_unfolding_all rfl
  have hpast := (History.nil.perform hfirst (by simp)).perform hsecond (by simp)
  with_unfolding_all exact hpast

/-- What was set from outside the initializer is read. -/
theorem set_outside_is_read : ∃ before after now v,
    History fresh.env (.idle fresh.world) (before ++ .read 0 v :: after) now ∧
      latest (Event.set? 0) before = some (.i32 7) ∧ v = .i32 7 := by
  refine ⟨_, _, _, _, both_calls, rfl, ?_⟩
  obtain ⟨-, hset⟩ := read_yields_latest_write create_clobbering both_calls rfl
  exact (hset (by simp)).1 _ rfl

end WritesWitness

end WasmVm
