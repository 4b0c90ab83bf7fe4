/-
Globals are initialized when they are first wanted, and once.  All of it follows from
one count: the completed runs of an initializer, those under way and the one that is
still to come are never more than one.
-/
import WasmVm.Proofs.Globals.Cells
import WasmVm.Proofs.Typing.Instances

namespace WasmVm

variable {ω σ : Type}

/-- Whether the event ends the initializer of the global. -/
def Event.completes (index : Nat) : Event → Bool
  | completed i _ => i == index
  | _ => false

/-- Runs of the initializer that may still complete: those under way, and one more if
it has not run yet. -/
def Cell.runsLeft (c : Cell) : Nat :=
  c.frames + if c.state = some .pending then 1 else 0

namespace CellStep

variable {index : Nat} {c c' : Cell} {log events : List Event}

/-- A run that completes is one of those that were left, and no step adds any. -/
theorem runsLeft_le (h : CellStep index c events c')
    (hevaluating : c.state = some .evaluating → c.frames = 1) :
    events.countP (Event.completes index) + c'.runsLeft ≤ c.runsLeft := by
  cases h with
  | rest | read | refuse => simp [Cell.runsLeft, Event.completes]
  | set => simp [Cell.runsLeft, Event.completes]
  | start => simp [Cell.runsLeft, Event.completes]
  | @complete state =>
      rcases state with _ | g <;> simp [Cell.runsLeft, Event.completes] <;> omega
  | @fail state frames =>
      rcases state with _ | g
      · simp [Cell.runsLeft]
      · by_cases hg : g = .evaluating
        · subst hg
          have hframes : frames = 1 := hevaluating rfl
          simp [Cell.runsLeft, GlobalState.settled, hframes]
        · simp [Cell.runsLeft, GlobalState.settled, hg]

/-- A global is evaluating while one frame runs its initializer. -/
theorem frames_of_evaluating (h : CellStep index c events c') (hruns : c.runsLeft ≤ 1)
    (hevaluating : c.state = some .evaluating → c.frames = 1)
    (hlater : c'.state = some .evaluating) : c'.frames = 1 := by
  cases h with
  | rest => exact hevaluating hlater
  | read | set | refuse => simp at hlater
  | start => simpa [Cell.runsLeft] using hruns
  | @complete state => rcases state with _ | g <;> simp at hlater
  | fail => simp at hlater

/-- Only a `global.set` gives a value to a global while its initializer is running. -/
theorem set_of_running (h : CellStep index c events c') (hruns : c.runsLeft ≤ 1)
    (hrunning : c.frames ≠ 0 → c.state = some .evaluating ∨
      ∃ v owners, .set index v owners ∈ log)
    (hlater : c'.frames ≠ 0) :
    c'.state = some .evaluating ∨ ∃ v owners, .set index v owners ∈ log ++ events := by
  have hkept : (∃ v owners, .set index v owners ∈ log) →
      ∃ v owners, .set index v owners ∈ log ++ events := by
    rintro ⟨v, owners, hset⟩
    exact ⟨v, owners, List.mem_append_left _ hset⟩
  cases h with
  | rest | read => exact (hrunning hlater).imp_right hkept
  | set => exact .inr ⟨_, _, List.mem_append_right _ (List.mem_singleton_self _)⟩
  | start => exact .inl rfl
  | complete =>
      simp only [Cell.runsLeft] at hruns
      dsimp only at hlater
      omega
  | fail | refuse => exact absurd rfl hlater

/-- Once a global has a value it keeps having one, and its initializer starts no more.
-/
theorem ready {v : Value} (h : CellStep index c events c')
    (hready : c.state = some (.ready v)) :
    (∃ v', c'.state = some (.ready v')) ∧ .started index ∉ events := by
  cases h with
  | rest => exact ⟨⟨v, hready⟩, by simp⟩
  | read | set => exact ⟨⟨_, rfl⟩, by simp⟩
  | start | refuse => simp at hready
  | complete =>
      dsimp only at hready
      rw [hready]
      exact ⟨⟨_, rfl⟩, by simp⟩
  | fail =>
      dsimp only at hready
      rw [hready]
      exact ⟨⟨v, rfl⟩, by simp⟩

end CellStep

/-- What is always true of a global, in view of what has happened to it. -/
structure Cell.Orderly (index : Nat) (log : List Event) (c : Cell) : Prop where
  runs : log.countP (Event.completes index) + c.runsLeft ≤ 1
  evaluating : c.state = some .evaluating → c.frames = 1
  running : c.frames ≠ 0 → c.state = some .evaluating ∨
    ∃ v owners, .set index v owners ∈ log

namespace CellRun

variable {index : Nat} {c c' : Cell} {log : List Event}

/-- A global that starts without frames is always orderly. -/
theorem orderly (h : CellRun index c log c') (hframes : c.frames = 0)
    (hstate : c.state ≠ some .evaluating) : c'.Orderly index log := by
  induction h with
  | nil =>
      refine ⟨?_, fun h => absurd h hstate, fun h => absurd hframes h⟩
      rw [Cell.runsLeft, hframes]
      split <;> simp
  | next _ hstep ih =>
      obtain ⟨hruns, hevaluating, hrunning⟩ := ih
      have hle := hstep.runsLeft_le hevaluating
      refine ⟨?_, hstep.frames_of_evaluating (by omega) hevaluating,
        hstep.set_of_running (by omega) hrunning⟩
      rw [List.countP_append]
      omega

theorem ready {v : Value} (h : CellRun index c log c')
    (hready : c.state = some (.ready v)) :
    (∃ v', c'.state = some (.ready v')) ∧ .started index ∉ log := by
  induction h with
  | nil => exact ⟨⟨v, hready⟩, by simp⟩
  | next _ hstep ih =>
      obtain ⟨⟨v', hnow⟩, hlog⟩ := ih
      obtain ⟨hlater, hevents⟩ := hstep.ready hnow
      exact ⟨hlater, by simp [hlog, hevents]⟩

/-- A defined global never comes to be without a state, or unbound. -/
theorem bound (h : CellRun index c log c')
    (hstate : c.state ≠ none ∧ c.state ≠ some .unbound) :
    c'.state ≠ none ∧ c'.state ≠ some .unbound := by
  induction h with
  | nil => exact hstate
  | next _ hstep ih =>
      cases hstep with
      | rest | read => exact ih
      | set | start | refuse => simp
      | @complete state => rcases state with _ | g <;> simp_all
      | @fail state =>
          rcases state with _ | g
          · exact ih
          · by_cases hg : g = .evaluating <;> simp_all [GlobalState.settled]

end CellRun

/-! ### Instances -/

/-- Linking leaves no global to an initializer. -/
def Linking.Settled (l : Linking ω) : Prop :=
  ∀ index : Nat, l.globals[index]? ≠ some .pending ∧
    l.globals[index]? ≠ some .evaluating

namespace Linking

theorem Settled.push {l : Linking ω} {g : GlobalState}
    {offered : Imports ω} (h : l.Settled) (hg : g ≠ .pending ∧ g ≠ .evaluating) :
    Settled { l with globals := l.globals.push g, offered } := by
  intro index
  dsimp only
  rw [Array.getElem?_push]
  split
  · simpa using hg
  · exact h index

theorem bind_settled {l l' : Linking ω} {i : Import} (h : l.Settled)
    (hbind : l.bind i = .ok l') :
    l'.Settled := by
  unfold Linking.bind at hbind
  split at hbind
  · cases hbind
    exact h
  · dsimp only at hbind
    split at hbind
    · cases hbind
      exact h.push (by simp)
    · split at hbind
      · cases hbind
        exact h.push (by simp)
      · cases hbind
  · cases hbind
    exact h

theorem foldlM_settled {imports : List Import} {l l' : Linking ω} (h : l.Settled)
    (hfold : imports.foldlM Linking.bind l = .ok l') : l'.Settled := by
  induction imports generalizing l with
  | nil =>
      cases hfold
      exact h
  | cons i imports ih =>
      rw [List.foldlM_cons] at hfold
      obtain ⟨next, hbind, hrest⟩ : ∃ next, l.bind i = .ok next ∧
          imports.foldlM Linking.bind next = .ok l' := by
        cases hbind : l.bind i with
        | error t =>
            rw [hbind] at hfold
            cases hfold
        | ok next => exact ⟨next, rfl, by rwa [hbind] at hfold⟩
      exact ih (bind_settled h hbind) hrest

end Linking

namespace Instance

variable {m : Module} {offered : Imports ω} {maxDepth : Nat}
  {observer : Observer σ} {host : ω} {watch : σ} {inst : Instance ω σ}

/-- The globals of a fresh instance: those imported, which linking has settled, and then
those defined, which are pending. -/
theorem create_globals
    (h : Instance.create m offered maxDepth observer host watch = .ok inst)
    (index : Nat) :
    inst.world.store.globals[index]? ≠ some .evaluating ∧
      (inst.world.store.globals[index]? = some .pending →
        (inst.env.module.initializer? index).isSome) := by
  obtain ⟨linking, memory, hfold, -, rfl⟩ := create_eq h
  have hstart : Linking.Typed [] ({ offered } : Linking ω) := ⟨rfl, by simp⟩
  have hsize : linking.globals.size = m.importedGlobals :=
    (Linking.foldlM_typed hstart hfold).1
  have hsettled : linking.Settled := Linking.foldlM_settled (fun _ => by simp) hfold
  dsimp only
  rw [Array.getElem?_append, Module.initializer?, ← hsize]
  by_cases himported : index < linking.globals.size
  · rw [if_pos himported]
    exact ⟨(hsettled index).2, fun hpending => absurd hpending (hsettled index).1⟩
  · rw [if_neg himported, if_neg himported, Array.getElem?_map]
    cases m.globals[index - linking.globals.size]? <;> simp

/-- Its globals can be initialized. -/
theorem create_defined
    (h : Instance.create m offered maxDepth observer host watch = .ok inst) :
    (Moment.idle inst.world).Defined inst.env.module := by
  intro index hstate
  obtain ⟨hidle, hpending⟩ := create_globals h index
  exact hpending (hstate.resolve_right hidle)

/-- Its globals are orderly from then on. -/
theorem create_orderly
    (h : Instance.create m offered maxDepth observer host watch = .ok inst)
    {log : List Event} {now : Moment ω σ}
    (hpast : History inst.env (.idle inst.world) log now) (index : Nat) :
    (now.cell index).Orderly index (eventsAbout index log) := by
  obtain ⟨-, hrun⟩ := hpast.cellRun (create_defined h)
  apply (hrun index).orderly
  · rw [Moment.cell_idle]
  · rw [Moment.cell_idle]
    exact (create_globals h index).1

/-- Between operations no global of it is being evaluated. -/
theorem create_idle
    (h : Instance.create m offered maxDepth observer host watch = .ok inst)
    {log : List Event} {w : World ω σ}
    (hpast : History inst.env (.idle inst.world) log (.idle w)) (index : Nat) :
    w.store.globals[index]? ≠ some .evaluating := by
  intro hevaluating
  have hframes := (create_orderly h hpast index).evaluating
  rw [Moment.cell_idle] at hframes
  exact absurd (hframes hevaluating) (by simp)

end Instance

/-! ### Reading -/

/-- A global that can be read from outside: it has a value, or its initializer runs to
find one. -/
def World.CanRead (env : Env ω σ) (w : World ω σ) (index : Nat) : Prop :=
  (∃ v, (Operation.readGlobal index).start env w = .done (.ok [v]) w) ∨
    ∃ s, (Operation.readGlobal index).start env w = .running s ∧
      s.owners = [.global index]

/-- A global with an initializer can be read whenever it is not being evaluated. -/
theorem Moment.Defined.canRead {env : Env ω σ} {w : World ω σ} {index : Nat}
    (hdefined : (Moment.idle w).Defined env.module)
    (hbound : w.store.globals[index]? ≠ none ∧ w.store.globals[index]? ≠ some .unbound)
    (hidle : w.store.globals[index]? ≠ some .evaluating) : w.CanRead env index := by
  obtain ⟨g, hg⟩ := Option.ne_none_iff_exists'.mp hbound.1
  rw [hg] at hbound hidle
  cases g with
  | unbound => exact absurd rfl hbound.2
  | evaluating => exact absurd rfl hidle
  | ready v =>
      refine .inl ⟨v, ?_⟩
      rw [Operation.start, Store.readGlobal_eq_some.mpr hg]
  | pending =>
      obtain ⟨body, hbody⟩ := Option.isSome_iff_exists.mp (hdefined index (.inl hg))
      refine .inr ⟨⟨.ofFrame (.ofBody env.module (.global index) body #[] none),
        (w.mapStore (·.setGlobal index .evaluating)).mapWatch
          (env.observer.enter (.global index))⟩, ?_, rfl⟩
      rw [Operation.start, Store.readGlobal_eq_none.mpr hg]
      simp only [World.enter, Frame.ofGlobal, hbody]
      rfl

/-- A read of a global that is being evaluated ends the run.  If the observer lets it
happen it is a trap, and the trap names the global. -/
theorem State.advance_cyclic_read (env : Env ω σ) {s : State ω σ}
    {id index : Nat} {f : Frame}
    (hfetch : s.calls.top.fetch? = some (.plain id (.globalGet index), f))
    (hevaluating : s.world.store.globals[index]? = some .evaluating) :
    ∃ e watch, s.advance env = .done (.error e) ⟨s.world.store, s.world.host, watch⟩ ∧
      ((env.observer.step (s.view (.plain id (.globalGet index)) f) s.world.watch).1 =
        .ok () →
        e = .trap (.globalCycle index)
          (some ((f.point (.plain id (.globalGet index))).site env.module))) := by
  have hread : s.world.store.readGlobal index = .error (.globalCycle index) := by
    rw [Store.readGlobal, hevaluating]
  have hexecute : f.execute env.module s.world.store (.plain id (.globalGet index)) =
      .error (.globalCycle index) := by
    simp only [Frame.execute, Frame.executePlain, hread]
    rfl
  rcases State.fetch_cases env hfetch with
    ⟨e, watch, hstep, hadvance, -⟩ | ⟨watch, -, ⟨t, htrap, hadvance, -⟩ |
      ⟨g, action, hgoes, -, -⟩⟩
  · exact ⟨_, watch, hadvance, fun hok => by simp [hstep] at hok⟩
  · obtain rfl : .globalCycle index = t := Except.error.inj (hexecute.symm.trans htrap)
    exact ⟨_, watch, hadvance, fun _ => rfl⟩
  · rw [hexecute] at hgoes
    cases hgoes

theorem mem_eventsAbout {index : Nat} {e : Event} {log : List Event}
    (h : e.index? = some index) : e ∈ eventsAbout index log ↔ e ∈ log := by
  simp [eventsAbout, h]

/-- Other events are none that end an initializer. -/
theorem countP_completes_eventsAbout (index : Nat) (log : List Event) :
    (eventsAbout index log).countP (Event.completes index) =
      log.countP (Event.completes index) := by
  rw [eventsAbout, List.countP_filter]
  apply List.countP_congr
  intro e _
  cases e <;> simp [Event.completes, Event.index?]

namespace Instance

variable {m : Module} {offered : Imports ω} {maxDepth : Nat}
  {observer : Observer σ} {host : ω} {watch : σ} {inst : Instance ω σ}
  {log : List Event}

/-- No initializer completes twice. -/
theorem create_completes
    (h : Instance.create m offered maxDepth observer host watch = .ok inst)
    {now : Moment ω σ} (hpast : History inst.env (.idle inst.world) log now)
    (index : Nat) :
    log.countP (Event.completes index) ≤ 1 := by
  have hruns := (create_orderly h hpast index).runs
  rw [countP_completes_eventsAbout] at hruns
  omega

/-- From when a global has a value on, it has one and its initializer does not start. -/
theorem create_ready
    (h : Instance.create m offered maxDepth observer host watch = .ok inst)
    {now later : Moment ω σ} (hpast : History inst.env (.idle inst.world) log now)
    {index : Nat} {v : Value} (hready : now.store.globals[index]? = some (.ready v))
    {more : List Event} (hfuture : History inst.env now more later) :
    (∃ v', later.store.globals[index]? = some (.ready v')) ∧ .started index ∉ more := by
  obtain ⟨hdefined, -⟩ := hpast.cellRun (create_defined h)
  obtain ⟨hlater, hstarted⟩ := ((hfuture.cellRun hdefined).2 index).ready hready
  exact ⟨hlater, fun hmem => hstarted ((mem_eventsAbout rfl).mpr hmem)⟩

/-- A global that is bound can be read between any later operations. -/
theorem create_canRead
    (h : Instance.create m offered maxDepth observer host watch = .ok inst)
    {w w' : World ω σ} (hpast : History inst.env (.idle inst.world) log (.idle w))
    {index : Nat} (hbound : w.store.globals[index]? ≠ none ∧
      w.store.globals[index]? ≠ some .unbound)
    {more : List Event} (hfuture : History inst.env (.idle w) more (.idle w')) :
    w'.CanRead inst.env index := by
  obtain ⟨hdefined, -⟩ := hpast.cellRun (create_defined h)
  obtain ⟨hdefined', hrun⟩ := hfuture.cellRun hdefined
  refine hdefined'.canRead ?_ (create_idle h (hpast.trans hfuture) index)
  have hlater := (hrun index).bound
  rw [Moment.cell_idle, Moment.cell_idle] at hlater
  exact hlater hbound

end Instance

/-! ### The life of a global -/

/-- Between operations the global is not being evaluated.  During one no two frames run
its initializer, and while it is being evaluated one does. -/
def Moment.Exclusive (index : Nat) : Moment ω σ → Prop
  | idle w => w.store.globals[index]? ≠ some .evaluating
  | busy s => s.owners.count (.global index) ≤ 1 ∧
      (s.world.store.globals[index]? = some .evaluating →
        s.owners.count (.global index) = 1)

/-- What is being evaluated here is pending in the world that is left, and can be read
whenever an operation has ended from then on. -/
def State.Releases (env : Env ω σ) (s : State ω σ) (left : World ω σ) : Prop :=
  ∀ j : Nat, s.world.store.globals[j]? = some .evaluating →
    left.store.globals[j]? = some .pending ∧
      ∀ log w, History env (.idle left) log (.idle w) → w.CanRead env j

/-- The read of a global by its own initializer.  It ends the run, and if the observer
permits it then as a trap that names the global and the instruction. -/
structure State.EndsInCycle (env : Env ω σ) (s : State ω σ) (id index : Nat) (f : Frame)
    (e : Error) (w : World ω σ) : Prop where
  ends : s.advance env = .done (.error e) w
  trap :
    (env.observer.step (s.view (.plain id (.globalGet index)) f) s.world.watch).1 =
      .ok () →
      e = .trap (.globalCycle index)
        (some ((f.point (.plain id (.globalGet index))).site env.module))
  moment : (s.advance env).moment = .idle (w.mapStore Store.settle)
  releases : s.Releases env (w.mapStore Store.settle)

/-- How a global stands at a moment, in view of all that has happened until then. -/
structure Lifecycle (env : Env ω σ) (index : Nat) (log : List Event)
    (now : Moment ω σ) : Prop where
  exclusive : now.Exclusive index
  kept : ∀ v more later, now.store.globals[index]? = some (.ready v) →
    History env now more later →
    (∃ v', later.store.globals[index]? = some (.ready v')) ∧ .started index ∉ more
  once : log.countP (Event.completes index) ≤ 1
  cycle : ∀ s id f, now = .busy s →
    s.calls.top.fetch? = some (.plain id (.globalGet index), f) →
    .global index ∈ s.owners → (∀ v owners, .set index v owners ∉ log) →
    ∃ e w, s.EndsInCycle env id index f e w

/-- The life of a global, whatever is asked of an instance and whatever hosts and
observer do.

Between operations no global is being evaluated.  During one, no two frames run the
same initializer, and a global that is being evaluated has just one frame that does.  A
global that has a value keeps having one and its initializer starts no more, so that at
most one run of it ever completes.  An instruction that wants a global whose
initializer is running, and which has not been set, traps; what was being evaluated
then is pending again, and can be read from then on. -/
theorem globals_initialize_once {m : Module} {offered : Imports ω} {maxDepth : Nat}
    {observer : Observer σ} {host : ω} {watch : σ} {inst : Instance ω σ}
    (hcreate : Instance.create m offered maxDepth observer host watch = .ok inst)
    {log : List Event} {now : Moment ω σ}
    (hpast : History inst.env (.idle inst.world) log now) (index : Nat) :
    Lifecycle inst.env index log now where
  exclusive := by
    cases now with
    | idle w => exact Instance.create_idle hcreate hpast index
    | busy s =>
        have horderly := Instance.create_orderly hcreate hpast index
        refine ⟨?_, horderly.evaluating⟩
        have hruns := horderly.runs
        rw [Moment.cell_busy, Cell.runsLeft] at hruns
        dsimp only at hruns
        omega
  kept _ _ _ hready hfuture := Instance.create_ready hcreate hpast hready hfuture
  once := Instance.create_completes hcreate hpast index
  cycle := by
    rintro s id f rfl hfetch howner hunset
    have hevaluating : s.world.store.globals[index]? = some .evaluating := by
      have hframes : s.owners.count (.global index) ≠ 0 :=
        Nat.ne_of_gt (List.count_pos_iff.mpr howner)
      have hrunning := (Instance.create_orderly hcreate hpast index).running hframes
      refine hrunning.resolve_right ?_
      rintro ⟨v, owners, hset⟩
      exact hunset v owners ((mem_eventsAbout rfl).mp hset)
    obtain ⟨e, watch, hadvance, htrap⟩ := State.advance_cyclic_read inst.env hfetch
      hevaluating
    have hmoment : (s.advance inst.env).moment = .idle
        (World.mapStore ⟨s.world.store, s.world.host, watch⟩ Store.settle) := by
      rw [hadvance]
      rfl
    refine ⟨e, _, hadvance, htrap, hmoment, fun j hj => ?_⟩
    have hpending : s.world.store.settle.globals[j]? = some .pending := by
      simp [Store.settle, hj]
    refine ⟨hpending, fun log' w' hfuture => ?_⟩
    -- From the trap on it is the history of an instance between operations.
    have hafter := hpast.next .advanced
    rw [hmoment] at hafter
    refine Instance.create_canRead hcreate hafter ?_ hfuture
    exact ⟨by simp [World.mapStore, hpending], by simp [World.mapStore, hpending]⟩

namespace LifecycleWitness

/-- Two globals, each initialized with the other. -/
def cyclic : Module where
  globals := #[
    ⟨.i32, false, [0x23, 0x01, 0x0b],
      .scope 0 .block (.value .i32) [.plain 1 (.globalGet 1)] none⟩,
    ⟨.i32, false, [0x23, 0x00, 0x0b],
      .scope 0 .block (.value .i32) [.plain 1 (.globalGet 0)] none⟩]

def fresh : Instance Unit Unit where
  env := { module := cyclic, hosts := #[], observer := .silent, maxDepth := 2 }
  world := ⟨⟨#[.pending, .pending], none, #[]⟩, (), ()⟩

/-- The first global is wanted. -/
def first : State Unit Unit :=
  ⟨.ofFrame (.ofBody cyclic (.global 0)
    (.scope 0 .block (.value .i32) [.plain 1 (.globalGet 1)] none) #[] none),
      ⟨⟨#[.evaluating, .pending], none, #[]⟩, (), ()⟩⟩

/-- It wants the second one, and that the first again. -/
def second : State Unit Unit :=
  ⟨{ top := .ofBody cyclic (.global 1)
      (.scope 0 .block (.value .i32) [.plain 1 (.globalGet 0)] none) #[] none
     callers :=
       [⟨.global 0, #[], [], [⟨[], [.plain 1 (.globalGet 1)], 0, 1, false⟩], none⟩]
     owners := [.global 1, .global 0]
     depth := 2 },
    ⟨⟨#[.evaluating, .evaluating], none, #[]⟩, (), ()⟩⟩

theorem second_past : History fresh.env (.idle fresh.world)
    [.started 0, .fetched (.plain 1 (.globalGet 1)), .started 1] (.busy second) := by
  have hbegun : Operation.start fresh.env fresh.world (.readGlobal 0) =
      .running first := rfl
  have hadvanced : (first.advance fresh.env).moment = .busy second := rfl
  have hpast := (History.nil.next (.begun hbegun)).next .advanced
  rw [hadvanced] at hpast
  exact hpast

/-- The cycle ends in a trap, and the first global can be read again. -/
theorem cyclic_read_traps : ∃ e w, second.advance fresh.env = .done (.error e) w ∧
    e = .trap (.globalCycle 0) (some ⟨.globalGet, "global 1 initializer", 1⟩) ∧
    (w.mapStore Store.settle).CanRead fresh.env 0 := by
  have hcreate : Instance.create cyclic {} 2 .silent () () = .ok fresh := by
    with_unfolding_all rfl
  have hlife := globals_initialize_once hcreate second_past 0
  obtain ⟨e, w, hcycle⟩ := hlife.cycle second 1 _ rfl rfl (by decide) (by simp)
  exact ⟨e, w, hcycle.ends, hcycle.trap rfl, (hcycle.releases 0 rfl).2 [] _ .nil⟩

end LifecycleWitness

/-! ### Callers -/

/-- How a global stands for those who perform operations on an instance, of which some
may have failed. -/
structure World.Lasting (inst : Instance ω σ) (index : Nat) (log : List Event)
    (w : World ω σ) : Prop where
  idle : w.store.globals[index]? ≠ some .evaluating
  once : log.countP (Event.completes index) ≤ 1
  kept : ∀ v more w', w.store.globals[index]? = some (.ready v) →
    Performs inst.env w more w' →
    (∃ v', w'.store.globals[index]? = some (.ready v')) ∧ .started index ∉ more
  readable : inst.world.store.globals[index]? ≠ none →
    inst.world.store.globals[index]? ≠ some .unbound → w.CanRead inst.env index

/-- Globals through operations that are performed one after the other.  No operation
leaves a global half evaluated, not even one that has ended in an error, and so each
that is not an unbound import can be read after it; one that has a value keeps having
one, and over all operations no initializer completes twice. -/
theorem operations_initialize_once {m : Module} {offered : Imports ω} {maxDepth : Nat}
    {observer : Observer σ} {host : ω} {watch : σ} {inst : Instance ω σ}
    (hcreate : Instance.create m offered maxDepth observer host watch = .ok inst)
    {log : List Event} {w : World ω σ} (hpast : Performs inst.env inst.world log w)
    (index : Nat) : w.Lasting inst index log where
  idle := Instance.create_idle hcreate hpast.history index
  once := Instance.create_completes hcreate hpast.history index
  kept _ _ _ hready hfuture :=
    Instance.create_ready hcreate hpast.history hready hfuture.history
  readable hexists hbound :=
    Instance.create_canRead hcreate .nil ⟨hexists, hbound⟩ hpast.history

end WasmVm
