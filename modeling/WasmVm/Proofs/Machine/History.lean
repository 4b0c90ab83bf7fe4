/-
The life of an instance: operations one after the other, each step by step, and
whatever the outside does to its own state in between.
-/
import WasmVm.Proofs.Machine.Events

namespace WasmVm

variable {ω σ : Type}

/-- An instance between two operations, or during one. -/
inductive Moment (ω σ : Type) where
  | idle (world : World ω σ)
  | busy (s : State ω σ)

namespace Moment

/-- The lasting state of the instance. -/
def store : Moment ω σ → Store
  | idle w => w.store
  | busy s => s.world.store

/-- The owners of the frames on the call stack. -/
def owners : Moment ω σ → List Owner
  | idle _ => []
  | busy s => s.owners

end Moment

/-- Where a step of a run leads. -/
def Outcome.moment : Outcome ω σ → Moment ω σ
  | running s => .busy s
  | done (.ok _) w => .idle w
  -- Initializers that were cut short may run again.
  | done (.error _) w => .idle (w.mapStore Store.settle)

/-- What comes after a moment, with the events in between. -/
inductive Follows (env : Env ω σ) : Moment ω σ → List Event → Moment ω σ → Prop
  /-- The state of the host functions and of the observer is not the instance's own. -/
  | outside {w host watch} : Follows env (.idle w) [] (.idle ⟨w.store, host, watch⟩)
  | answered {w w' op result} (hstart : Operation.start env w op = .done result w') :
      Follows env (.idle w) (op.startEvents env w) (.idle w')
  | begun {w s op} (hstart : Operation.start env w op = .running s) :
      Follows env (.idle w) (op.startEvents env w) (.busy s)
  | advanced {s} : Follows env (.busy s) (s.events env) (s.advance env).moment

/-- What has happened between two moments, the earliest event first. -/
inductive History (env : Env ω σ) (start : Moment ω σ) : List Event → Moment ω σ → Prop
  | nil : History env start [] start
  | next {log events now later} (hpast : History env start log now)
      (hfollows : Follows env now events later) :
      History env start (log ++ events) later

namespace History

variable {env : Env ω σ} {start : Moment ω σ} {log : List Event}

/-- What happens later belongs to the same history. -/
theorem trans {now later : Moment ω σ} {more : List Event}
    (h : History env start log now)
    (hmore : History env now more later) : History env start (log ++ more) later := by
  induction hmore with
  | nil => simpa using h
  | next _ hfollows ih =>
      rw [← List.append_assoc]
      exact ih.next hfollows

/-- A run that ends is part of the history. -/
theorem run {s : State ω σ} (h : History env start log (.busy s)) {fuel : Nat}
    (hends : (s.run env fuel).1 ≠ .error .outOfFuel) :
    History env start (log ++ s.trace env fuel) (.idle (s.run env fuel).2) := by
  induction fuel generalizing s log with
  | zero => exact absurd rfl hends
  | succ fuel ih =>
      have hnext := h.next .advanced
      rw [State.trace, ← List.append_assoc]
      rw [State.run] at hends ⊢
      generalize s.advance env = outcome at hnext hends ⊢
      cases outcome with
      | running s' => exact ih hnext hends
      | done result w =>
          cases result with
          | ok values => simpa [Outcome.moment] using hnext
          | error e => simpa [Outcome.moment] using hnext

/-- So is an operation that has been answered. -/
theorem perform {w w' : World ω σ} {op : Operation} {fuel : Nat}
    {result : Except Halt (List Value)} (h : History env start log (.idle w))
    (hperform : op.perform env fuel w = (result, w'))
    (hends : result ≠ .error .outOfFuel) :
    History env start (log ++ op.trace env fuel w) (.idle w') := by
  rw [Operation.perform_eq] at hperform
  rw [Operation.trace, ← List.append_assoc]
  cases hstart : op.start env w with
  | running s =>
      rw [hstart] at hperform
      obtain ⟨rfl, rfl⟩ := Prod.mk.inj hperform
      apply (h.next (.begun hstart)).run
      intro hfuel
      apply hends
      cases op <;> simp [Operation.answer, hfuel]
  | done result' w'' =>
      have hnext := h.next (.answered hstart)
      rw [hstart] at hperform
      cases result' <;> cases hperform <;> simpa using hnext

end History

/-! ### Operations -/

/-- Operations performed one after the other, with their events.  Each has come to its
end, well or badly, and before each the outside may have changed its own state. -/
inductive Performs (env : Env ω σ) (start : World ω σ) : List Event → World ω σ → Prop
  | nil : Performs env start [] start
  | next {log w host watch op fuel result w'} (hpast : Performs env start log w)
      (hperform : Operation.perform env fuel ⟨w.store, host, watch⟩ op = (result, w'))
      (hends : result ≠ .error .outOfFuel) :
      Performs env start (log ++ op.trace env fuel ⟨w.store, host, watch⟩) w'

/-- They are a history from one idle moment to another. -/
theorem Performs.history {env : Env ω σ} {start w : World ω σ} {log : List Event}
    (h : Performs env start log w) : History env (.idle start) log (.idle w) := by
  induction h with
  | nil => exact .nil
  | next _ hperform hends ih =>
      apply History.perform _ hperform hends
      simpa using ih.next .outside

end WasmVm
