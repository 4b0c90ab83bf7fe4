/-
First reads of globals.  A read from outside runs the initializer alone, and one by an
instruction runs it on top of the frame that wants the value; either way the value
comes out of the frame of the initializer.
-/
import WasmVm.Proofs.Observing.Noninterference

namespace WasmVm

variable {ω σ : Type}

/-- The value that a global gets out of those left for it. -/
def firstFor (index : Nat) : List Value → Except Halt Value
  | [] => .error (.error (.trap (.globalEmpty index) none))
  | v :: _ => .ok v

/-- The value for a global that comes out of a frame with `level` frames below it: the
run goes on until it has fewer frames, and whoever wanted the value has it on top. -/
def State.delivery (env : Env ω σ) (index level : Nat) :
    (fuel : Nat) → State ω σ → Except Halt Value
  | 0, _ => .error .outOfFuel
  | fuel + 1, s =>
    match s.advance env with
    | .running s' =>
      if s'.calls.callers.length < level then firstFor index s'.calls.top.stack
      else delivery env index level fuel s'
    | .done (.ok values) _ => firstFor index values
    | .done (.error e) _ => .error (.error e)

/-- A read of a global from outside, or by the instruction that a run is about to
fetch. -/
inductive GlobalRead (ω σ : Type) where
  | outside (w : World ω σ)
  | inside (s : State ω σ)

namespace GlobalRead

/-- What a read comes to, with fuel for the initializer. -/
def answer (env : Env ω σ) (index : Nat) (r : GlobalRead ω σ) (fuel : Nat) :
    Except Halt Value :=
  match r with
  | outside w => (env.readGlobal fuel w index).1
  | inside s => s.delivery env index (s.calls.callers.length + 1) (fuel + 1)

/-- A read that has to run the initializer, in an instance without memory: there is
room for its frame. -/
inductive First (env : Env ω σ) (index : Nat) : GlobalRead ω σ → Prop
  | outside {w : World ω σ} (hpending : w.store.globals[index]? = some .pending)
      (hmemory : w.store.memory = none) : First env index (.outside w)
  | inside {s : State ω σ} {id : Nat} {f : Frame}
      (hfetch : s.calls.top.fetch? = some (.plain id (.globalGet index), f))
      (hpending : s.world.store.globals[index]? = some .pending)
      (hmemory : s.world.store.memory = none) (hroom : s.calls.depth < env.maxDepth) :
      First env index (.inside s)

end GlobalRead

/-! ### Delivery -/

/-- More fuel does not change an answer. -/
def Steady (x : Nat → Except Halt Value) : Prop :=
  ∀ fuel fuel', x fuel ≠ .error .outOfFuel → fuel ≤ fuel' → x fuel' = x fuel

namespace State

variable {env : Env ω σ} {index level : Nat} {s s' : State ω σ}

theorem delivery_of_running (h : s.advance env = .running s')
    (hlevel : level ≤ s'.calls.callers.length) (fuel : Nat) :
    s.delivery env index level (fuel + 1) = s'.delivery env index level fuel := by
  rw [delivery, h]
  exact if_neg (Nat.not_lt.mpr hlevel)

theorem delivery_of_error {e : Error} {w : World ω σ}
    (h : s.advance env = .done (.error e) w)
    (fuel : Nat) : s.delivery env index level (fuel + 1) = .error (.error e) := by
  rw [delivery, h]

theorem delivery_steady (env : Env ω σ) (index level : Nat) (s : State ω σ) :
    Steady fun fuel => s.delivery env index level fuel := by
  intro fuel fuel' hends hle
  induction fuel generalizing s fuel' with
  | zero => exact absurd rfl hends
  | succ fuel ih =>
      obtain ⟨more, rfl⟩ := Nat.exists_eq_add_of_le hle
      rw [Nat.add_right_comm fuel 1 more] at hle ⊢
      simp only [delivery] at hends ⊢
      cases hadvance : s.advance env with
      | done result w => cases result <;> rfl
      | running s' =>
          simp only [hadvance] at hends
          dsimp only
          split
          · rfl
          · next hlevel =>
              rw [if_neg hlevel] at hends
              exact ih s' _ hends (by omega)

/-- A read from outside gets what is delivered when there is no frame left. -/
theorem run_eq_delivery (env : Env ω σ) (index fuel : Nat) (s : State ω σ) :
    ((s.run env fuel).1 >>= firstFor index) = s.delivery env index 0 fuel := by
  induction fuel generalizing s with
  | zero => rfl
  | succ fuel ih =>
      rw [run, delivery]
      rcases s.advance env with s' | ⟨e | values, w⟩
      · exact ih s'
      · rfl
      · rfl

/-- An initializer at its end hands its first value over. -/
theorem delivery_of_ended {stack : Stack}
    (htop : s.calls.top = ⟨.global index, #[], stack, [], none⟩)
    (hlevel : s.calls.callers.length = level) (fuel : Nat) :
    s.delivery env index level (fuel + 1) =
      match stack.reverse with
      | [] => .error (.error (.trap (.initializerEmpty index) none))
      | v :: _ => .ok v := by
  have hscopes : s.calls.top.scopes = [] := by rw [htop]
  have hfinish : s.calls.top.finish = .ok stack.reverse := by rw [htop]; rfl
  have howner : s.calls.top.owner = .global index := by rw [htop]
  have hadvance : s.advance env = s.finish env := advance_of_finished hscopes
  simp only [finish, hfinish, howner] at hadvance
  generalize stack.reverse = values at hadvance
  cases values with
  | nil => exact delivery_of_error hadvance fuel
  | cons v values =>
      rw [delivery, hadvance]
      cases hcallers : s.calls.callers with
      | nil =>
          simp only [handOver, CallStack.pop?_eq_none hcallers]
          rfl
      | cons f callers =>
          obtain ⟨below, hpop, rfl, rfl⟩ := CallStack.pop?_eq_some hcallers
          simp only [handOver, hpop]
          rw [hcallers] at hlevel
          exact if_pos (hlevel ▸ Nat.lt_succ_self _)

end State

/-! ### The first step -/

/-- A read from outside runs the initializer as the only frame. -/
theorem Env.readGlobal_of_pending {env : Env ω σ} {w : World ω σ}
    {index : Nat} {frame : Frame} (hpending : w.store.globals[index]? = some .pending)
    (hframe : Frame.ofGlobal env.module index = .ok frame) :
    ∃ s : State ω σ, s.calls.top = frame ∧ s.calls.callers = [] ∧
      s.world.store.memory = w.store.memory ∧ ∀ fuel,
        (env.readGlobal fuel w index).1 = s.delivery env index 0 fuel := by
  refine ⟨⟨.ofFrame frame, (w.mapStore (·.setGlobal index .evaluating)).mapWatch
    (env.observer.enter frame.owner)⟩, rfl, rfl, rfl, fun fuel => ?_⟩
  rw [← State.run_eq_delivery]
  simp only [readGlobal, Store.readGlobal, hpending, hframe, runFrame?, runFrame]
  rcases State.run env fuel _ with ⟨h | (_ | ⟨v, values⟩), w'⟩ <;> rfl

/-- A read by an instruction puts the initializer on top. -/
theorem State.advance_of_globalGet {env : Env ω σ} (hobserver : env.observer.Permissive)
    {s : State ω σ} {id index : Nat} {f frame : Frame}
    (hfetch : s.calls.top.fetch? = some (.plain id (.globalGet index), f))
    (hpending : s.world.store.globals[index]? = some .pending)
    (hframe : Frame.ofGlobal env.module index = .ok frame)
    (hroom : s.calls.depth < env.maxDepth) :
    ∃ s', s.advance env = .running s' ∧ s'.calls.top = frame ∧
      s'.calls.callers.length = s.calls.callers.length + 1 ∧
      s'.world.store.memory = s.world.store.memory := by
  obtain ⟨w, hw, hadvance⟩ :=
    advance_of_permitted (permitted_of_permissive hobserver s) hfetch
  have hexecute : f.execute env.module s.world.store (.plain id (.globalGet index)) =
      .ok (f, .startGlobal index) := by
    simp only [Frame.execute, Frame.executePlain, Store.readGlobal, hpending]
    rfl
  rw [hexecute] at hadvance
  simp only [perform, push, hframe] at hadvance
  refine ⟨_, hadvance.trans (if_neg (Nat.not_le.mpr hroom)), rfl, rfl, ?_⟩
  rw [← hw]
  rfl

/-- A first read runs the initializer of the global. -/
theorem GlobalRead.First.start {env : Env ω σ}
    (hobserver : env.observer.Permissive) {index : Nat} {frame : Frame}
    (hframe : Frame.ofGlobal env.module index = .ok frame) {r : GlobalRead ω σ}
    (h : r.First env index) :
    ∃ s : State ω σ, s.calls.top = frame ∧ s.world.store.memory = none ∧ ∀ fuel,
      r.answer env index fuel = s.delivery env index s.calls.callers.length fuel := by
  cases h with
  | outside hpending hmemory =>
      obtain ⟨s, htop, hcallers, hmemory', hanswer⟩ :=
        Env.readGlobal_of_pending hpending hframe
      refine ⟨s, htop, hmemory'.trans hmemory, fun fuel => ?_⟩
      rw [hcallers]
      exact hanswer fuel
  | inside hfetch hpending hmemory hroom =>
      obtain ⟨s', hadvance, htop, hlevel, hmemory'⟩ :=
        State.advance_of_globalGet hobserver hfetch hpending hframe hroom
      refine ⟨s', htop, hmemory'.trans hmemory, fun fuel => ?_⟩
      rw [hlevel]
      exact State.delivery_of_running hadvance (Nat.le_of_eq hlevel.symm) fuel

end WasmVm
