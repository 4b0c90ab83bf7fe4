/-
What an observer sees of an instance from one operation to the next: instructions, each
with the frames there are and with the observer's own state.  Frames are numbered as
they are entered, so that none is taken for another one of the same function.
-/
import WasmVm.Proofs.Observing.Nesting

namespace WasmVm

variable {ω σ : Type}

/-! ### The hooks of an operation -/

/-- The hooks of an operation are those of its run so far, or until its last step, if
there is anything to run. -/
theorem Operation.hooks_run (env : Env ω σ) (w : World ω σ)
    (op : Operation) (fuel : Nat) :
    op.hooks env fuel w = [] ∨ ∃ s log t, op.start env.logging w.logging = .running s ∧
      State.Runs env.logging s log t ∧
      (op.hooks env fuel w = t.world.watch.2 ∨
        ∃ hook, t.LastHook hook ∧ op.hooks env fuel w = t.world.watch.2 ++ [hook]) := by
  cases hstart : op.start env.logging w.logging with
  | done result w' =>
      have hwatch := Operation.start_done hstart
      rw [hooks, perform_eq, hstart]
      cases result <;> exact .inl (congrArg Prod.snd hwatch)
  | running s =>
      obtain ⟨log, t, hruns, hends⟩ := op.hooks_cases env w fuel hstart
      refine .inr ⟨s, log, t, rfl, hruns, ?_⟩
      rcases hends with ⟨-, hhooks⟩ | ⟨-, -, hook, -, hlast, hhooks, -⟩
      · exact .inl hhooks
      · exact .inr ⟨hook, hlast, hhooks⟩

/-- Each is called when it should be. -/
theorem Operation.hooks_fit (env : Env ω σ) (w : World ω σ)
    (op : Operation) (fuel : Nat) :
    AllFit (op.hooks env fuel w) := by
  rcases op.hooks_run env w fuel with hnone | ⟨s, log, t, hstart, hruns, hhooks⟩
  · rw [hnone]
    exact fun before hook after h => by simp at h
  · obtain ⟨hlisted, -, hrecorded⟩ := hruns.recorded hstart
    rcases hhooks with hhooks | ⟨hook, hlast, hhooks⟩
    · exact hhooks ▸ hrecorded.fit
    · exact hhooks ▸ (hrecorded.ends hlisted hlast).1

namespace State

variable {env : Env ω σ} {s s' : State ω σ}

/-- What an instruction asks for is not watched, but for a frame that is entered. -/
theorem perform_watch {p : Point} {action : Action}
    (h : perform env s p action = .running s') :
    s'.world.watch = s.world.watch ∨
      ∃ owner, s'.world.watch = env.observer.enter owner s.world.watch := by
  have hpush : ∀ {w : World ω σ} {callee : Except Trap Frame}, w.watch = s.world.watch →
      push env ⟨s.calls, w⟩ p callee = .running s' →
      ∃ owner, s'.world.watch = env.observer.enter owner s.world.watch := by
    intro w callee hwatch h
    unfold push at h
    split at h
    · cases h
    · next frame =>
        split at h
        · cases h
        · cases h
          exact ⟨frame.owner, congrArg _ hwatch⟩
  cases action with
  | proceed | setGlobal | write | grow | dropSegment =>
      cases h
      exact .inl rfl
  | startGlobal index =>
      have hwatch : (s.world.mapStore (·.setGlobal index .evaluating)).watch =
          s.world.watch := rfl
      exact .inr (hpush hwatch h)
  | call => exact .inr (hpush rfl h)
  | callHost function args =>
      have hwatch := s.world.watch_callHost env function args
      unfold perform at h
      dsimp only at h
      split at h
      · cases h
      · next values world hreply =>
          cases h
          rw [hreply] at hwatch
          exact .inl hwatch

/-- An instruction that is written down has been fetched. -/
theorem advance_shown {t t' : State ω (σ × List Hook)} (hlisted : t.OwnersListed)
    (h : t.advance env.logging = .running t') {view : View}
    (hmem : .step view ∈ t'.world.watch.2) :
    .step view ∈ t.world.watch.2 ∨
      ∃ node f, t.calls.top.fetch? = some (node, f) ∧ view = t.view node f := by
  rcases t.calls.top.scopes_cases with hend | ⟨scope, outer, hscopes, hrest⟩ |
    ⟨node, f, hfetch⟩
  · rw [advance_of_finished hend] at h
    obtain ⟨hwatch, -⟩ := finish_calls hlisted h
    rw [hwatch] at hmem
    rcases List.mem_append.mp hmem with hmem | hlast
    · exact .inl hmem
    · cases List.mem_singleton.mp hlast
  · rw [advance_of_empty hscopes hrest] at h
    cases h
    exact .inl hmem
  · rcases fetch_cases env.logging hfetch with ⟨e, watch, -, hadvance, -⟩ |
      ⟨watch, hstep, ⟨trap, -, hadvance, -⟩ | ⟨g, action, -, hadvance, -⟩⟩
    · cases h.symm.trans hadvance
    · cases h.symm.trans hadvance
    · rw [hadvance] at h
      have hwritten : watch.2 = t.world.watch.2 ++ [.step (t.view node f)] :=
        (congrArg (fun reply => reply.2.2) hstep).symm
      have hmem : .step view ∈ watch.2 := by
        rcases perform_watch h with hwatch | ⟨owner, hwatch⟩
        · rwa [hwatch] at hmem
        · rw [hwatch] at hmem
          rcases List.mem_append.mp hmem with hmem | hlast
          · exact hmem
          · cases List.mem_singleton.mp hlast
      rw [hwritten] at hmem
      rcases List.mem_append.mp hmem with hmem | hlast
      · exact .inl hmem
      · cases List.mem_singleton.mp hlast
        exact .inr ⟨node, f, hfetch, rfl⟩

end State

/-- What a run has shown so far has been fetched earlier in it. -/
theorem State.Runs.fetched_of_shown {env : Env ω σ} {w : World ω σ} {op : Operation}
    {s t : State ω (σ × List Hook)} {log : List Event} {view : View}
    (hruns : State.Runs env.logging s log t)
    (hstart : op.start env.logging w.logging = .running s)
    (hmem : .step view ∈ t.world.watch.2) :
    ∃ log t node f, State.Runs env.logging s log t ∧
      t.calls.top.fetch? = some (node, f) ∧ view = t.view node f := by
  induction hruns with
  | start =>
      rw [(Operation.start_calls hstart).2.2] at hmem
      cases List.mem_singleton.mp hmem
  | @step log t t' hruns hadvance ih =>
      rcases State.advance_shown (hruns.recorded hstart).1 hadvance hmem with
        hmem | ⟨node, f, hfetch, hview⟩
      · exact ih hmem
      · exact ⟨log, t, node, f, hruns, hfetch, hview⟩

/-- What an operation shows has been fetched in its run. -/
theorem Operation.fetched_of_shown {env : Env ω σ} {w : World ω σ}
    {op : Operation} {fuel : Nat} {view : View} (h : .step view ∈ op.hooks env fuel w) :
    ∃ s log t node f, op.start env.logging w.logging = .running s ∧
      State.Runs env.logging s log t ∧ t.calls.top.fetch? = some (node, f) ∧
      view = t.view node f := by
  rcases op.hooks_run env w fuel with hnone | ⟨s, log, t, hstart, hruns, hhooks⟩
  · rw [hnone] at h
    cases h
  · refine ⟨s, ?_⟩
    rcases hhooks with hhooks | ⟨hook, hlast, hhooks⟩
    · rw [hhooks] at h
      obtain ⟨log, t, node, f, hfetched⟩ := hruns.fetched_of_shown hstart h
      exact ⟨log, t, node, f, hstart, hfetched⟩
    · rw [hhooks] at h
      rcases List.mem_append.mp h with h | h
      · obtain ⟨log, t, node, f, hfetched⟩ := hruns.fetched_of_shown hstart h
        exact ⟨log, t, node, f, hstart, hfetched⟩
      · obtain rfl := List.mem_singleton.mp h
        cases hlast with
        | shown hfetch => exact ⟨log, t, _, _, hstart, hruns, hfetch, rfl⟩

/-- Keeps hooks and nothing else: where another observer would be by them is worked out
anew each time. -/
def Observer.replaying (o : Observer σ) (watch : σ) : Observer (List Hook) where
  enter owner hooks := hooks ++ [.enter owner]
  leave owner hooks := hooks ++ [.leave owner]
  step view hooks := ((o.step view (hooks.foldl o.after watch)).1,
    hooks ++ [.step view])

theorem Observer.replaying_mirrors (o : Observer σ) (watch : σ) :
    (o.replaying watch).Mirrors o.logging fun hooks =>
    (hooks.foldl o.after watch, hooks) := by
  have hnext : ∀ hooks hook, o.after (hooks.foldl o.after watch) hook =
      (hooks ++ [hook]).foldl o.after watch := fun hooks hook => by
    rw [List.foldl_append, List.foldl_cons, List.foldl_nil]
  exact ⟨⟨fun owner hooks => Prod.ext (hnext hooks (.enter owner)) rfl,
    fun owner hooks => Prod.ext (hnext hooks (.leave owner)) rfl⟩,
    fun view hooks => Prod.ext rfl (Prod.ext (hnext hooks (.step view)) rfl)⟩

/-- What an observer keeps of an operation is what the hooks leave behind, one after the
other. -/
theorem Operation.perform_watch (env : Env ω σ) (w : World ω σ)
    (op : Operation) (fuel : Nat) :
    (op.perform env fuel w).2.watch = (op.hooks env fuel w).foldl
      env.observer.after w.watch := by
  let replay := env.watchedBy (env.observer.replaying w.watch)
  have hmirrors : replay.observer.Mirrors env.observer.logging
      fun hooks => (hooks.foldl env.observer.after w.watch, hooks) :=
    env.observer.replaying_mirrors w.watch
  have hperform : op.perform env.logging fuel w.logging =
      ((op.perform replay fuel ⟨w.store, w.host, []⟩).1,
        (op.perform replay fuel ⟨w.store, w.host, []⟩).2.through
          fun hooks => (hooks.foldl env.observer.after w.watch, hooks)) :=
    op.perform_through hmirrors fuel ⟨w.store, w.host, []⟩
  rw [op.perform_logging env fuel w, hooks, hperform]
  rfl

/-! ### Ledgers -/

/-- A frame that has been entered, by its number. -/
structure Activation where
  number : Nat
  owner : Owner

/-- Where things stand between two hooks: the number of the next frame, the frames that
have been entered and not left, the running one first, and the observer's state. -/
structure Ledger (σ : Type) where
  next : Nat
  frames : List Activation
  watch : σ

/-- An instruction that is shown, with the frames there are and the observer's state
before. -/
structure Sight (σ : Type) where
  view : View
  frames : List Activation
  watch : σ

/-- The frame of the instruction is not there any more. -/
def Sight.Gone (x later : Sight σ) : Prop :=
  ∀ a, x.frames.head? = some a → a ∉ later.frames

namespace Ledger

/-- A frame that is entered gets a number that none has had. -/
def after (o : Observer σ) (l : Ledger σ) (hook : Hook) : Ledger σ :=
  match hook with
  | .enter owner => ⟨l.next + 1, ⟨l.next, owner⟩ :: l.frames, o.after l.watch hook⟩
  | .leave _ => ⟨l.next, l.frames.tail, o.after l.watch hook⟩
  | .step _ => ⟨l.next, l.frames, o.after l.watch hook⟩

/-- An instruction as it is shown now. -/
def sight (l : Ledger σ) (view : View) : Sight σ :=
  ⟨view, l.frames, l.watch⟩

/-- What hooks show one after the other. -/
def sights (o : Observer σ) (l : Ledger σ) : List Hook → List (Sight σ)
  | [] => []
  | .step view :: hooks => l.sight view :: (l.after o (.step view)).sights o hooks
  | hook :: hooks => (l.after o hook).sights o hooks

variable {o : Observer σ} {l : Ledger σ}

theorem watch_foldl_after (hooks : List Hook) :
    (hooks.foldl (after o) l).watch = hooks.foldl o.after l.watch := by
  induction hooks generalizing l with
  | nil => rfl
  | cons hook hooks ih =>
      rw [List.foldl_cons, ih]
      cases hook <;> rfl

/-- The frames of a ledger are those that have been entered and not left. -/
theorem owners_foldl_after (hooks : List Hook) :
    (hooks.foldl (after o) l).frames.map Activation.owner =
      hooks.foldl Hook.track (l.frames.map Activation.owner) := by
  induction hooks generalizing l with
  | nil => rfl
  | cons hook hooks ih =>
      rw [List.foldl_cons, ih]
      cases hook <;> simp [after, Hook.track]

/-- What is seen is shown by one of the hooks. -/
theorem mem_sights {hooks : List Hook} {x : Sight σ} (h : x ∈ l.sights o hooks) :
    ∃ before after', hooks = before ++ .step x.view :: after' ∧
      x = (before.foldl (after o) l).sight x.view := by
  induction hooks generalizing l with
  | nil => cases h
  | cons hook hooks ih =>
      have hlater : x ∈ (l.after o hook).sights o hooks →
          ∃ before after', hook :: hooks = before ++ .step x.view :: after' ∧
            x = (before.foldl (after o) l).sight x.view := by
        intro h
        obtain ⟨before, after', rfl, hx⟩ := ih h
        exact ⟨hook :: before, after', rfl, hx⟩
      cases hook with
      | step view =>
          rcases List.mem_cons.mp h with rfl | h
          · exact ⟨[], hooks, rfl, rfl⟩
          · exact hlater h
      | enter | leave => exact hlater h

/-- No two frames have the same number, and the next number is free. -/
structure Numbered (l : Ledger σ) : Prop where
  distinct : (l.frames.map Activation.number).Nodup
  free : ∀ a ∈ l.frames, a.number < l.next

theorem Numbered.nodup (h : l.Numbered) : l.frames.Nodup :=
  List.Pairwise.of_map Activation.number (fun _ _ hne heq =>
    hne (congrArg _ heq)) h.distinct

theorem Numbered.after (h : l.Numbered) (o : Observer σ) (hook : Hook) :
    (l.after o hook).Numbered := by
  obtain ⟨hdistinct, hfree⟩ := h
  cases hook with
  | enter owner =>
      refine ⟨List.nodup_cons.mpr ⟨?_, hdistinct⟩, List.forall_mem_cons.mpr ⟨?_, ?_⟩⟩
      · intro hmem
        obtain ⟨a, ha, hnumber⟩ := List.mem_map.mp hmem
        exact absurd hnumber (Nat.ne_of_lt (hfree a ha))
      · exact Nat.lt_succ_self l.next
      · exact fun a ha => Nat.lt_succ_of_lt (hfree a ha)
  | leave =>
      refine ⟨?_, fun a ha => hfree a (List.mem_of_mem_tail ha)⟩
      show (l.frames.tail.map Activation.number).Nodup
      rw [List.map_tail]
      exact hdistinct.tail
  | step => exact ⟨hdistinct, hfree⟩

end Ledger

/-! ### Sessions -/

/-- An operation that is asked for, with the fuel it gets.  The host functions may have
another state each time. -/
structure Request (ω : Type) where
  op : Operation
  fuel : Nat
  host : ω

namespace Request

/-- The hooks of the operation. -/
def hooks (env : Env ω σ) (w : World ω σ) (r : Request ω) : List Hook :=
  r.op.hooks env r.fuel ⟨w.store, r.host, w.watch⟩

/-- The world afterwards. -/
def world (env : Env ω σ) (w : World ω σ) (r : Request ω) : World ω σ :=
  (r.op.perform env r.fuel ⟨w.store, r.host, w.watch⟩).2

end Request

/-- What is seen of operations one after the other. -/
def session (env : Env ω σ) : (next : Nat) → World ω σ →
    List (Request ω) → List (Sight σ)
  | _, _, [] => []
  | next, w, r :: rest =>
    let begun : Ledger σ := ⟨next, [], w.watch⟩
    let ended := (r.hooks env w).foldl (Ledger.after env.observer) begun
    begun.sights env.observer (r.hooks env w) ++ session env ended.next
      (r.world env w) rest

/-- What is seen from a ledger to a later one. -/
inductive Leads (o : Observer σ) (start : Ledger σ) : List (Sight σ) → Ledger σ → Prop
  | refl : Leads o start [] start
  | entered {seen l owner} (h : Leads o start seen l) :
      Leads o start seen (l.after o (.enter owner))
  | left {seen l owner} (h : Leads o start seen l) :
      Leads o start seen (l.after o (.leave owner))
  | shown {seen l view} (h : Leads o start seen l) :
      Leads o start (seen ++ [l.sight view]) (l.after o (.step view))
  /-- An operation is over, and its frames are gone. -/
  | ended {seen l} (h : Leads o start seen l) :
      Leads o start seen { l with frames := [] }

namespace Leads

variable {o : Observer σ} {start l : Ledger σ} {seen : List (Sight σ)}

theorem trans {more : List (Sight σ)} {last : Ledger σ} (h : Leads o start seen l)
    (hmore : Leads o l more last) : Leads o start (seen ++ more) last := by
  induction hmore with
  | refl => rwa [List.append_nil]
  | entered _ ih => exact ih.entered
  | left _ ih => exact ih.left
  | shown _ ih =>
      rw [← List.append_assoc]
      exact ih.shown
  | ended _ ih => exact ih.ended

theorem hooks (o : Observer σ) (l : Ledger σ) (hooks : List Hook) :
    Leads o l (l.sights o hooks) (hooks.foldl (Ledger.after o) l) := by
  induction hooks generalizing l with
  | nil => exact .refl
  | cons hook hooks ih =>
      cases hook with
      | enter => exact (entered .refl).trans (ih _)
      | leave => exact (left .refl).trans (ih _)
      | step view => exact (shown .refl).trans (ih _)

theorem numbered (h : Leads o start seen l) (hstart : start.Numbered) : l.Numbered := by
  induction h with
  | refl => exact hstart
  | entered _ ih | left _ ih | shown _ ih => exact ih.after o _
  | ended => exact ⟨List.nodup_nil, fun _ => nofun⟩

/-- What is seen is seen at some ledger in between. -/
theorem split {before rest : List (Sight σ)} {x : Sight σ}
    (h : Leads o start (before ++ x :: rest) l) :
    ∃ now, Leads o start before now ∧ x = now.sight x.view ∧
      Leads o (now.after o (.step x.view)) rest l := by
  generalize hseen : before ++ x :: rest = seen at h
  induction h generalizing rest with
  | refl =>
      cases List.append_ne_nil_of_right_ne_nil before (List.cons_ne_nil x rest) hseen
  | entered _ ih =>
      obtain ⟨now, hbefore, hx, hrest⟩ := ih hseen
      exact ⟨now, hbefore, hx, hrest.entered⟩
  | left _ ih =>
      obtain ⟨now, hbefore, hx, hrest⟩ := ih hseen
      exact ⟨now, hbefore, hx, hrest.left⟩
  | ended _ ih =>
      obtain ⟨now, hbefore, hx, hrest⟩ := ih hseen
      exact ⟨now, hbefore, hx, hrest.ended⟩
  | @shown seen now view hpast ih =>
      rcases List.eq_nil_or_concat rest with rfl | ⟨rest, last, rfl⟩
      · obtain ⟨rfl, hlast⟩ := List.append_inj' hseen rfl
        obtain rfl := List.head_eq_of_cons_eq hlast
        exact ⟨now, hpast, rfl, .refl⟩
      · rw [List.concat_eq_append, ← List.cons_append, ← List.append_assoc] at hseen
        obtain ⟨hearlier, hlast⟩ := List.append_inj' hseen rfl
        obtain rfl := List.head_eq_of_cons_eq hlast
        obtain ⟨now', hbefore, hx, hrest⟩ := ih hearlier
        rw [List.concat_eq_append]
        exact ⟨now', hbefore, hx, hrest.shown⟩

/-- A frame stays where it is until it is left, and does not come back. -/
theorem frame {a : Activation} {below : List Activation} (h : Leads o start seen l)
    (hstart : start.Numbered) (hframes : start.frames = a :: below) :
    a.number < l.next ∧ (a ∉ l.frames ∨ ∃ above, l.frames = above ++ a :: below) := by
  obtain ⟨hdistinct, hfree⟩ := hstart
  rw [hframes] at hdistinct hfree
  have hbelow : a ∉ below := fun hmem =>
    (List.nodup_cons.mp hdistinct).1 (List.mem_map_of_mem hmem)
  induction h with
  | refl => exact ⟨hfree a List.mem_cons_self, .inr ⟨[], hframes⟩⟩
  | @entered seen l owner _ ih =>
      obtain ⟨hnumber, hgone | ⟨above, hlive⟩⟩ := ih
      · refine ⟨Nat.lt_succ_of_lt hnumber, .inl fun hmem => ?_⟩
        rcases List.mem_cons.mp hmem with rfl | hmem
        · exact absurd hnumber (Nat.lt_irrefl _)
        · exact hgone hmem
      · exact ⟨Nat.lt_succ_of_lt hnumber,
          .inr ⟨⟨l.next, owner⟩ :: above, congrArg _ hlive⟩⟩
  | @left seen l owner _ ih =>
      obtain ⟨hnumber, hgone | ⟨above, hlive⟩⟩ := ih
      · exact ⟨hnumber, .inl fun hmem => hgone (List.mem_of_mem_tail hmem)⟩
      · refine ⟨hnumber, ?_⟩
        show a ∉ l.frames.tail ∨ ∃ above, l.frames.tail = above ++ a :: below
        rw [hlive]
        cases above with
        | nil => exact .inl hbelow
        | cons top above => exact .inr ⟨above, rfl⟩
  | shown _ ih => exact ih
  | ended _ ih => exact ⟨ih.1, .inl List.not_mem_nil⟩

/-- So the frame of an instruction is gone, or it is there with the same frames below
it. -/
theorem frames_cases {x : View} (h : Leads o (start.after o (.step x)) seen l)
    (hstart : (start.after o (.step x)).Numbered) (y : View) :
    (start.sight x).Gone (l.sight y) ∨ ∃ above, l.frames = above ++ start.frames := by
  cases hframes : start.frames with
  | nil => exact .inr ⟨l.frames, (List.append_nil _).symm⟩
  | cons a below =>
      refine (h.frame hstart hframes).2.imp_left fun hgone a' hhead => ?_
      rw [Ledger.sight, hframes] at hhead
      cases hhead
      exact hgone

end Leads

/-- All that is seen of operations one after the other leads to where they leave the
observer. -/
theorem session_leads (env : Env ω σ) (next : Nat) (w : World ω σ)
    (requests : List (Request ω)) :
    ∃ l, Leads env.observer ⟨next, [], w.watch⟩ (session env next w requests) l := by
  induction requests generalizing next w with
  | nil => exact ⟨_, .refl⟩
  | cons r rest ih =>
      have hfirst :=
        (Leads.hooks env.observer ⟨next, [], w.watch⟩ (r.hooks env w)).ended
      obtain ⟨l, hrest⟩ := ih
        ((r.hooks env w).foldl (Ledger.after env.observer) ⟨next, [], w.watch⟩).next
        (r.world env w)
      have hwatch : (r.world env w).watch =
          ((r.hooks env w).foldl (Ledger.after env.observer) ⟨next, [],
            w.watch⟩).watch := by
        rw [Ledger.watch_foldl_after]
        exact Operation.perform_watch env ⟨w.store, r.host, w.watch⟩ r.op r.fuel
      rw [hwatch] at hrest
      exact ⟨l, hfirst.trans hrest⟩

/-- What is seen is shown by one of the operations, with the frames that it has entered
and not left. -/
theorem mem_session {env : Env ω σ} {next : Nat} {w : World ω σ}
    {requests : List (Request ω)} {x : Sight σ} (h : x ∈ session env next w requests) :
    ∃ (r : Request ω) (w' : World ω σ) (before after : List Hook),
      r.hooks env w' = before ++ .step x.view :: after ∧
        x.frames.map Activation.owner = unmatched before := by
  induction requests generalizing next w with
  | nil => cases h
  | cons r rest ih =>
      rcases List.mem_append.mp h with h | h
      · obtain ⟨before, after, hhooks, hx⟩ := Ledger.mem_sights h
        refine ⟨r, w, before, after, hhooks, ?_⟩
        rw [hx]
        exact Ledger.owners_foldl_after before
      · exact ih h

/-- The frames of what is seen are those on the call stack, and the instruction is one
of the first. -/
structure Sight.Faithful (x : Sight σ) : Prop where
  callStack : x.view.callStack = (x.frames.map Activation.owner).reverse
  running : x.frames.head?.map Activation.owner = some x.view.owner

namespace Sight.Faithful

variable {x y : Sight σ}

theorem length_frames (h : x.Faithful) : x.frames.length = x.view.callDepth := by
  rw [← View.length_callStack, h.callStack, List.length_reverse, List.length_map]

theorem callDepth_eq (hy : y.Faithful) (hx : x.Faithful) {above : List Activation}
    (h : y.frames = above ++ x.frames) :
    y.view.callDepth = above.length + x.view.callDepth := by
  rw [← hy.length_frames, ← hx.length_frames, h, List.length_append]

theorem owner_eq (hy : y.Faithful) (hx : x.Faithful)
    (h : y.frames.head? = x.frames.head?) :
    y.view.owner = x.view.owner := by
  have hrunning := hy.running
  rw [h, hx.running] at hrunning
  exact (Option.some.inj hrunning).symm

end Sight.Faithful

theorem session_faithful {env : Env ω σ} {next : Nat} {w : World ω σ}
    {requests : List (Request ω)} {x : Sight σ} (h : x ∈ session env next w requests) :
    x.Faithful := by
  obtain ⟨r, w', before, after, hhooks, hframes⟩ := mem_session h
  obtain ⟨-, hstack, hlast⟩ := r.op.hooks_fit env _ r.fuel before _ after hhooks
  rw [← hframes] at hstack
  refine ⟨hstack, ?_⟩
  rw [hstack, List.getLast?_reverse, List.head?_map] at hlast
  exact hlast

end WasmVm
