/-
Where a debugger pauses.  It keeps no more of a frame than how many there were; that
this number stands for the frame, until the frame is gone and in later operations too,
is read off the frames that have been entered and not left.
-/
import Mathlib.Data.List.Induction
import WasmVm.Proofs.Debugging.Pauses
import WasmVm.Proofs.Listing.Annotations
import WasmVm.Proofs.Listing.Correspondence
import WasmVm.Proofs.Observing.Noninterference
import WasmVm.Proofs.Observing.Sights

namespace WasmVm

variable {ω σ κ : Type}

/-! ### Lines -/

/-- The instruction is one of a function. -/
def View.InFunction (v : View) : Prop :=
  ∃ function, v.owner = .function function

/-- Every instruction of a function that an operation shows has a line. -/
theorem Operation.exists_line {env : Env ω σ} {fuel fuel' : Nat} {bytes : Array UInt8}
    (hmodule : Module.decode fuel bytes = .ok env.module)
    (style : Style) {w : World ω σ}
    {op : Operation} {v : View} (hshown : .step v ∈ op.hooks env fuel' w)
    {function : Nat} (howner : v.owner = .function function) :
    ∃ line, (Listing.ofModule env.module style).lineOf?
      ⟨function, v.node.id⟩ = some line := by
  have hmodule' : Module.decode fuel bytes = .ok env.logging.module := hmodule
  obtain ⟨hrange, hsize⟩ := Module.decodeWith_inRange hmodule'
  have hm := Module.decodeWith_bodiesRead hmodule'
  obtain ⟨s, log, t, node, f, hstart, hruns, hfetch, rfl⟩ := op.fetched_of_shown hshown
  obtain ⟨root, openers, before, after, hroot, hlocated⟩ :=
    Operation.runs_allInBody hm hrange hsize hstart hruns t.calls.top List.mem_cons_self
  rw [← Frame.fetch?_owner hfetch,
    show f.owner = .function function from howner] at hroot
  obtain ⟨code, hcode, rfl⟩ := Option.map_eq_some_iff.mp hroot
  obtain ⟨scope, outer, rest, hscopes, hrest, -⟩ := Frame.fetch?_eq_some hfetch
  rw [hscopes] at hlocated
  obtain ⟨depth, hentry⟩ := hlocated.entry hrest
  obtain ⟨line, hline, -⟩ := Option.bind_eq_some_iff.mp
    (Listing.lineAt?_instruction hm style hcode (List.mem_of_getElem? hentry) rfl)
  exact ⟨line, hline⟩

/-! ### What is seen by a debugger -/

namespace Sight

/-- What the controller is asked about the instruction, and its answers. -/
def pauses (m : Module) (c : Controller κ) (x : Sight (Debugger κ)) : List Pause :=
  x.watch.pausesAt m c x.view

/-- The line of the instruction holds a breakpoint. -/
def AtBreakpoint (x : Sight (Debugger κ)) : Prop :=
  ∃ line ∈ x.watch.breakpoints, x.watch.lineOf? x.view = some line

/-- After a command at one instruction a later one is where to pause next, breakpoints
apart. -/
def Due (x later : Sight σ) : Command → Prop
  | .stepIn => later.view.InFunction
  | .stepOver => later.frames.head? = x.frames.head? ∨
      x.Gone later ∧ later.view.InFunction ∧ later.view.callDepth ≤ x.view.callDepth
  | .stepOut => x.Gone later ∧ later.view.InFunction ∧
      later.view.callDepth < x.view.callDepth
  | .resume | .toggle _ | .quit => False

/-- What is known of each instruction that a debugger sees.  It is shown with the
frames on the call stack; those of functions have lines, and at some of these there is
a pause.  What the controller is asked is what it writes down, and that changes
nothing. -/
structure Watched (m : Module) (c : Controller κ) (x : Sight (Debugger κ)) : Prop where
  faithful : x.Faithful
  line : x.view.InFunction ↔ ∃ line, x.watch.lineOf? x.view = some line
  recorded : ∀ log, (x.watch.recording log).step m c.recording x.view =
    ((x.watch.step m c x.view).1, (x.watch.step m c x.view).2.recording
      (log ++ x.pauses m c))
  asked : x.pauses m c ≠ [] ↔
    ∃ line, x.watch.lineOf? x.view = some line ∧ x.watch.StopsAt line x.view.callDepth
  dialog : x.pauses m c ≠ [] → ∃ line, x.watch.lineOf? x.view = some line ∧
    x.watch.Dialog m c line x.view (x.pauses m c) (x.watch.step m c x.view).1
      (x.watch.step m c x.view).2
  quiet : x.pauses m c = [] → x.watch.step m c x.view = (.ok (), x.watch)

variable {m : Module} {c : Controller κ} {x y : Sight (Debugger κ)}

theorem Watched.asked_iff (h : x.Watched m c) : x.pauses m c ≠ [] ↔
    (x.view.InFunction ∧ x.watch.mode.Wants x.view.callDepth) ∨ x.AtBreakpoint := by
  rw [h.asked, h.line]
  constructor
  · rintro ⟨line, hline, hheld | hwants⟩
    · exact .inr ⟨line, hheld, hline⟩
    · exact .inl ⟨⟨line, hline⟩, hwants⟩
  · rintro (⟨⟨line, hline⟩, hwants⟩ | ⟨line, hheld, hline⟩)
    · exact ⟨line, hline, .inr hwants⟩
    · exact ⟨line, hline, .inl hheld⟩

section
variable {x y : Sight σ}

/-- Where to step over is told by the number of frames: as long as the frame of the
first instruction is there, no fewer frames are, and as many only if the frame itself
is running. -/
theorem over_iff (hx : x.Faithful) (hy : y.Faithful)
    (hframe : x.Gone y ∨ ∃ above, y.frames = above ++ x.frames)
    (hdistinct : y.frames.Nodup) (hfunction : x.view.InFunction) :
    x.Due y .stepOver ↔ y.view.InFunction ∧ y.view.callDepth ≤ x.view.callDepth := by
  obtain ⟨a, hhead, -⟩ := Option.map_eq_some_iff.mp hx.running
  rcases hframe with hgone | ⟨_ | ⟨top, above⟩, hlive⟩
  · have hother : y.frames.head? ≠ x.frames.head? := by
      rw [hhead]
      exact fun hsame => hgone a hhead (List.mem_of_mem_head? hsame)
    simp [Due, hother, hgone]
  · have hsame : y.frames.head? = x.frames.head? := by rw [hlive, List.nil_append]
    refine iff_of_true (.inl hsame) ⟨?_, ?_⟩
    · rwa [View.InFunction, hy.owner_eq hx hsame]
    · simp [hy.callDepth_eq hx hlive]
  · have hmem : a ∈ above ++ x.frames :=
      List.mem_append_right _ (List.mem_of_mem_head? hhead)
    refine iff_of_false ?_ ?_
    · rintro (hsame | ⟨hgone, -⟩)
      · rw [hlive, hhead] at hsame
        rw [hlive, List.cons_append, Option.some.inj hsame] at hdistinct
        exact (List.nodup_cons.mp hdistinct).1 hmem
      · exact hgone a hhead (hlive ▸ List.mem_cons_of_mem _ hmem)
    · rintro ⟨-, hdepth⟩
      rw [hy.callDepth_eq hx hlive, List.length_cons] at hdepth
      omega

/-- Where to step out of is told by the number of frames too. -/
theorem out_iff (hx : x.Faithful) (hy : y.Faithful)
    (hframe : x.Gone y ∨ ∃ above, y.frames = above ++ x.frames) :
    x.Due y .stepOut ↔ y.view.InFunction ∧ y.view.callDepth < x.view.callDepth := by
  refine and_iff_right_of_imp ?_
  rintro ⟨-, hdepth⟩
  rcases hframe with hgone | ⟨above, hlive⟩
  · exact hgone
  · rw [hy.callDepth_eq hx hlive] at hdepth
    omega

/-- What the debugger keeps after a command is enough to tell where to pause next. -/
theorem due_iff (hx : x.Faithful) (hy : y.Faithful)
    (hframe : x.Gone y ∨ ∃ above, y.frames = above ++ x.frames)
    (hdistinct : y.frames.Nodup) (hfunction : x.view.InFunction) {command : Command}
    {mode : PauseMode} (hmode : command.mode? x.view.callDepth = some mode) :
    x.Due y command ↔ y.view.InFunction ∧ mode.Wants y.view.callDepth := by
  cases command with
  | toggle | quit => cases hmode
  | resume | stepIn =>
      cases hmode
      simp [Due, PauseMode.Wants]
  | stepOver =>
      cases hmode
      exact over_iff hx hy hframe hdistinct hfunction
  | stepOut =>
      cases hmode
      exact out_iff hx hy hframe

end

end Sight

/-! ### From one pause to the next -/

namespace Leads

variable {m : Module} {style : Style} {c : Controller κ} {start l : Ledger (Debugger κ)}
  {seen : List (Sight (Debugger κ))}

theorem arises (h : Leads (Debugger.observer m c) start seen l)
    (hstart : start.watch.Arises m style) : l.watch.Arises m style := by
  induction h with
  | refl => exact hstart
  | entered _ ih | left _ ih | ended _ ih => exact ih
  | shown _ ih => exact ih.step c _

/-- Instructions at which there is no pause leave the debugger as it is. -/
theorem watch_of_quiet (h : Leads (Debugger.observer m c) start seen l)
    (hquiet : ∀ x ∈ seen, x.pauses m c = []) : l.watch = start.watch := by
  induction h with
  | refl => rfl
  | entered _ ih | left _ ih | ended _ ih => exact ih hquiet
  | @shown seen l view _ ih =>
      obtain ⟨hseen, hlast⟩ := List.forall_mem_append.mp hquiet
      have hstep : l.watch.step m c view = (.ok (), l.watch) :=
        Debugger.step_of_quiet (hlast _ List.mem_cons_self)
      exact (congrArg Prod.snd hstep).trans (ih hseen)

/-- Breakpoints stay as long as none is flipped. -/
theorem breakpoints_eq (h : Leads (Debugger.observer m c) start seen l)
    (hnone : ∀ x ∈ seen, ∀ pause ∈ x.pauses m c, ∀ line, pause.command ≠ .toggle line) :
    l.watch.breakpoints = start.watch.breakpoints := by
  induction h with
  | refl => rfl
  | entered _ ih | left _ ih | ended _ ih => exact ih hnone
  | @shown seen l view _ ih =>
      obtain ⟨hseen, hlast⟩ := List.forall_mem_append.mp hnone
      refine Eq.trans ?_ (ih hseen)
      rcases l.watch.step_cases m c view with ⟨-, hstep, -⟩ | ⟨line, -, -, hdialog⟩
      · exact congrArg (fun reply => reply.2.breakpoints) hstep
      · exact hdialog.breakpoints_eq (hlast _ List.mem_cons_self)

end Leads

/-- One instruction is seen, then some others, and then another one. -/
def Spans (seen : List (Sight σ)) (x : Sight σ) (between : List (Sight σ))
    (y : Sight σ) : Prop :=
  ∃ before after, seen = before ++ x :: (between ++ y :: after)

section
variable {env : Env ω (Debugger κ)} {c : Controller κ} {style : Style} {next : Nat}
  {w : World ω (Debugger κ)} {requests : List (Request ω)} {x y : Sight (Debugger κ)}

theorem session_watched {fuel : Nat} {bytes : Array UInt8}
    (hmodule : Module.decode fuel bytes = .ok env.module)
    (hobserver : env.observer = Debugger.observer env.module c)
    (hwatch : w.watch.Arises env.module style) (h : x ∈ session env next w requests) :
    x.Watched env.module c where
  faithful := session_faithful h
  line := by
    obtain ⟨before, after, hsession⟩ := List.append_of_mem h
    obtain ⟨last, hleads⟩ := session_leads env next w requests
    rw [hsession, hobserver] at hleads
    obtain ⟨now, hbefore, hx, -⟩ := hleads.split
    have hlisting : x.watch.listing = .ofModule env.module style := by
      rw [hx]
      exact (hbefore.arises hwatch).breakpoints.1
    obtain ⟨r, w', hooks, hooks', hhooks, -⟩ := mem_session h
    have hshown : .step x.view ∈ r.hooks env w' := by simp [hhooks]
    unfold Debugger.lineOf?
    rw [hlisting]
    constructor
    · rintro ⟨function, howner⟩
      rw [howner]
      exact Operation.exists_line hmodule style hshown howner
    · rintro ⟨line, hline⟩
      split at hline
      · next function howner => exact ⟨function, howner⟩
      · cases hline
  recorded := x.watch.step_recording env.module c x.view
  asked := Debugger.asked_iff
  dialog := Debugger.dialog_of_asked
  quiet := Debugger.step_of_quiet

/-- Until the next pause, breakpoints apart, the last answer says where it is. -/
theorem Spans.asked_iff {between : List (Sight (Debugger κ))}
    (hspans : Spans (session env next w requests) x between y)
    (hobserver : env.observer = Debugger.observer env.module c)
    (hwatched : ∀ z ∈ session env next w requests, z.Watched env.module c)
    {command : Command} (hlast : Debugger.lastAnswer? (x.pauses env.module c) =
      some command) (hquit : command ≠ .quit)
    (hquiet : ∀ z ∈ between, z.pauses env.module c = []) :
    y.pauses env.module c ≠ [] ↔ x.Due y command ∨ y.AtBreakpoint := by
  obtain ⟨before, after, hsession⟩ := hspans
  have hx := hwatched x (by simp [hsession])
  have hy := hwatched y (by simp [hsession])
  obtain ⟨last, hleads⟩ := session_leads env next w requests
  rw [hsession, hobserver] at hleads
  obtain ⟨now, hbefore, hnow, hrest⟩ := hleads.split
  obtain ⟨later, hbetween, hlater, -⟩ := hrest.split
  have hnumbered : now.Numbered := hbefore.numbered ⟨List.nodup_nil, fun _ => nofun⟩
  have hafter := hnumbered.after (Debugger.observer env.module c) (.step x.view)
  have hdistinct : y.frames.Nodup := by
    rw [hlater]
    exact (hbetween.numbered hafter).nodup
  have hasked : x.pauses env.module c ≠ [] := by
    intro hnone
    rw [hnone] at hlast
    cases hlast
  obtain ⟨line, hline, hdialog⟩ := hx.dialog hasked
  -- The debugger still is as the last answer has left it.
  have hwatch : y.watch = (x.watch.step env.module c x.view).2 := by
    rw [hlater, hnow]
    exact hbetween.watch_of_quiet hquiet
  have hframe : x.Gone y ∨ ∃ above, y.frames = above ++ x.frames := by
    rw [hnow, hlater]
    exact hbetween.frames_cases hafter y.view
  rw [hy.asked_iff, hwatch, Sight.due_iff hx.faithful hy.faithful hframe hdistinct
    (hx.line.mpr ⟨line, hline⟩) (hdialog.mode_eq hlast hquit)]

/-- Where no breakpoint is met, there is no pause before one is due. -/
theorem Spans.quiet {between : List (Sight (Debugger κ))}
    (hspans : Spans (session env next w requests) x between y)
    (hobserver : env.observer = Debugger.observer env.module c)
    (hwatched : ∀ z ∈ session env next w requests, z.Watched env.module c)
    (hnone : ∀ z ∈ session env next w requests, ¬ z.AtBreakpoint) {command : Command}
    (hlast : Debugger.lastAnswer? (x.pauses env.module c) = some command)
    (hquit : command ≠ .quit) (hdue : ∀ z ∈ between, ¬ x.Due z command) : ∀ z ∈ between,
      z.pauses env.module c = [] := by
  induction between using List.reverseRecOn generalizing y with
  | nil => exact fun z hz => absurd hz List.not_mem_nil
  | append_singleton between z ih =>
      obtain ⟨before, after, hsession⟩ := hspans
      have hearlier : Spans (session env next w requests) x between z :=
        ⟨before, y :: after, by rw [hsession, List.append_assoc]; rfl⟩
      obtain ⟨hbetween, hlast'⟩ := List.forall_mem_append.mp hdue
      have hquiet := ih hearlier hbetween
      have hz : z.pauses env.module c = [] := Classical.byContradiction fun hasked => by
        rcases (hearlier.asked_iff hobserver hwatched hlast hquit hquiet).mp
          hasked with hz | hz
        · exact hlast' z List.mem_cons_self hz
        · exact hnone z (by simp [hsession]) hz
      exact List.forall_mem_append.mpr ⟨hquiet, List.forall_mem_singleton.mpr hz⟩

end

/-- Where a debugger pauses, through all operations on an instance, whoever answers at
the prompt and ends every pause.

Every instruction of a function has a line.  At a pause the controller is asked about
that one instruction until its answer flips no breakpoint, and elsewhere nothing
happens.  After its last answer the next pause is at the first instruction where that
command makes one due or where the line holds a breakpoint; without breakpoints, at the
first where one is due.  By `stepIn` a pause is due at any instruction of a function;
by `stepOver` where the frame of the pause goes on or, once that frame is gone, at as
many frames or fewer; by `stepOut` once that frame is gone, at fewer frames; by
`resume` nowhere. -/
theorem debugger_pauses_where_due {env : Env ω (Debugger κ)} {fuel : Nat}
    {bytes : Array UInt8} (hmodule : Module.decode fuel bytes = .ok env.module)
    {c : Controller κ} (hobserver : env.observer = Debugger.observer env.module c)
    {style : Style} {w : World ω (Debugger κ)}
    (hwatch : w.watch.Arises env.module style) (requests : List (Request ω)) :
    (∀ x ∈ session env 0 w requests, x.Watched env.module c) ∧
    (∀ x between y command, Spans (session env 0 w requests) x between y →
      Debugger.lastAnswer? (x.pauses env.module c) = some command → command ≠ .quit →
      (∀ z ∈ between, z.pauses env.module c = []) →
      (y.pauses env.module c ≠ [] ↔ x.Due y command ∨ y.AtBreakpoint)) ∧
    ((∀ line, line ∉ w.watch.breakpoints) →
      (∀ z ∈ session env 0 w requests, ∀ pause ∈ z.pauses env.module c, ∀ line,
        pause.command ≠ .toggle line) →
      ∀ x between y command, Spans (session env 0 w requests) x between y →
        Debugger.lastAnswer? (x.pauses env.module c) = some command → command ≠ .quit →
        (∀ z ∈ between, ¬ x.Due z command) →
        (y.pauses env.module c ≠ [] ↔ x.Due y command)) := by
  have hwatched : ∀ z ∈ session env 0 w requests, z.Watched env.module c :=
    fun z hz => session_watched hmodule hobserver hwatch hz
  refine ⟨hwatched, fun x between y command hspans hlast hquit hquiet =>
    hspans.asked_iff hobserver hwatched hlast hquit hquiet, ?_⟩
  intro hfree hflips x between y command hspans hlast hquit hdue
  have hnone : ∀ z ∈ session env 0 w requests, ¬ z.AtBreakpoint := by
    rintro z hz ⟨line, hheld, -⟩
    obtain ⟨before, after, hsession⟩ := List.append_of_mem hz
    obtain ⟨last, hleads⟩ := session_leads env 0 w requests
    rw [hsession, hobserver] at hleads
    obtain ⟨now, hbefore, hnow, -⟩ := hleads.split
    rw [hnow] at hheld
    have hkept := hbefore.breakpoints_eq fun z hz =>
      hflips z (hsession ▸ List.mem_append_left _ hz)
    exact hfree line (hkept ▸ hheld)
  have hquiet := hspans.quiet hobserver hwatched hnone hlast hquit hdue
  rw [hspans.asked_iff hobserver hwatched hlast hquit hquiet]
  obtain ⟨before, after, hsession⟩ := hspans
  exact or_iff_left (hnone y (by simp [hsession]))

/-- An observer that refuses nothing sees what happens when nobody watches. -/
theorem Operation.hooks_unwatched {env : Env ω σ}
    (h : env.observer.Permissive) (w : World ω σ) (op : Operation) (fuel : Nat) :
    op.hooks env.unwatched fuel w.unwatched = op.hooks env fuel w := by
  have hmirrors : env.logging.observer.Mirrors (Observer.silent : Observer Unit).logging
      fun watch => ((), watch.2) :=
    ⟨⟨fun _ _ => rfl, fun _ _ => rfl⟩, fun view watch =>
      Prod.ext (h view watch.1).symm rfl⟩
  exact congrArg (fun reply => reply.2.watch.2)
    (op.perform_through hmirrors fuel w.logging)

namespace SteppingWitness

/-- A function that leaves nothing behind and one that calls it first. -/
def bytes : List UInt8 :=
  [0x00, 0x61, 0x73, 0x6d, 0x01, 0x00, 0x00, 0x00,
    0x01, 0x04, 0x01, 0x60, 0x00, 0x00, 0x03, 0x03, 0x02, 0x00, 0x00,
    0x0a, 0x0f, 0x02, 0x05, 0x00, 0x41, 0x01, 0x1a, 0x0b,
    0x07, 0x00, 0x10, 0x00, 0x41, 0x02, 0x1a, 0x0b]

def module : Module where
  types := #[⟨[], []⟩]
  functions := #[0, 0]
  codes := #[
    ⟨#[], 0, .scope 0 .block (.func 0) [.plain 1 (.const (.i32 1)),
      .plain 2 .drop] none⟩,
    ⟨#[], 0, .scope 0 .block (.func 0)
      [.plain 1 (.call ⟨0, 0, 0, 0, none⟩), .plain 2 (.const (.i32 2)),
        .plain 3 .drop] none⟩]

theorem decode_bytes : Module.decode 0 bytes.toArray = .ok module := by
  with_unfolding_all rfl

/-- Steps over whatever it is asked about. -/
def stepper : Controller Unit where
  command _ _ _ := (.stepOver, ())
  patience _ _ _ _ := 0
  patience_lt h := by cases h

def env : Env Unit (Debugger Unit) :=
  { module, hosts := #[], observer := Debugger.observer module stepper, maxDepth := 2 }

def world : World Unit (Debugger Unit) :=
  ⟨.ofModule module, (), Debugger.start module .plain ()⟩

def calls : List (Request Unit) :=
  [⟨.invoke 1 [], 20, ()⟩]

/-- The call, the two instructions of the function called, and the two behind the call.
-/
theorem session_eq : ∃ call const drop next last, session env 0 world calls =
      [call, const, drop, next, last] ∧ call.frames = [⟨0, .function 1⟩] ∧
      call.watch = world.watch ∧ const.frames = [⟨1, .function 0⟩, ⟨0, .function 1⟩] ∧
      drop.frames = [⟨1, .function 0⟩, ⟨0, .function 1⟩] ∧
      next.frames = [⟨0, .function 1⟩] ∧ next.view.node = .plain 2
        (.const (.i32 2)) := by
  have hpermissive : env.observer.Permissive :=
    Debugger.observer_permissive module nofun
  obtain ⟨v₁, v₂, v₃, v₄, v₅, hhooks, hnode⟩ : ∃ v₁ v₂ v₃ v₄ v₅,
      (Operation.invoke 1 []).hooks env.unwatched 20 world.unwatched =
        [.enter (.function 1), .step v₁, .enter (.function 0), .step v₂, .step v₃,
          .leave (.function 0), .step v₄, .step v₅, .leave (.function 1)] ∧
      v₄.node = .plain 2 (.const (.i32 2)) :=
    ⟨_, _, _, _, _, by with_unfolding_all rfl, by with_unfolding_all rfl⟩
  rw [Operation.hooks_unwatched hpermissive] at hhooks
  have hseen : session env 0 world calls = (⟨0, [], world.watch⟩ :
      Ledger _).sights env.observer ((Operation.invoke 1 []).hooks env 20 world) :=
        List.append_nil _
  rw [hseen, hhooks]
  exact ⟨_, _, _, _, _, rfl, rfl, rfl, rfl, rfl, rfl, hnode⟩

/-- At a pause it says to step over, and never flips a breakpoint. -/
theorem stepper_answers {x : Sight (Debugger Unit)} (h : x.Watched module stepper) :
    (x.pauses module stepper ≠ [] →
      Debugger.lastAnswer? (x.pauses module stepper) = some .stepOver) ∧
    ∀ pause ∈ x.pauses module stepper, ∀ line, pause.command ≠ .toggle line := by
  by_cases hasked : x.pauses module stepper = []
  · rw [hasked]
    exact ⟨fun h => absurd rfl h, fun _ => nofun⟩
  · obtain ⟨line, -, hdialog⟩ := h.dialog hasked
    generalize x.pauses module stepper = pauses,
      (x.watch.step module stepper x.view).1 = result,
      (x.watch.step module stepper x.view).2 = d at hdialog ⊢
    cases hdialog with
    | toggled hcommand | quit hcommand => cases hcommand
    | told hcommand =>
        cases hcommand
        exact ⟨fun _ => rfl, List.forall_mem_singleton.mpr nofun⟩

/-- After a step over at the call the next pause is behind the call, and not before. -/
theorem call_is_stepped_over : ∃ call const drop next last,
    session env 0 world calls = [call, const, drop, next, last] ∧
    call.pauses module stepper ≠ [] ∧ const.pauses module stepper = [] ∧
    drop.pauses module stepper = [] ∧ next.pauses module stepper ≠ [] ∧
    next.view.node = .plain 2 (.const (.i32 2)) := by
  obtain ⟨call, const, drop, next, last, hsession, hcall, hwatch, hconst, hdrop,
    hnext, hnode⟩ :=
    session_eq
  obtain ⟨hwatched, -, hfree⟩ :=
    @debugger_pauses_where_due _ _ env _ _ decode_bytes stepper rfl .plain
      world .start calls
  have hanswers := fun x hx => stepper_answers (hwatched x hx)
  have hcalled : call ∈ session env 0 world calls := by simp [hsession]
  have hasked : call.pauses module stepper ≠ [] := by
    refine (hwatched call hcalled).asked_iff.mpr (.inl ⟨⟨1, ?_⟩, ?_⟩)
    · have hrunning := (hwatched call hcalled).faithful.running
      rw [hcall] at hrunning
      exact (Option.some.inj hrunning).symm
    · rw [hwatch]
      trivial
  have hpauses : ∀ between y, Spans (session env 0 world calls) call between y →
      (∀ z ∈ between, ¬ call.Due z .stepOver) →
      (y.pauses module stepper ≠ [] ↔ call.Due y .stepOver) := fun between y hspans =>
    hfree (fun line => by simp [world, Debugger.start])
      (fun z hz => (hanswers z hz).2) call between y .stepOver hspans
      ((hanswers call hcalled).1 hasked) (by decide)
  have hinside : ∀ x : Sight (Debugger Unit),
      x.frames = [⟨1, .function 0⟩, ⟨0, .function 1⟩] → ¬ call.Due x .stepOver := by
    intro x hx
    simp [Sight.Due, Sight.Gone, hcall, hx]
  have hbehind : call.Due next .stepOver := .inl (by rw [hnext, hcall])
  refine ⟨call, const, drop, next, last, hsession, hasked, ?_, ?_, ?_, hnode⟩
  · refine Classical.not_not.mp fun h =>
      hinside const hconst ((hpauses [] const ?_ ?_).mp h)
    · exact ⟨[], _, hsession⟩
    · simp
  · refine Classical.not_not.mp fun h =>
      hinside drop hdrop ((hpauses [const] drop ?_ ?_).mp h)
    · exact ⟨[], _, hsession⟩
    · simpa using hinside const hconst
  · refine (hpauses [const, drop] next ?_ ?_).mpr hbehind
    · exact ⟨[], _, hsession⟩
    · simpa using ⟨hinside const hconst, hinside drop hdrop⟩

end SteppingWitness

end WasmVm
