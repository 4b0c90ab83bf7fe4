/-
What a controller is asked at one instruction.  The questions can be written down as
they are put, which changes nothing else; from one to the next only a breakpoint is
flipped. -/
import WasmVm.Debugger.Script

namespace WasmVm

variable {κ : Type}

/-- When to pause next, after a command given with so many frames on the call stack.
Flipping a breakpoint and quitting leave that as it is. -/
def Command.mode? (depth : Nat) : Command → Option PauseMode
  | resume => some .never
  | stepOver => some (.over depth)
  | stepIn => some .always
  | stepOut => some (.out depth)
  | toggle _ | quit => none

/-- Breakpoints apart, the next pause may be at a call stack of so many frames. -/
def PauseMode.Wants (depth : Nat) : PauseMode → Prop
  | .never => False
  | .always => True
  | .over paused => depth ≤ paused
  | .out paused => depth < paused

/-! ### Writing down what is asked -/

namespace Debugger

/-- The debugger with what its controller has been asked so far. -/
def recording (d : Debugger κ) (log : List Pause) : Debugger (κ × List Pause) :=
  { listing := d.listing, breakpoints := d.breakpoints, mode := d.mode,
    controller := (d.controller, log) }

/-- The debugger without the record. -/
def unrecorded (d : Debugger (κ × List Pause)) : Debugger κ :=
  { listing := d.listing, breakpoints := d.breakpoints, mode := d.mode,
    controller := d.controller.1 }

theorem toggle_recording (d : Debugger κ) (target : Nat) (log : List Pause) :
    (d.recording log).toggle target =
      ((d.toggle target).1, (d.toggle target).2.recording log) := by
  unfold toggle
  by_cases hpoint : (d.listing.point? target).isNone
  · have hpoint' : ((d.recording log).listing.point? target).isNone := hpoint
    rw [if_pos hpoint, if_pos hpoint']
  · have hpoint' : ¬ ((d.recording log).listing.point? target).isNone := hpoint
    rw [if_neg hpoint, if_neg hpoint']
    by_cases hheld : d.breakpoints.contains target
    · have hheld' : (d.recording log).breakpoints.contains target := hheld
      rw [if_pos hheld, if_pos hheld']
      rfl
    · have hheld' : ¬ (d.recording log).breakpoints.contains target := hheld
      rw [if_neg hheld, if_neg hheld']
      rfl

end Debugger

/-- Answers as another controller does, and writes down what it is asked. -/
def Controller.recording (c : Controller κ) : Controller (κ × List Pause) where
  command line screen s :=
    ((c.command line screen s.1).1, (c.command line screen s.1).2,
      s.2 ++ [⟨line, screen, (c.command line screen s.1).1⟩])
  patience m line v d := c.patience m line v d.unrecorded
  patience_lt := by
    rintro m line v d target ⟨k, log⟩ h
    obtain ⟨hcommand, hstate⟩ := Prod.mk.inj h
    have hless := c.patience_lt (d := d.unrecorded)
      (Prod.ext hcommand (Prod.mk.inj hstate).1)
    have htoggle := d.unrecorded.toggle_recording target d.controller.2
    change d.toggle target = _ at htoggle
    rw [htoggle]
    exact hless

theorem Controller.recording_command {c : Controller κ} {line : Nat}
    {screen : String} {k k' : κ} {command : Command}
    (h : c.command line screen k = (command, k')) (log : List Pause) :
    c.recording.command line screen (k, log) =
      (command, k', log ++ [⟨line, screen, command⟩]) := by
  dsimp only [recording]
  rw [h]

namespace Debugger

variable {m : Module} {c : Controller κ} {line : Nat} {v : View} {d : Debugger κ}

/-- What the controller is asked when an instruction is about to run, and its answers.
-/
def pausesAt (m : Module) (c : Controller κ) (v : View) (d : Debugger κ) : List Pause :=
  ((d.recording []).step m c.recording v).2.controller.2

/-! ### One instruction -/

theorem ask_of_toggle {target : Nat} {k : κ}
    (h : c.command line (d.screen m line v) d.controller = (.toggle target, k)) :
    d.ask m c line v = ask m c line v { (d.toggle target).2 with controller := k } := by
  rw [ask]
  split
  all_goals
    next hcommand =>
      cases h.symm.trans hcommand
      try rfl

theorem ask_of_mode {command : Command} {k : κ} {mode : PauseMode}
    (h : c.command line (d.screen m line v) d.controller = (command, k))
    (hmode : command.mode? v.callDepth = some mode) :
    d.ask m c line v = (.ok (), { d with mode, controller := k }) := by
  rw [ask]
  split
  all_goals
    next hcommand =>
      cases h.symm.trans hcommand
      cases hmode
      try rfl

theorem ask_of_quit {k : κ}
    (h : c.command line (d.screen m line v) d.controller = (.quit, k)) :
    d.ask m c line v = (.error (.trap (.interrupted "stopped by the debugger") none),
      { d with controller := k }) := by
  rw [ask]
  split
  all_goals
    next hcommand =>
      cases h.symm.trans hcommand
      try rfl

/-- A pause: what the controller is asked, how the instruction is answered, and the
debugger afterwards.  Each flip of a breakpoint leads to another question about the
same instruction. -/
inductive Dialog (m : Module) (c : Controller κ) (line : Nat) (v : View) :
    Debugger κ → List Pause → Except Error Unit → Debugger κ → Prop
  | toggled {d target k asked result d'}
      (hcommand : c.command line (d.screen m line v) d.controller = (.toggle target, k))
      (hrest : Dialog m c line v { (d.toggle target).2 with controller := k }
        asked result d') :
      Dialog m c line v d (⟨line, d.screen m line v, .toggle target⟩ :: asked) result d'
  | told {d command k mode}
      (hcommand : c.command line (d.screen m line v) d.controller = (command, k))
      (hmode : command.mode? v.callDepth = some mode) :
      Dialog m c line v d [⟨line, d.screen m line v, command⟩] (.ok ())
        { d with mode, controller := k }
  | quit {d k}
      (hcommand : c.command line (d.screen m line v) d.controller = (.quit, k)) :
      Dialog m c line v d [⟨line, d.screen m line v, .quit⟩]
        (.error (.trap (.interrupted "stopped by the debugger") none))
        { d with controller := k }

/-- A recording controller writes down the dialog. -/
theorem ask_dialog (m : Module) (c : Controller κ) (line : Nat) (v : View)
    (d : Debugger κ) :
    ∃ asked, d.Dialog m c line v asked (d.ask m c line v).1 (d.ask m c line v).2 ∧
      ∀ log, (d.recording log).ask m c.recording line v =
        ((d.ask m c line v).1, (d.ask m c line v).2.recording (log ++ asked)) := by
  have hsaid : ∀ {d : Debugger κ} {command : Command} {k : κ},
      c.command line (d.screen m line v) d.controller = (command, k) → ∀ log,
        c.recording.command line ((d.recording log).screen m line v)
            (d.recording log).controller =
          (command, k, log ++ [⟨line, d.screen m line v, command⟩]) :=
    fun hcommand log => Controller.recording_command hcommand log
  have hmoded : ∀ {d : Debugger κ} {command : Command} {k : κ} {mode : PauseMode},
      c.command line (d.screen m line v) d.controller = (command, k) →
      command.mode? v.callDepth = some mode → ∃ asked,
        d.Dialog m c line v asked (.ok ()) { d with mode, controller := k } ∧
        ∀ log, (d.recording log).ask m c.recording line v =
          (.ok (), { d with mode, controller := k }.recording (log ++ asked)) :=
    fun hcommand hmode => ⟨_, .told hcommand hmode, fun log =>
      ask_of_mode (hsaid hcommand log) hmode⟩
  fun_induction Debugger.ask m c line v d with
  | case1 d target k hcommand ih =>
      obtain ⟨asked, hdialog, hrecorded⟩ := ih
      refine ⟨_, .toggled hcommand hdialog, fun log => ?_⟩
      rw [ask_of_toggle (hsaid hcommand log), toggle_recording]
      refine (hrecorded (log ++ [⟨line, d.screen m line v, .toggle target⟩])).trans ?_
      rw [List.append_assoc]
      rfl
  | case2 d k hcommand => exact hmoded hcommand rfl
  | case3 d k hcommand => exact hmoded hcommand rfl
  | case4 d k hcommand => exact hmoded hcommand rfl
  | case5 d k hcommand => exact hmoded hcommand rfl
  | case6 d k hcommand =>
      exact ⟨_, .quit hcommand, fun log => ask_of_quit (hsaid hcommand log)⟩

/-- The line of the instruction that is shown, if it is one of a function. -/
def lineOf? (d : Debugger κ) (v : View) : Option Nat :=
  match v.owner with
  | .function function => d.listing.lineOf? ⟨function, v.node.id⟩
  | _ => none

theorem step_eq (m : Module) (c : Controller κ) (v : View) (d : Debugger κ) :
    d.step m c v =
      match d.lineOf? v with
      | none => (.ok (), d)
      | some line => if d.pauses line v.callDepth then d.ask m c line v
          else (.ok (), d) := by
  unfold step lineOf?
  cases v.owner <;> rfl

/-- There is a pause at a line with so many frames on the call stack. -/
def StopsAt (d : Debugger κ) (line depth : Nat) : Prop :=
  line ∈ d.breakpoints ∨ d.mode.Wants depth

theorem pauses_iff (d : Debugger κ) (line depth : Nat) :
    d.pauses line depth = true ↔ d.StopsAt line depth := by
  rw [pauses, Bool.or_eq_true, Std.TreeSet.contains_iff_mem, StopsAt]
  refine or_congr_right ?_
  cases d.mode <;> simp [PauseMode.Wants]

/-- An instruction goes unnoticed, or there is a pause at its line; a recording
controller writes down what it is asked. -/
theorem step_asked (m : Module) (c : Controller κ) (v : View) (d : Debugger κ) :
    ∃ asked, (∀ log, (d.recording log).step m c.recording v =
        ((d.step m c v).1, (d.step m c v).2.recording (log ++ asked))) ∧
      ((asked = [] ∧ d.step m c v = (.ok (), d) ∧
        ∀ line, d.lineOf? v = some line → ¬ d.StopsAt line v.callDepth) ∨
      ∃ line, d.lineOf? v = some line ∧ d.StopsAt line v.callDepth ∧
        d.Dialog m c line v asked (d.step m c v).1 (d.step m c v).2) := by
  have hline : ∀ log, (d.recording log).lineOf? v = d.lineOf? v := fun _ => rfl
  have hpauses : ∀ log line depth, (d.recording log).pauses line depth =
      d.pauses line depth :=
    fun _ _ _ => rfl
  simp only [step_eq, hline, hpauses]
  cases hat : d.lineOf? v with
  | none => exact ⟨[], fun log => by rw [List.append_nil], .inl ⟨rfl, rfl, nofun⟩⟩
  | some line =>
      dsimp only
      by_cases hstops : d.pauses line v.callDepth = true
      · obtain ⟨asked, hdialog, hrecorded⟩ := ask_dialog m c line v d
        simp only [if_pos hstops]
        exact ⟨asked, hrecorded, .inr ⟨line, rfl, (d.pauses_iff ..).mp hstops, hdialog⟩⟩
      · simp only [if_neg hstops]
        refine ⟨[], fun log => by rw [List.append_nil], .inl ⟨rfl, trivial, ?_⟩⟩
        rintro _ ⟨⟩ hstops'
        exact hstops ((d.pauses_iff ..).mpr hstops')

/-- Writing down what is asked does not change what a debugger does. -/
theorem step_recording (m : Module) (c : Controller κ) (v : View) (d : Debugger κ)
    (log : List Pause) :
    (d.recording log).step m c.recording v =
      ((d.step m c v).1, (d.step m c v).2.recording (log ++ d.pausesAt m c v)) := by
  obtain ⟨asked, hrecorded, -⟩ := d.step_asked m c v
  rw [pausesAt, hrecorded, hrecorded]
  rfl

/-- An instruction goes unnoticed, or there is a pause at its line. -/
theorem step_cases (m : Module) (c : Controller κ) (v : View) (d : Debugger κ) :
    (d.pausesAt m c v = [] ∧ d.step m c v = (.ok (), d) ∧
      ∀ line, d.lineOf? v = some line → ¬ d.StopsAt line v.callDepth) ∨
    ∃ line, d.lineOf? v = some line ∧ d.StopsAt line v.callDepth ∧
      d.Dialog m c line v (d.pausesAt m c v) (d.step m c v).1 (d.step m c v).2 := by
  obtain ⟨asked, hrecorded, hcases⟩ := d.step_asked m c v
  have hasked : d.pausesAt m c v = asked := by
    rw [pausesAt, hrecorded]
    rfl
  rw [hasked]
  exact hcases

/-! ### What a pause leaves behind -/

/-- The last answer. -/
def lastAnswer? (pauses : List Pause) : Option Command :=
  pauses.getLast?.map Pause.command

namespace Dialog

variable {asked : List Pause} {result : Except Error Unit} {d' : Debugger κ}

theorem ne_nil (h : d.Dialog m c line v asked result d') : asked ≠ [] := by
  cases h <;> exact nofun

theorem lastAnswer?_cons {pause : Pause} (h : d.Dialog m c line v asked result d') :
    lastAnswer? (pause :: asked) = lastAnswer? asked := by
  obtain ⟨next, rest, rfl⟩ := List.exists_cons_of_ne_nil h.ne_nil
  rw [lastAnswer?, lastAnswer?, List.getLast?_cons_cons]

/-- The last answer decides when to pause next. -/
theorem mode_eq (h : d.Dialog m c line v asked result d') {command : Command}
    (hlast : lastAnswer? asked = some command) (hquit : command ≠ .quit) :
    command.mode? v.callDepth = some d'.mode := by
  induction h with
  | toggled _ hrest ih => exact ih (hrest.lastAnswer?_cons.symm.trans hlast)
  | told _ hmode =>
      cases hlast
      exact hmode
  | quit =>
      cases hlast
      exact absurd rfl hquit

/-- Breakpoints stay unless one is flipped. -/
theorem breakpoints_eq (h : d.Dialog m c line v asked result d')
    (hnone : ∀ pause ∈ asked, ∀ target, pause.command ≠ .toggle target) :
    d'.breakpoints = d.breakpoints := by
  cases h with
  | toggled => exact absurd rfl (hnone _ List.mem_cons_self _)
  | told | quit => rfl

end Dialog

theorem step_of_quiet (h : d.pausesAt m c v = []) : d.step m c v = (.ok (), d) := by
  rcases d.step_cases m c v with ⟨-, hstep, -⟩ | ⟨line, -, -, hdialog⟩
  · exact hstep
  · exact absurd h hdialog.ne_nil

theorem dialog_of_asked (h : d.pausesAt m c v ≠ []) : ∃ line, d.lineOf? v = some line ∧
    d.Dialog m c line v (d.pausesAt m c v) (d.step m c v).1 (d.step m c v).2 := by
  rcases d.step_cases m c v with ⟨hquiet, -⟩ | ⟨line, hline, -, hdialog⟩
  · exact absurd hquiet h
  · exact ⟨line, hline, hdialog⟩

theorem asked_iff : d.pausesAt m c v ≠ [] ↔
    ∃ line, d.lineOf? v = some line ∧ d.StopsAt line v.callDepth := by
  rcases d.step_cases m c v with ⟨hquiet, -, hnone⟩ | ⟨line, hline, hstops, hdialog⟩
  · refine iff_of_false (not_not_intro hquiet) ?_
    rintro ⟨line, hline, hstops⟩
    exact hnone line hline hstops
  · exact iff_of_true hdialog.ne_nil ⟨line, hline, hstops⟩

end Debugger

end WasmVm
