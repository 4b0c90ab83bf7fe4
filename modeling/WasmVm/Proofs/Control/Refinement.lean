/-
Runs of a frame.  While a frame is on the call stack, the nodes it fetches are
those of the machine over the entries of its body; steps of the frames above it
do not move it.
-/
import WasmVm.Proofs.Control.Simulation
import WasmVm.Proofs.Machine.Step

namespace WasmVm

variable {ω σ : Type}

open FlatProgram

/-- What the frame above `level` callers fetches in the next step, and what the node
decides. -/
def State.fetches (level : Nat) (s : State ω σ) : List (Node × Decision) :=
  if s.calls.callers.length = level then
    match s.calls.top.fetch? with
    | some (node, f) => [(node, node.decision f.stack)]
    | none => []
  else []

/-- Runs of the frame that is on top of `s` and has `level` callers, with all that it
has fetched.  They last as long as the frame is on the call stack. -/
inductive FrameRun (env : Env ω σ) (level : Nat) (s : State ω σ) :
    List (Node × Decision) → State ω σ → Prop
  | start (hlevel : s.calls.callers.length = level) : FrameRun env level s [] s
  | step {log s' s''} (hrun : FrameRun env level s log s')
      (hlevel : level ≤ s'.calls.callers.length)
      (hadvance : s'.advance env = .running s'') :
      FrameRun env level s (log ++ s'.fetches level) s''

/-- The scopes stand where the machine over the entries stands, up to steps over
which it settles. -/
def Stands (p : FlatProgram) (pc : Nat) (scopes : List Scope) : Prop :=
  ∃ openers before after, Located p scopes openers before after ∧
    p.settle before.length = p.settle pc

namespace Stands

variable {p : FlatProgram} {pc : Nat} {scope : Scope} {scopes : List Scope}

theorem fetch_eq (h : Stands p pc scopes) : upcoming? scopes = p.fetch pc := by
  obtain ⟨openers, before, after, hlocated, hsettle⟩ := h
  rw [← hlocated.fetch_eq, fetch, hsettle, ← fetch]

theorem leave (h : Stands p pc (scope :: scopes)) (hrest : scope.rest = []) :
    Stands p pc scopes := by
  obtain ⟨openers, before, after, hlocated, hsettle⟩ := h
  obtain ⟨openers', before', after', houter, hleave⟩ := hlocated.leave hrest
  exact ⟨openers', before', after', houter, hleave.symm.trans hsettle⟩

theorem moves {node : Node} {rest : List Node} {decision : Decision}
    {scopes' : List Scope}
    (h : Stands p pc (scope :: scopes)) (hrest : scope.rest = node :: rest)
    (hmoves : Moves node decision ({ scope with rest } :: scopes) scopes') :
    ∃ pc', p.next (p.settle pc) decision = some pc' ∧ Stands p pc' scopes' := by
  obtain ⟨openers, before, after, hlocated, hsettle⟩ := h
  obtain ⟨openers', before', after', hlocated', hnext⟩ := hlocated.moves hrest hmoves
  rw [← hsettle, hlocated.settle_eq hrest]
  exact ⟨before'.length, hnext, openers', before', after', hlocated', rfl⟩

end Stands

/-- Whether a position lies in a handler, or marks one. -/
def FlatProgram.inHandler (p : FlatProgram) (pc : Nat) : Bool :=
  (p.enclosing pc).any (·.inHandler) || (p[pc]?).any FlatEntry.isCatch

/-- What the machine over the entries foretells of a frame: the node that it fetches
next, never one of a handler, and whether a branch it takes is invalid. -/
structure Foretells (m : Module) (p : FlatProgram) (pc : Nat) (f : Frame) : Prop where
  upcoming : upcoming? f.scopes = p.fetch pc
  handlers : ∀ node g, f.fetch? = some (node, g) → p.inHandler (p.settle pc) = false
  branches : ∀ node g store depth, f.fetch? = some (node, g) →
    node.decision g.stack = .branch depth →
      ((∃ count, g.execute m store node = .error (.invalidBranch depth count)) ↔
        p.next (p.settle pc) (.branch depth) = none)

theorem Stands.foretells {p : FlatProgram} {pc : Nat} {f : Frame}
    (h : Stands p pc f.scopes) (m : Module) : Foretells m p pc f where
  upcoming := h.fetch_eq
  handlers node g hfetch := by
    obtain ⟨scope, outer, rest, hscopes, hrest, rfl⟩ := Frame.fetch?_eq_some hfetch
    rw [hscopes] at h
    obtain ⟨openers, before, after, hlocated, hsettle⟩ := h
    obtain ⟨level, hentry⟩ := hlocated.entry hrest
    obtain ⟨-, hcatch⟩ :=
      Bool.or_eq_false_iff.mp (hlocated.divides_eq_false hrest level)
    rw [← hsettle, hlocated.settle_eq hrest, inHandler,
      hlocated.enclosing_eq hrest, hentry]
    simp [hcatch]
  branches node g store depth hfetch hdecision := by
    obtain ⟨scope, outer, rest, hscopes, hrest, rfl⟩ := Frame.fetch?_eq_some hfetch
    rw [hscopes] at h
    obtain ⟨openers, before, after, hlocated, hsettle⟩ := h
    rw [Frame.execute_eq_invalid hdecision, ← hsettle, hlocated.settle_eq hrest,
      hlocated.next_branch_eq_none hrest]
    rfl

namespace FrameRun

variable {env : Env ω σ} {level : Nat} {s s' : State ω σ} {log : List (Node × Decision)}
  {p : FlatProgram}

/-- The frame on top is the one that is followed. -/
theorem step_top {s'' : State ω σ} {pc : Nat} {scopes : List Scope}
    {below : List (List Scope)} (hruns : p.Runs log pc)
    (hcontrol : s'.control = scopes :: below) (hbelow : below.length = level)
    (hstands : Stands p pc scopes) (hadvance : s'.advance env = .running s'') :
    ∃ pc', p.Runs (log ++ s'.fetches level) pc' ∧
      (level ≤ s''.calls.callers.length → ∃ above scopes' below', s''.control =
        above ++ scopes' :: below' ∧ below'.length = level ∧ Stands p pc' scopes') := by
  obtain ⟨htop, hcallers⟩ : s'.calls.top.scopes = scopes ∧
      s'.calls.callers.map (·.scopes) = below := List.cons.inj hcontrol
  have hlevel : s'.calls.callers.length = level := by
    rw [← hbelow, ← hcallers, List.length_map]
  rcases State.advance_control hadvance with ⟨hfinished, hnext⟩ |
    ⟨scope, outer, hscopes, hrest, hnext⟩ |
      ⟨node, f, g, action, hfetch, hexecute, hnext⟩
  · have hfetches : s'.fetches level = [] := by
      rw [State.fetches, if_pos hlevel, Frame.fetch?_of_finished hfinished]
    refine ⟨pc, by rwa [hfetches, List.append_nil], fun hon => ?_⟩
    have hlength := s''.length_control
    rw [hnext, hcontrol, List.tail_cons, hbelow] at hlength
    omega
  · have hfetches : s'.fetches level = [] := by
      rw [State.fetches, if_pos hlevel, Frame.fetch?_of_empty hscopes hrest]
    refine ⟨pc, by rwa [hfetches, List.append_nil],
      fun _ => ⟨[], outer, below, ?_, hbelow, ?_⟩⟩
    · rw [hnext, hcontrol]
      rfl
    · rw [← htop, hscopes] at hstands
      exact hstands.leave hrest
  · have hfetches : s'.fetches level = [(node, node.decision f.stack)] := by
      rw [State.fetches, if_pos hlevel, hfetch]
    obtain ⟨scope, outer, rest, hscopes, hrest, rfl⟩ := Frame.fetch?_eq_some hfetch
    rw [← htop, hscopes] at hstands
    obtain ⟨pc', hpc, hstands'⟩ := hstands.moves hrest (Frame.execute_moves hexecute)
    have hupcoming : p.fetch pc = some node := by
      rw [← hstands.fetch_eq]
      simp [upcoming?, hrest]
    refine ⟨pc', by rw [hfetches]; exact .step hruns hupcoming hpc, fun _ => ?_⟩
    rw [hcontrol, List.tail_cons] at hnext
    rcases hnext with hnext | ⟨callee, -, -, hnext⟩
    · exact ⟨[], g.scopes, below, hnext, hbelow, hstands'⟩
    · exact ⟨[callee.scopes], g.scopes, below, hnext, hbelow, hstands'⟩

/-- A frame above it runs. -/
theorem step_above {s'' : State ω σ} {scopes top : List Scope}
    {above below : List (List Scope)}
    (hcontrol : s'.control = top :: above ++ scopes :: below)
    (hbelow : below.length = level) (hadvance : s'.advance env = .running s'') :
    s'.fetches level = [] ∧ ∃ above', s''.control = above' ++ scopes :: below := by
  have hlength := s'.length_control
  rw [hcontrol] at hlength
  simp only [List.length_append, List.length_cons] at hlength
  refine ⟨by rw [State.fetches, if_neg (by omega)], ?_⟩
  rcases State.advance_control hadvance with ⟨-, hnext⟩ | ⟨-, outer, -, -, hnext⟩ |
    ⟨-, -, g, -, -, -, hnext | ⟨callee, -, -, hnext⟩⟩
  · exact ⟨above, by rw [hnext, hcontrol]; rfl⟩
  · exact ⟨outer :: above, by rw [hnext, hcontrol]; rfl⟩
  · exact ⟨g.scopes :: above, by rw [hnext, hcontrol]; rfl⟩
  · exact ⟨callee.scopes :: g.scopes :: above, by rw [hnext, hcontrol]; rfl⟩

/-- The frame and the machine over the entries go together. -/
theorem stands (hrun : FrameRun env level s log s')
    (hstart : Stands p 0 s.calls.top.scopes) :
    ∃ pc, p.Runs log pc ∧
      (level ≤ s'.calls.callers.length → ∃ above scopes below, s'.control =
        above ++ scopes :: below ∧ below.length = level ∧ Stands p pc scopes) := by
  induction hrun with
  | start hlevel =>
      refine ⟨0, .start, fun _ => ⟨[], s.calls.top.scopes, _, s.control_eq, ?_, hstart⟩⟩
      rw [List.length_map, hlevel]
  | step hrun hlevel hadvance ih =>
      obtain ⟨pc, hruns, hstands⟩ := ih
      obtain ⟨above, scopes, below, hcontrol, hbelow, hstands⟩ := hstands hlevel
      cases above with
      | nil => exact step_top hruns hcontrol hbelow hstands hadvance
      | cons top above =>
          obtain ⟨hfetches, above', hcontrol'⟩ := step_above hcontrol hbelow hadvance
          refine ⟨pc, by rwa [hfetches, List.append_nil], fun _ => ?_⟩
          exact ⟨above', scopes, below, hcontrol', hbelow, hstands⟩

end FrameRun

/-- A body that was read starts where the machine over its entries starts. -/
theorem Stands.start {m : Module} {owner : String} {type : BlockType} {c c' : Cursor}
    {root : Node} (h : Reading.body m owner type c = .ok root c')
    {m' : Module} {o : Owner} {locals : Array Value} {results : Option Nat} :
    Stands root.entries 0 (Frame.ofBody m' o root locals results).scopes := by
  obtain ⟨bytes, ⟨items, nodes, hitems, -, rfl⟩, -⟩ :=
    (Reading.body_reads m owner type c root c').mp h
  have hnested : ∀ n ∈ nodes, n.Nested := by
    intro n hn
    exact hitems.nested n hn
      (Node.isCatch_eq_false (hitems.isMark_eq_false (by decide) n hn))
  have hlocated : Located (flattenAll 0 nodes)
      (Frame.ofBody m' o (.scope 0 .block type nodes none) locals results).scopes []
      (flattenAll 0 []) (flattenAll 0 nodes) := .root rfl hnested rfl rfl rfl
  exact ⟨[], [], _, hlocated, rfl⟩

/-- Every run of a frame over a body that was read follows the machine over the
body's entries: the nodes fetched, with what they decide, are a run of that machine,
and the machine foretells what the frame does next. -/
theorem frame_follows_flat_machine {m : Module} {owner : String} {type : BlockType}
    {c c' : Cursor} {root : Node} (hroot : Reading.body m owner type c = .ok root c')
    {env : Env ω σ} {s s' : State ω σ} {o : Owner} {locals : Array Value}
    {results : Option Nat}
    (hstart : s.calls.top = .ofBody env.module o root locals results) {level : Nat}
    {log : List (Node × Decision)} (hrun : FrameRun env level s log s') :
    ∃ pc, FlatProgram.Runs root.entries log pc ∧
      ∀ f, s'.calls.frames.reverse[level]? = some f →
        Foretells env.module root.entries pc f := by
  have hzero : Stands root.entries 0 s.calls.top.scopes := by
    rw [hstart]
    exact .start hroot
  obtain ⟨pc, hruns, hstands⟩ := hrun.stands hzero
  refine ⟨pc, hruns, fun f hf => ?_⟩
  have hlevel : level ≤ s'.calls.callers.length := by
    obtain ⟨hlt, -⟩ := List.getElem?_eq_some_iff.mp hf
    rw [List.length_reverse, CallStack.frames, List.length_cons] at hlt
    omega
  obtain ⟨above, scopes, below, hcontrol, hbelow, hstands⟩ := hstands hlevel
  have hscopes : s'.control.reverse[level]? = some f.scopes := by
    rw [State.control, ← List.map_reverse, List.getElem?_map, hf]
    rfl
  have hfound : s'.control.reverse[level]? = some scopes := by
    rw [hcontrol, ← hbelow]
    simp
  have heq : f.scopes = scopes := Option.some.inj (hscopes.symm.trans hfound)
  rw [← heq] at hstands
  exact hstands.foretells env.module

namespace RefinementWitness

/-- An `if` that is false and whose other half branches out of it. -/
def sample : Array UInt8 :=
  #[0x41, 0x00, 0x04, 0x40, 0x01, 0x05, 0x0c, 0x00, 0x0b, 0x0b]

def choice : Node :=
  .scope 2 .ifThen .empty [] (some [.plain 5 (.br 0)])

def root : Node :=
  .scope 0 .block .empty [.plain 1 (.const (.i32 0)), choice] none

theorem body_choice :
    Reading.body {} "f" .empty (.ofBytes sample) = .ok root ⟨sample, 10, 0⟩ := by
  with_unfolding_all rfl

def env : Env Unit Unit :=
  { module := {}, hosts := #[], observer := .silent, maxDepth := 1 }

def frame : Frame :=
  .ofBody {} (.function 0) root #[] (some 0)

/-- The frame with other scopes and values. -/
def state (stack : Stack) (scopes : List Scope) : State Unit Unit :=
  ⟨.ofFrame { frame with stack, scopes }, ⟨.ofModule {}, (), ()⟩⟩

/-- What the frame fetches: the constant, the `if`, and the branch in its other half. -/
def log : List (Node × Decision) :=
  [(.plain 1 (.const (.i32 0)), .onward), (choice, .skip),
    (.plain 5 (.br 0), .branch 0)]

theorem run_choice :
    FrameRun env 0 (state [] frame.scopes) log
      (state [] [⟨[], root.body, 0, 0, false⟩]) := by
  have hstart : FrameRun env 0 (state [] frame.scopes) [] _ := .start rfl
  have hconst := hstart.step (Nat.zero_le _)
    (show (state [] frame.scopes).advance env =
      .running (state [.i32 0] [⟨[choice], root.body, 0, 0, false⟩]) from rfl)
  have hchoice := hconst.step (Nat.zero_le _)
    (show (state [.i32 0] [⟨[choice], root.body, 0, 0, false⟩]).advance env =
      .running (state [] [⟨[.plain 5 (.br 0)], [.plain 5 (.br 0)], 0, 0, false⟩,
        ⟨[], root.body, 0, 0, false⟩]) from rfl)
  exact hchoice.step (Nat.zero_le _) rfl

theorem choice_follows_entries :
    Reading.body {} "f" .empty (.ofBytes sample) = .ok root ⟨sample, 10, 0⟩ ∧
    FrameRun env 0 (state [] frame.scopes) log
      (state [] [⟨[], root.body, 0, 0, false⟩]) ∧
    ∃ pc, FlatProgram.Runs root.entries log pc ∧
      ∀ f, (state [] [⟨[], root.body, 0, 0, false⟩]).calls.frames.reverse[0]? = some f →
        Foretells env.module root.entries pc f := by
  have htop : (state [] frame.scopes).calls.top =
      .ofBody env.module (.function 0) root #[] (some 0) := rfl
  exact ⟨body_choice, run_choice, frame_follows_flat_machine body_choice
    htop run_choice⟩

end RefinementWitness

end WasmVm
