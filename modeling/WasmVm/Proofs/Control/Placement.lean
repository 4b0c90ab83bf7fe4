/-
Where the frames of a run stand.  Each frame stands in the entries of its own body, and
as many scopes are open in it as the entry to be fetched says, one for each scope
around the entry.
-/
import WasmVm.Proofs.Machine.Fetches

namespace WasmVm

variable {ω σ : Type}

open FlatProgram

/-! ### Depths -/

/-- Whether an instruction marks a handler or ends a `try`. -/
def Item.isHandler : Item → Bool
  | catchTag _ | catchAll | delegate _ => true
  | _ => false

/-- How many scopes are open behind a line, given how many are open before it. -/
def levelBehind (level : Nat) (l : FlatLine) : Nat :=
  match l.mark, l.item with
  | .instruction, .openScope .. => level + 1
  | .instruction, .delegate _ => level - 1
  | .close, _ => level - 1
  | _, _ => level

/-- Lines behind `level` open scopes.  The depth of each instruction is the number of
scopes that are open there. -/
def Leveled (level : Nat) (ls : List FlatLine) : Prop :=
  ∀ front l back, ls = front ++ l :: back → l.mark = .instruction →
    l.item.isHandler = false → front.foldl levelBehind level = l.depth

namespace Leveled

variable {level : Nat} {l : FlatLine} {ls : List FlatLine}

theorem nil : Leveled level [] := by
  intro front l back h
  simp at h

theorem cons (hl : l.mark = .instruction → l.item.isHandler = false → l.depth = level)
    (h : Leveled (levelBehind level l) ls) : Leveled level (l :: ls) := by
  intro front l' back hparts hmark hitem
  cases front with
  | nil =>
      obtain ⟨rfl, -⟩ := List.cons.inj hparts
      exact (hl hmark hitem).symm
  | cons _ front =>
      obtain ⟨rfl, hrest⟩ := List.cons.inj hparts
      exact h front l' back hrest hmark hitem

end Leveled

theorem leveled_flatLines (id : Nat) (openers : List (Nat × Item)) (items : List Item) :
    Leveled openers.length (flatLines id openers items) := by
  fun_induction flatLines id openers items with
  | case1 | case10 => exact .nil
  | case2 _ _ _ ih => exact ih
  | case3 _ _ _ _ ih | case4 _ _ _ _ _ ih => exact .cons (fun _ _ => rfl) ih
  | case5 _ _ _ _ ih | case9 _ _ _ _ ih => exact .cons (fun hmark => by cases hmark) ih
  | case6 _ _ _ _ _ ih | case7 _ _ _ _ ih | case8 _ _ _ _ _ ih =>
      exact .cons (fun _ hitem => by cases hitem) ih

theorem length_openersBehind (position : Nat) (openers : List Opener) (e : FlatEntry) :
    (openersBehind position openers e).length = levelBehind openers.length
      e.flatLine := by
  obtain ⟨mark, node, depth⟩ := e
  cases mark with
  | otherwise => simp [levelBehind, FlatEntry.flatLine]
  | close =>
      simp [openersBehind, FlatEntry.opens, FlatEntry.closes, levelBehind,
        FlatEntry.flatLine]
  | instruction =>
      cases node with
      | scope => rfl
      | plain id instr =>
          cases instr with
          | delegate =>
              simp [openersBehind, FlatEntry.opens, FlatEntry.closes, levelBehind,
                FlatEntry.flatLine, Node.item]
          | catchTag | catchAll => cases openers <;> rfl
          | _ => rfl

theorem length_openersAfter (position : Nat) (openers : List Opener)
    (entries : List FlatEntry) :
    (openersAfter position openers entries).length =
      (entries.map FlatEntry.flatLine).foldl levelBehind openers.length := by
  induction entries generalizing position openers with
  | nil => rfl
  | cons e entries ih =>
      rw [openersAfter, ih, length_openersBehind, List.map_cons, List.foldl_cons]

/-- A node that is no mark stands for no handler. -/
theorem Node.isHandler_item {n : Node} (h : n.isMark = false) :
    n.item.isHandler = false := by
  cases n with
  | scope => rfl
  | plain id instr =>
      rw [Node.item_plain h]
      rfl

/-- The lines of a body that was read are those of its instructions. -/
theorem BodyEncodes.flatLines_eq {m : Module} {type : BlockType} {root : Node}
    {bytes : List UInt8} (h : BodyEncodes m type root bytes) :
    ∃ items, root.entries.map FlatEntry.flatLine = flatLines 1 [] items := by
  obtain ⟨items, nodes, hitems, -, rfl⟩ := h
  have hend : flatLines (1 + items.length) [] [.close] = [] := rfl
  have hall := hitems.lists [] [.close]
  rw [hend, List.append_nil] at hall
  exact ⟨_, hall.symm⟩

/-- An instruction of a body has the depth of the scopes around it, unless it marks a
handler or ends a `try`. -/
theorem BodyEncodes.depth_eq {m : Module} {type : BlockType} {root : Node}
    {bytes : List UInt8} (h : BodyEncodes m type root bytes) {pc : Nat} {e : FlatEntry}
    (he : root.entries[pc]? = some e) (hmark : e.mark = .instruction)
    (hnode : e.node.isMark = false) :
    e.depth = (FlatProgram.enclosing root.entries pc).length := by
  obtain ⟨items, hlines⟩ := h.flatLines_eq
  obtain ⟨hlt, rfl⟩ := List.getElem?_eq_some_iff.mp he
  have hsplit : root.entries.map FlatEntry.flatLine =
      (root.entries.take pc).map FlatEntry.flatLine ++
        root.entries[pc].flatLine :: (root.entries.drop (pc + 1)).map
          FlatEntry.flatLine := by
    rw [← List.map_cons, ← List.map_append, ← List.drop_eq_getElem_cons hlt,
      List.take_append_drop]
  rw [hlines] at hsplit
  rw [enclosing, length_openersAfter]
  exact (leveled_flatLines 1 [] items _ _ _ hsplit hmark
    (Node.isHandler_item hnode)).symm

/-! ### Scopes -/

/-- The scope was opened by the node, and has a part of it left to run. -/
inductive Scope.OpenedBy (scope : Scope) : Node → Prop
  | body {id kind type body alternative} (hrest : scope.rest <:+ body)
      (hbody : scope.body = body) (hloop : scope.isLoop = (kind == .loop)) :
      OpenedBy scope (.scope id kind type body alternative)
  /-- The other half of an `if`. -/
  | other {id type body other} (hrest : scope.rest <:+ other)
      (hloop : scope.isLoop = false) :
      OpenedBy scope (.scope id .ifThen type body (some other))

theorem FlatProgram.enclosing_of_split {p : FlatProgram} {before after : List FlatEntry}
    (h : before ++ after = p) : p.enclosing before.length =
      openersAfter 0 [] before := by
  rw [enclosing, ← h, List.take_left]

namespace Located

variable {p : FlatProgram} {scope : Scope} {scopes : List Scope} {openers : List Nat}
  {before after : List FlatEntry}

/-- Every scope but the outermost was opened by the node at its opener, and the scopes
around that node are those outside of it. -/
theorem openedBy (h : Located p scopes openers before after) {k q : Nat}
    (hk : openers[k]? = some q) :
    ∃ inner node depth, scopes[k]? = some inner ∧
      p[q]? = some ⟨.instruction, node, depth⟩ ∧ inner.OpenedBy node ∧
      node.isMark = false ∧ p.enclosing q = (openers.drop (k + 1)).map fun q =>
        ⟨q, false⟩ := by
  induction h generalizing k with
  | finished | root => simp at hk
  | @body scope next scopes openers before after depth id kind type body done
      rest alternative houter hscan hnode hparts hrest hbody hloop ih =>
      cases k with
      | zero =>
          cases hk
          have hopened : scope.OpenedBy (.scope id kind type body alternative) :=
            .body ⟨done, by rw [hrest, hparts]⟩ hbody hloop
          refine ⟨scope, _, depth, rfl, houter.opener_entry, hopened, rfl, ?_⟩
          have hp := houter.program
          rw [List.append_assoc] at hp
          rw [enclosing_of_split hp, hscan]
          rfl
      | succ k => exact ih hk
  | @other scope next scopes openers before after depth id type body other done rest
      houter hscan hnode hparts hrest hloop ih =>
      cases k with
      | zero =>
          cases hk
          have hopened : scope.OpenedBy (.scope id .ifThen type body (some other)) :=
            .other ⟨done, by rw [hrest, hparts]⟩ hloop
          refine ⟨scope, _, depth, rfl, houter.opener_entry, hopened, rfl, ?_⟩
          have hp := houter.program
          rw [List.append_assoc] at hp
          rw [enclosing_of_split hp, hscan]
          rfl
      | succ k => exact ih hk

end Located

/-! ### Frames -/

/-- The body that a frame runs. -/
def Owner.body? (m : Module) : Owner → Option Node
  | function index => (m.code? index).map (·.body)
  | global index => m.initializer? index
  | constant => none

/-- Scopes of a frame that stand in the entries of its body. -/
def InBody (m : Module) (owner : Owner) (scopes : List Scope) : Prop :=
  ∃ root openers before after, owner.body? m = some root ∧
    Located root.entries scopes openers before after

namespace InBody

variable {m : Module} {owner : Owner} {scope : Scope} {scopes : List Scope}

/-- A body that was read starts before its first entry. -/
theorem ofBody {root : Node} (hm : m.BodiesRead) (hroot : m.HasBody root)
    (howner : owner.body? m = some root) (locals : Array Value) (results : Option Nat) :
    InBody m owner (Frame.ofBody m owner root locals results).scopes := by
  obtain ⟨type, bytes, m₀, -, items, nodes, hitems, -, rfl⟩ := hm.read hroot
  have hnested : ∀ n ∈ nodes, n.Nested := by
    intro n hn
    exact hitems.nested n hn
      (Node.isCatch_eq_false (hitems.isMark_eq_false (by decide) n hn))
  exact ⟨_, [], flattenAll 0 [], flattenAll 0 nodes, howner,
    .root rfl hnested rfl rfl rfl⟩

theorem leave (h : InBody m owner (scope :: scopes)) (hrest : scope.rest = []) :
    InBody m owner scopes := by
  obtain ⟨root, openers, before, after, hroot, hlocated⟩ := h
  obtain ⟨openers', before', after', houter, -⟩ := hlocated.leave hrest
  exact ⟨root, openers', before', after', hroot, houter⟩

theorem moves {node : Node} {rest : List Node} {decision : Decision}
    {scopes' : List Scope}
    (h : InBody m owner (scope :: scopes)) (hrest : scope.rest = node :: rest)
    (hmoves : Moves node decision ({ scope with rest } :: scopes) scopes') :
    InBody m owner scopes' := by
  obtain ⟨root, openers, before, after, hroot, hlocated⟩ := h
  obtain ⟨openers', before', after', hlater, -⟩ := hlocated.moves hrest hmoves
  exact ⟨root, openers', before', after', hroot, hlater⟩

end InBody

theorem State.Provides.inBody {m : Module} (hm : m.BodiesRead) {action : Action}
    {callee : Frame}
    (h : Provides m action callee) : InBody m callee.owner callee.scopes := by
  cases h with
  | @function function _ _ hcallee =>
      unfold Frame.ofFunction at hcallee
      split at hcallee
      · cases hcallee
      · next code hcode =>
          cases hcallee
          refine InBody.ofBody hm (Module.hasBody_of_code? hcode) ?_ _ _
          simp [Frame.ofBody, Owner.body?, hcode]
  | @initializer index _ hcallee =>
      obtain ⟨body, hbody, rfl⟩ := Frame.ofGlobal_eq_ok hcallee
      have howner : (Owner.global index).body? m = some body := hbody
      exact InBody.ofBody hm (Module.hasBody_of_initializer? hbody) howner _ _

/-! ### Runs -/

namespace State

variable {env : Env ω σ} {s s' : State ω σ}

/-- Every frame stands in its body. -/
def AllInBody (env : Env ω σ) (s : State ω σ) : Prop :=
  ∀ f ∈ s.calls.frames, InBody env.module f.owner f.scopes

/-- A step moves the frame on top in its body, and may put one on top that starts. -/
theorem AllInBody.advance (hm : env.module.BodiesRead) (h : s.AllInBody env)
    (hadvance : s.advance env = .running s') : s'.AllInBody env := by
  obtain ⟨htop, hcallers⟩ := List.forall_mem_cons.mp h
  unfold AllInBody
  rcases s.calls.top.scopes_cases with hscopes | ⟨scope, outer, hscopes, hrest⟩ |
    ⟨node, f, hfetch⟩
  · rw [advance_of_finished hscopes] at hadvance
    obtain ⟨_, pushed, caller, callers, -, -, hframes, hframes'⟩ :=
      finish_frames hadvance
    rw [hframes] at hcallers
    rw [hframes']
    exact List.forall_mem_cons.mpr (List.forall_mem_cons.mp hcallers)
  · rw [advance_of_empty hscopes hrest] at hadvance
    cases hadvance
    rw [hscopes] at htop
    exact List.forall_mem_cons.mpr ⟨htop.leave hrest, hcallers⟩
  · rcases fetch_cases env hfetch with ⟨e, watch, -, hfails, -⟩ |
      ⟨watch, -, ⟨t, -, hfails, -⟩ | ⟨g, action, hexecute, hgoes, -⟩⟩
    · rw [hfails] at hadvance
      cases hadvance
    · rw [hfails] at hadvance
      cases hadvance
    · rw [hgoes] at hadvance
      have howner := (Frame.execute_fits hexecute).1.trans (Frame.fetch?_owner hfetch)
      have hg : InBody env.module g.owner g.scopes := by
        obtain ⟨scope, outer, rest, hscopes, hrest, rfl⟩ := Frame.fetch?_eq_some hfetch
        rw [hscopes] at htop
        rw [howner]
        exact htop.moves hrest (Frame.execute_moves hexecute)
      rcases perform_frames hadvance with ⟨stack, hframes⟩ |
        ⟨callee, hcallee, -, hframes⟩
      · rw [hframes]
        exact List.forall_mem_cons.mpr ⟨hg, hcallers⟩
      · rw [hframes]
        exact List.forall_mem_cons.mpr ⟨hcallee.inBody hm,
          List.forall_mem_cons.mpr ⟨hg, hcallers⟩⟩

theorem Runs.allInBody (hm : env.module.BodiesRead) {log : List Event}
    (h : Runs env s log s') (hs : s.AllInBody env) : s'.AllInBody env := by
  induction h with
  | start => exact hs
  | step _ hadvance ih => exact ih.advance hm hadvance

end State

/-- All frames of a run stand in their bodies. -/
theorem Operation.runs_allInBody {env : Env ω σ} (hm : env.module.BodiesRead)
    (hrange : env.module.InRange)
    (hsize : env.module.codes.size = env.module.functions.size)
    {w : World ω σ} {op : Operation} {s t : State ω σ} {log : List Event}
    (hstart : op.start env w = .running s) (hruns : State.Runs env s log t) :
    t.AllInBody env := by
  obtain ⟨henters, hcallers⟩ := Operation.start_enters hrange hsize hstart
  refine hruns.allInBody hm ?_
  rw [State.AllInBody, CallStack.frames, hcallers]
  refine List.forall_mem_cons.mpr ⟨?_, fun _ hf => absurd hf List.not_mem_nil⟩
  cases op with
  | invoke function args =>
      obtain ⟨code, type, hbegins⟩ := henters
      rw [hbegins.scopes, hbegins.owner]
      refine InBody.ofBody hm (Module.hasBody_of_code? hbegins.code_eq) ?_
        s.calls.top.locals s.calls.top.results
      simp [Owner.body?, hbegins.code_eq]
  | readGlobal index =>
      obtain ⟨body, hbody, htop⟩ := henters
      have howner : (Owner.global index).body? env.module = some body := hbody
      rw [htop]
      exact InBody.ofBody hm (Module.hasBody_of_initializer? hbody) howner _ _

end WasmVm
