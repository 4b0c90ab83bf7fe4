/-
What a listing says of scopes and branches.  Every line is indented as deep as scopes
are open when its instruction runs, every opener names its scope by that depth, and a
branch is listed with the name of the scope it leads out of, or as going too far.
-/
import WasmVm.Proofs.Listing.Points
import WasmVm.Proofs.Observing.Erasure

namespace WasmVm

variable {ω σ : Type}

open FlatProgram

/-! ### Remarks -/

/-- The line carries a remark. -/
def Line.Says (line : Line) (remark : String) : Prop :=
  ∃ depth op operands comments, line.text = .instruction depth op operands comments ∧
    remark ∈ comments

theorem toDigits_inj {a b : Nat} : Nat.toDigits 10 a = Nat.toDigits 10 b ↔ a = b := by
  refine ⟨fun h => ?_, fun h => by rw [h]⟩
  rw [← @Nat.ofDigitChars_ten_toDigits a, h, Nat.ofDigitChars_ten_toDigits]

theorem goto_inj {a b : Nat} : s!"goto @{a}" = s!"goto @{b}" ↔ a = b := by
  simp [toString, String.ext_iff, toDigits_inj]

theorem goto_ne_outOfRange (a b : Nat) :
    s!"goto @{a}" ≠ s!"goto out of range ({b})" := by
  simp [toString, String.ext_iff]

theorem gotoComment_eq_goto {depth relative target : Nat} :
    s!"goto @{target}" = gotoComment depth relative ↔ relative + target = depth := by
  unfold gotoComment
  split
  · rw [goto_inj]
    omega
  · exact iff_of_false (goto_ne_outOfRange _ _) (by omega)

theorem gotoComment_eq_outOfRange {depth relative : Nat} :
    s!"goto out of range ({relative})" = gotoComment depth relative ↔
    depth < relative := by
  unfold gotoComment
  split
  · exact iff_of_false (goto_ne_outOfRange _ _).symm (by omega)
  · exact iff_of_true rfl (by omega)

/-- A `br` or `br_if` of a relative depth. -/
inductive Node.Branches (relative : Nat) : Node → Prop
  | br {id} : Branches relative (.plain id (.br relative))
  | brIf {id} : Branches relative (.plain id (.brIf relative))

/-- The line of an instruction says what its remarks are. -/
theorem FlatEntry.says_line {m : Module} {function : Nat} {e : FlatEntry}
    (hmark : e.mark = .instruction) {remark : String} :
    (e.line m function).Says remark ↔ remark ∈ e.comments m := by
  have htext : (e.line m function).text =
      .instruction e.depth e.node.opcode e.node.operands (e.comments m) := by
    rw [line, lineText, hmark]
  constructor
  · rintro ⟨depth, op, operands, comments, hline, hremark⟩
    rw [htext] at hline
    cases hline
    exact hremark
  · exact fun hremark => ⟨_, _, _, _, htext, hremark⟩

/-- The line of a branch says where it goes, and nothing else. -/
theorem Node.Branches.says_iff {m : Module} {function relative : Nat} {e : FlatEntry}
    (h : e.node.Branches relative) (hmark : e.mark = .instruction) {remark : String} :
    (e.line m function).Says remark ↔ remark = gotoComment e.depth relative := by
  have hcomments : e.comments m = [gotoComment e.depth relative] := by
    obtain ⟨mark, node, depth⟩ := e
    cases h <;> rfl
  rw [FlatEntry.says_line hmark, hcomments, List.mem_singleton]

/-- The line of a scope says how branches call it. -/
theorem Scope.OpenedBy.says_label {m : Module} {function : Nat}
    {scope : Scope} {e : FlatEntry}
    (h : scope.OpenedBy e.node) (hmark : e.mark = .instruction) :
    (e.line m function).Says s!"label @{e.depth + 1}" := by
  have hcomments : e.comments m = [e.label] := by
    obtain ⟨mark, node, depth⟩ := e
    cases h <;> rfl
  rw [FlatEntry.says_line hmark, hcomments]
  exact List.mem_singleton_self _

/-! ### Branches -/

namespace Frame

variable {m : Module} {f : Frame} {store : Store} {node : Node} {relative : Nat}

/-- A branch goes too far, lacks values to carry, or moves its frame. -/
theorem branch_cases (f : Frame) (relative : Nat) :
    (f.scopes.length ≤ relative ∧
      ∃ count, f.branch relative = .error (.invalidBranch relative count)) ∨
    relative < f.scopes.length ∧
      ((∃ needed found, f.branch relative = .error (.shortStack needed found)) ∨
        ∃ g, f.branch relative = .ok g) := by
  unfold branch
  cases hdrop : f.scopes.drop relative with
  | nil => exact .inl ⟨List.drop_eq_nil_iff.mp hdrop, _, rfl⟩
  | cons scope outer =>
      refine .inr ⟨Nat.not_le.mp fun hle => ?_, ?_⟩
      · rw [List.drop_eq_nil_of_le hle] at hdrop
        cases hdrop
      · dsimp only
        unfold Stack.popMany
        by_cases hshort : f.stack.length < scope.arity
        · rw [if_pos hshort]
          exact .inl ⟨_, _, rfl⟩
        · rw [if_neg hshort]
          simp only [bind, Except.bind]
          split <;> exact .inr ⟨_, rfl⟩

/-- A `br` or `br_if` that is taken is a branch, once its condition is off the stack. -/
theorem execute_eq_branch (hnode : node.Branches relative)
    (htaken : node.decision f.stack = .branch relative) :
    ∃ stack, f.execute m store node =
      ({ f with stack }.branch relative >>= fun g => pure (g, Action.proceed)) := by
  cases hnode with
  | br => exact ⟨f.stack, rfl⟩
  | brIf =>
      simp only [Node.decision] at htaken
      split at htaken
      · next stack hpop =>
        refine ⟨stack, ?_⟩
        simp only [execute, executePlain, hpop]
        rfl
      · cases htaken

theorem execute_of_branches (hnode : node.Branches relative)
    (htaken : node.decision f.stack = .branch relative) :
    (f.scopes.length ≤ relative ∧
      ∃ count, f.execute m store node = .error (.invalidBranch relative count)) ∨
    relative < f.scopes.length ∧
      ((∃ needed found, f.execute m store node = .error (.shortStack needed found)) ∨
        ∃ g, f.execute m store node = .ok (g, .proceed)) := by
  obtain ⟨stack, hexecute⟩ := f.execute_eq_branch hnode htaken
  rw [hexecute]
  rcases branch_cases { f with stack } relative with ⟨hfar, count, hbranch⟩ |
    ⟨hopen, ⟨needed, found, hbranch⟩ | ⟨g, hbranch⟩⟩
  · exact .inl ⟨hfar, count, by rw [hbranch]; rfl⟩
  · exact .inr ⟨hopen, .inl ⟨needed, found, by rw [hbranch]; rfl⟩⟩
  · exact .inr ⟨hopen, .inr ⟨g, by rw [hbranch]; rfl⟩⟩

end Frame

/-- A branch goes to the scope of its depth. -/
theorem Moves.drop_eq {node : Node} {depth : Nat} {scopes scopes' : List Scope}
    (h : Moves node (.branch depth) scopes scopes') :
    ∃ scope outer, scopes.drop depth = scope :: outer ∧
      scopes' = if scope.isLoop then { scope with rest := scope.body } :: outer
        else outer := by
  cases h with
  | branch hdrop => exact ⟨_, _, hdrop, rfl⟩

namespace State

variable {env : Env ω σ} {s s' : State ω σ} {node : Node} {f : Frame} {relative : Nat}

/-- A taken branch that nobody stops traps as invalid exactly if it goes too far. -/
theorem advance_invalidBranch (hpermitted : s.Permitted env)
    (hfetch : s.calls.top.fetch? = some (node, f)) (hnode : node.Branches relative)
    (htaken : node.decision f.stack = .branch relative) :
    (∃ cause site w, s.advance env = .done (.error (.trap cause site)) w ∧
      cause.code = .invalidBranch) ↔ f.scopes.length ≤ relative := by
  obtain ⟨w, -, hadvance⟩ := advance_of_permitted hpermitted hfetch
  rw [hadvance]
  rcases f.execute_of_branches hnode htaken with ⟨hfar, count, hexecute⟩ |
    ⟨hopen, ⟨needed, found, hexecute⟩ | ⟨g, hexecute⟩⟩
  · rw [hexecute]
    exact iff_of_true ⟨_, _, w, rfl, rfl⟩ hfar
  · rw [hexecute]
    refine iff_of_false ?_ (Nat.not_le.mpr hopen)
    rintro ⟨cause, site, w', hdone, hcode⟩
    cases hdone
    cases hcode
  · rw [hexecute]
    refine iff_of_false ?_ (Nat.not_le.mpr hopen)
    rintro ⟨cause, site, w', hdone, -⟩
    cases hdone

/-- A taken branch that does not trap moves its frame and no other. -/
theorem advance_branch (hfetch : s.calls.top.fetch? = some (node, f))
    (hnode : node.Branches relative) (htaken : node.decision f.stack = .branch relative)
    (hadvance : s.advance env = .running s') :
    s'.calls.callers = s.calls.callers ∧
      Moves node (.branch relative) f.scopes s'.calls.top.scopes := by
  obtain ⟨w, -, hstep⟩ := advance_of_permitted (permitted_of_running hadvance) hfetch
  rw [hstep] at hadvance
  rcases f.execute_of_branches hnode htaken with ⟨-, count, hexecute⟩ |
    ⟨-, ⟨needed, found, hexecute⟩ | ⟨g, hexecute⟩⟩
  · rw [hexecute] at hadvance
    cases hadvance
  · rw [hexecute] at hadvance
    cases hadvance
  · have hmoves := Frame.execute_moves hexecute
    rw [htaken] at hmoves
    rw [hexecute] at hadvance
    cases hadvance
    exact ⟨rfl, hmoves⟩

end State

/-! ### Scopes -/

/-- The scope of the body itself is no loop. -/
theorem Located.outermost {p : FlatProgram} {scopes : List Scope} {openers : List Nat}
    {before after : List FlatEntry} (h : Located p scopes openers before after)
    {scope : Scope} (hscope : scopes[openers.length]? = some scope) :
    scope.isLoop = false := by
  induction h with
  | finished => cases hscope
  | root _ _ _ _ hloop =>
      cases hscope
      exact hloop
  | body _ _ _ _ _ _ _ ih | other _ _ _ _ _ _ ih => exact ih hscope

/-- The scopes of a frame are those around a position of its body: below that of the
body itself there is one for each scope around the position, opened by the node on the
line that gives the scope its label. -/
structure ShowsScopes (m : Module) (style : Style) (function : Nat)
    (p : FlatProgram) (pc : Nat) (scopes : List Scope) : Prop where
  count : scopes.length = (p.enclosing pc).length + 1
  opened : ∀ (level : Nat) opener, (p.enclosing pc).reverse[level]? = some opener →
    ∃ scope e, scopes.reverse[level + 1]? = some scope ∧ p[opener.position]? = some e ∧
      e.mark = .instruction ∧ scope.OpenedBy e.node ∧ e.depth = level ∧
      (Listing.ofModule m style).lineAt? ⟨function, e.node.id⟩ = some
      (e.line m function) ∧
      (e.line m function).Says s!"label @{level + 1}"

/-- What the line of a branch says is what the branch does: it traps as invalid if it
goes too far, it ends the body if its target is that of the body, and else it goes to
the start of the loop, or behind the end of another scope, that has the label of its
target. -/
structure ShowsBranch (env : Env ω σ) (function : Nat) (p : FlatProgram)
    (pc : Nat) (s : State ω σ) (f : Frame) (relative : Nat) (line : Line) : Prop where
  invalid : s.Permitted env →
    ((∃ cause site w, s.advance env = .done (.error (.trap cause site)) w ∧
      cause.code = .invalidBranch) ↔ line.Says s!"goto out of range ({relative})")
  callers : ∀ s', s.advance env = .running s' → s'.calls.callers = s.calls.callers
  whole : ∀ s', s.advance env = .running s' → line.Says s!"goto @{0}" →
    s'.calls.top.scopes = []
  inner : ∀ s' target, s.advance env = .running s' → line.Says s!"goto @{target + 1}" →
    ∃ opener e scope outer, (p.enclosing pc).reverse[target]? = some opener ∧
      p[opener.position]? = some e ∧
      (e.line env.module function).Says s!"label @{target + 1}" ∧
      f.scopes.drop relative = scope :: outer ∧ scope.OpenedBy e.node ∧
      s'.calls.top.scopes =
        (if scope.isLoop then { scope with rest := scope.body } :: outer else outer) ∧
      upcoming? s'.calls.top.scopes =
        p.fetch (if e.opensLoop then opener.position + 1
          else p.past (opener.position + 1))

/-- A frame that has fetched an instruction of a body stood before the entry of it,
with the scopes around the entry open.  `openers` are where these begin, the innermost
first. -/
structure FetchedAt (p : FlatProgram) (openers : List Nat) (before : List FlatEntry)
    (e : FlatEntry) (node : Node) (f : Frame) : Prop where
  entry : p[before.length]? = some e
  mark : e.mark = .instruction
  node_eq : e.node = node
  depth : e.depth = openers.length
  scopes : f.scopes.length = openers.length + 1
  enclosing : p.enclosing before.length = openers.map fun q => ⟨q, false⟩
  depths : ∀ {pc : Nat} {e : FlatEntry}, p[pc]? = some e → e.mark = .instruction →
    e.node.isMark = false → e.depth = (p.enclosing pc).length
  located : ∃ before' after', Located p f.scopes openers before' after'
  moves : ∀ {decision scopes'}, Moves node decision f.scopes scopes' →
    ∃ openers' before' after', Located p scopes' openers' before' after' ∧
      p.next before.length decision = some before'.length

theorem InBody.fetchedAt {m : Module} (hm : m.BodiesRead) {function : Nat} {f g : Frame}
    {node : Node} (h : InBody m (.function function) f.scopes)
    (hfetch : f.fetch? = some (node, g))
    (hnode : ∀ id depth, node ≠ .plain id (.delegate depth)) :
    ∃ code openers before e, m.code? function = some code ∧
      FetchedAt code.body.entries openers before e node g := by
  obtain ⟨root, openers, before, after, hroot, hlocated⟩ := h
  obtain ⟨code, hcode, rfl⟩ := Option.map_eq_some_iff.mp hroot
  obtain ⟨scope, outer, rest, hscopes, hrest, rfl⟩ := Frame.fetch?_eq_some hfetch
  rw [hscopes] at hlocated
  obtain ⟨depth, hentry⟩ := hlocated.entry hrest
  obtain ⟨_, after', rfl, hpast, hnested⟩ := hlocated.past_node hrest
  have hmark : node.isMark = false := by
    rcases hnested with hnested | ⟨id, target, rfl⟩
    · exact hnested.isMark_eq_false
    · exact absurd rfl (hnode id target)
  have henclosing := hlocated.enclosing_eq hrest
  obtain ⟨type, bytes, m₀, -, hbody⟩ := hm.read (Module.hasBody_of_code? hcode)
  have hdepth : depth = openers.length := by
    have hdepth := hbody.depth_eq hentry rfl hmark
    rw [henclosing, List.length_map] at hdepth
    exact hdepth
  have hscopes : ({ scope with rest } :: outer).length = openers.length + 1 := by
    rw [List.length_cons, hlocated.length_openers]
  exact ⟨code, openers, before, _, hcode, hentry, rfl, rfl, hdepth, hscopes, henclosing,
    hbody.depth_eq, ⟨_, _, hpast⟩, hlocated.moves hrest⟩

namespace FetchedAt

variable {p : FlatProgram} {openers : List Nat}
  {before : List FlatEntry} {e : FlatEntry}
  {node : Node} {f : Frame}

/-- The scopes around the entry, counted from the outside. -/
theorem enclosing_reverse (h : FetchedAt p openers before e node f) {level : Nat}
    (hlevel : level < openers.length) :
    ∃ q, openers[openers.length - 1 - level]? = some q ∧
      (p.enclosing before.length).reverse[level]? = some ⟨q, false⟩ := by
  obtain ⟨q, hq⟩ : ∃ q, openers[openers.length - 1 - level]? = some q :=
    ⟨_, List.getElem?_eq_getElem (by omega)⟩
  refine ⟨q, hq, ?_⟩
  rw [h.enclosing, List.getElem?_reverse (by rwa [List.length_map]), List.length_map,
    List.getElem?_map, hq]
  rfl

/-- Each was opened by a node that has as many scopes around it. -/
theorem opened (h : FetchedAt p openers before e node f) {level q : Nat}
    (hlevel : level < openers.length)
    (hq : openers[openers.length - 1 - level]? = some q) :
    ∃ scope e', f.scopes[openers.length - 1 - level]? = some scope ∧ p[q]? = some e' ∧
      e'.mark = .instruction ∧ scope.OpenedBy e'.node ∧ e'.depth = level := by
  obtain ⟨before', after', hlocated⟩ := h.located
  obtain ⟨scope, opener, depth, hscope, hentry, hopened, hmark, henclosing⟩ :=
    hlocated.openedBy hq
  refine ⟨scope, _, hscope, hentry, rfl, hopened, ?_⟩
  rw [h.depths hentry rfl hmark, henclosing, List.length_map, List.length_drop]
  omega

theorem showsScopes {m : Module} (hm : m.BodiesRead) (style : Style)
    {function : Nat} {code : Code} (hcode : m.code? function = some code)
    (h : FetchedAt code.body.entries openers before e node f) :
    ShowsScopes m style function code.body.entries before.length f.scopes where
  count := by rw [h.scopes, h.enclosing, List.length_map]
  opened level opener hopener := by
    have hlevel : level < openers.length := by
      obtain ⟨hlt, -⟩ := List.getElem?_eq_some_iff.mp hopener
      rwa [h.enclosing, List.length_reverse, List.length_map] at hlt
    obtain ⟨q, hq, hfound⟩ := h.enclosing_reverse hlevel
    obtain rfl := Option.some.inj (hfound.symm.trans hopener)
    obtain ⟨scope, e', hscope, hentry, hmark, hopened, rfl⟩ := h.opened hlevel hq
    refine ⟨scope, e', ?_, hentry, hmark, hopened, rfl, ?_, hopened.says_label hmark⟩
    · rw [List.getElem?_reverse (by rw [h.scopes]; omega), h.scopes, ← hscope]
      congr 1
      omega
    · exact Listing.lineAt?_instruction hm style hcode
        (List.mem_of_getElem? hentry) hmark

theorem showsBranch {env : Env ω σ} {s : State ω σ} {relative : Nat}
    (h : FetchedAt p openers before e node f)
    (hfetch : s.calls.top.fetch? = some (node, f))
    (hnode : node.Branches relative) (htaken : node.decision f.stack = .branch relative)
    (function : Nat) :
    ShowsBranch env function p before.length s f relative
      (e.line env.module function) := by
  have hbranches : e.node.Branches relative := by
    rw [h.node_eq]
    exact hnode
  have hremark : ∀ remark, (e.line env.module function).Says remark ↔
      remark = gotoComment openers.length relative := by
    intro remark
    rw [hbranches.says_iff h.mark, h.depth]
  obtain ⟨_, _, hlocated⟩ := h.located
  refine ⟨fun hpermitted => ?_, fun s' hadvance => ?_, fun s' hadvance hgoto => ?_,
    fun s' target hadvance hgoto => ?_⟩
  · rw [State.advance_invalidBranch hpermitted hfetch hnode htaken, hremark,
      gotoComment_eq_outOfRange, h.scopes]
    omega
  · exact (State.advance_branch hfetch hnode htaken hadvance).1
  · -- The target is the outermost scope, which is no loop.
    rw [hremark, gotoComment_eq_goto] at hgoto
    obtain ⟨-, hmoves⟩ := State.advance_branch hfetch hnode htaken hadvance
    obtain ⟨scope, outer, hdrop, hscopes⟩ := hmoves.drop_eq
    have hscope : f.scopes[openers.length]? = some scope := by
      rw [← hgoto, Nat.add_zero, ← List.head?_drop, hdrop]
      rfl
    have hlength := congrArg List.length hdrop
    rw [List.length_drop, h.scopes, List.length_cons] at hlength
    obtain rfl : outer = [] := List.eq_nil_of_length_eq_zero (by omega)
    rw [hscopes, hlocated.outermost hscope]
    rfl
  · rw [hremark, gotoComment_eq_goto] at hgoto
    have hlevel : target < openers.length := by omega
    have hindex : openers.length - 1 - target = relative := by omega
    obtain ⟨q, hq, hopener⟩ := h.enclosing_reverse hlevel
    obtain ⟨scope, e', hscope, hentry, hmark, hopened, rfl⟩ := h.opened hlevel hq
    rw [hindex] at hq hscope
    obtain ⟨-, hmoves⟩ := State.advance_branch hfetch hnode htaken hadvance
    obtain ⟨openers', before', after', hlater, hnext⟩ := h.moves hmoves
    have hlanding : p.landing openers relative =
        some (if e'.opensLoop then q + 1 else p.past (q + 1)) := by
      rw [landing, hq]
      dsimp only
      rw [hentry, Option.any_some]
      split <;> rfl
    rw [next_branch _ h.enclosing, hlanding] at hnext
    have hupcoming := hlater.fetch_eq
    rw [← Option.some.inj hnext] at hupcoming
    obtain ⟨scope', outer, hdrop, hscopes⟩ := hmoves.drop_eq
    have hsame : f.scopes[relative]? = some scope' := by
      rw [← List.head?_drop, hdrop]
      rfl
    obtain rfl := Option.some.inj (hsame.symm.trans hscope)
    exact ⟨_, e', scope', outer, hopener, hentry, hopened.says_label hmark, hdrop,
      hopened, hscopes, hupcoming.symm⟩

end FetchedAt

/-- What a listing of a decoded module says is what its runs do.

Whenever an instruction of a function is fetched, a `delegate` apart, the listing has
its line at the number of the function and of the instruction, indented as deep as
scopes are open above that of the body; these scopes are, from the outside in, those
around the line.  A `br` or `br_if` that is then taken goes where its line says. -/
theorem listing_matches_execution {env : Env ω σ} {fuel : Nat} {bytes : Array UInt8}
    (hmodule : Module.decode fuel bytes = .ok env.module) {w : World ω σ}
    {op : Operation}
    {s t : State ω σ} {log : List Event} (hstart : op.start env w = .running s)
    (hruns : State.Runs env s log t) {node : Node} {f : Frame}
    (hfetch : t.calls.top.fetch? = some (node, f)) {function : Nat}
    (howner : t.calls.top.owner = .function function)
    (hnode : ∀ id depth, node ≠ .plain id (.delegate depth)) (style : Style) :
    ∃ code pc e, env.module.code? function = some code ∧
      code.body.entries[pc]? = some e ∧
      e.mark = .instruction ∧ e.node = node ∧ (t.view node f).scopeDepth = e.depth + 1 ∧
      ShowsScopes env.module style function code.body.entries pc f.scopes ∧
      (Listing.ofModule env.module style).lineAt? ⟨function, node.id⟩ =
        some (e.line env.module function) ∧
      ∀ relative, node.Branches relative → node.decision f.stack = .branch relative →
        ShowsBranch env function code.body.entries pc t f relative
          (e.line env.module function) := by
  obtain ⟨hrange, hsize⟩ := Module.decodeWith_inRange hmodule
  have hm := Module.decodeWith_bodiesRead hmodule
  have htop := Operation.runs_allInBody hm hrange hsize hstart hruns t.calls.top
    List.mem_cons_self
  rw [howner] at htop
  obtain ⟨code, openers, before, e, hcode, hfetched⟩ := htop.fetchedAt hm hfetch hnode
  have hline := Listing.lineAt?_instruction hm style hcode
    (List.mem_of_getElem? hfetched.entry) hfetched.mark
  rw [hfetched.node_eq] at hline
  have hdepth : (t.view node f).scopeDepth = e.depth + 1 := by
    rw [hfetched.depth]
    exact hfetched.scopes
  exact ⟨code, before.length, e, hcode, hfetched.entry, hfetched.mark,
    hfetched.node_eq, hdepth, hfetched.showsScopes hm style hcode, hline,
      fun relative hbranches htaken =>
      hfetched.showsBranch hfetch hbranches htaken function⟩

namespace AnnotationsWitness

/-- A function whose `block` holds a `loop` with a branch out of both. -/
def bytes : List UInt8 :=
  [0x00, 0x61, 0x73, 0x6d, 0x01, 0x00, 0x00, 0x00,
    0x01, 0x04, 0x01, 0x60, 0x00, 0x00, 0x03, 0x02, 0x01, 0x00,
    0x0a, 0x0c, 0x01, 0x0a, 0x00, 0x02, 0x40, 0x03, 0x40, 0x0c, 0x01, 0x0b, 0x0b, 0x0b]

def inner : Node := .scope 2 .loop .empty [.plain 3 (.br 1)] none

def outer : Node := .scope 1 .block .empty [inner] none

def module : Module where
  types := #[⟨[], []⟩]
  functions := #[0]
  codes := #[⟨#[], 0, .scope 0 .block (.func 0) [outer] none⟩]

theorem decode_bytes : Module.decode 0 bytes.toArray = .ok module := by
  with_unfolding_all rfl

def env : Env Unit Unit :=
  { module, hosts := #[], observer := .silent, maxDepth := 1 }

/-- The function with some of its scopes open. -/
def state (scopes : List Scope) : State Unit Unit :=
  ⟨.ofFrame ⟨.function 0, #[], [], scopes, some 0⟩, ⟨.ofModule module, (), ()⟩⟩

def opened : List Scope :=
  [⟨[], [inner], 0, 0, false⟩, ⟨[], [outer], 0, 0, false⟩]

/-- The function before its branch. -/
def before : State Unit Unit :=
  state (⟨[.plain 3 (.br 1)], [.plain 3 (.br 1)], 0, 0, true⟩ :: opened)

/-- It goes on behind the `block`. -/
def after : State Unit Unit :=
  state [⟨[], [outer], 0, 0, false⟩]

theorem runs_to_branch :
    ∃ log, State.Runs env (state [⟨[outer], [outer], 0, 0, false⟩]) log before := by
  have hblock : (state [⟨[outer], [outer], 0, 0, false⟩]).advance env =
      .running (state [⟨[inner], [inner], 0, 0, false⟩, ⟨[], [outer], 0, 0, false⟩]) :=
        rfl
  exact ⟨_, (State.Runs.start.step hblock).step rfl⟩

/-- The branch is listed with the label of the `block`, behind which the run goes on. -/
theorem branch_goes_to_label :
    Module.decode 0 bytes.toArray = .ok module ∧
    (∃ log, State.Runs env (state [⟨[outer], [outer], 0, 0, false⟩]) log before) ∧
    before.advance env = .running after ∧
    ∃ line, (Listing.ofModule module .plain).lineAt? ⟨0, 3⟩ = some line ∧
      line.Says s!"goto @{1}" ∧
      ∃ (scope : Scope) (e : FlatEntry), scope.OpenedBy e.node ∧
        (e.line module 0).Says s!"label @{1}" ∧
        opened.head? = some scope ∧ scope.isLoop = false := by
  have hmodule : Module.decode 0 bytes.toArray = .ok env.module := decode_bytes
  obtain ⟨log, hruns⟩ := runs_to_branch
  refine ⟨decode_bytes, ⟨log, hruns⟩, rfl, ?_⟩
  have hstart : (Operation.invoke 0 []).start env ⟨.ofModule module, (), ()⟩ =
      .running (state [⟨[outer], [outer], 0, 0, false⟩]) := rfl
  have hfetch : before.calls.top.fetch? = some (.plain 3 (.br 1),
      ⟨.function 0, #[], [], ⟨[], [.plain 3 (.br 1)], 0, 0, true⟩ :: opened, some 0⟩) :=
        rfl
  obtain ⟨code, pc, e, -, -, hmark, hnode, hdepth, -, hline, hbranch⟩ :=
    listing_matches_execution hmodule hstart hruns hfetch rfl (by simp) .plain
  have hbranches : e.node.Branches 1 := by
    rw [hnode]
    exact .br
  have htwo : e.depth = 2 := Nat.succ.inj hdepth.symm
  have hremark : (e.line module 0).Says s!"goto @{1}" := by
    rw [hbranches.says_iff hmark, gotoComment_eq_goto, htwo]
  obtain ⟨opener, e', scope, outside, -, -, hlabel, hdrop, hopened, -, -⟩ :=
    (hbranch 1 .br rfl).inner after 0 rfl hremark
  obtain ⟨rfl, -⟩ := List.cons.inj hdrop
  exact ⟨_, hline, hremark, _, e', hopened, hlabel, rfl, rfl⟩

end AnnotationsWitness

end WasmVm
