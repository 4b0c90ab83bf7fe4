/-
Scopes and positions.  What the open scopes of a frame have left to run is a
position in the entries of the body: the entries before it and those after it.
-/
import WasmVm.Machine.Frame
import WasmVm.Proofs.Control.WellNested

namespace WasmVm

open FlatProgram

/-- The scopes stand at the position between `before` and `after`.  Every scope but
the outermost is a node of the scope around it, which already stands past that node;
`openers` are the positions of these nodes. -/
inductive Located (p : FlatProgram) :
    List Scope → (openers : List Nat) → (before after : List FlatEntry) → Prop
  | finished : Located p [] [] p []
  | root {scope : Scope} {body done rest} (hp : p = flattenAll 0 body)
      (hnested : ∀ n ∈ body, n.Nested) (hparts : body = done ++ rest)
      (hrest : scope.rest = rest) (hloop : scope.isLoop = false) :
      Located p [scope] [] (flattenAll 0 done) (flattenAll 0 rest)
  | body {scope next : Scope}
      {scopes openers before after depth id kind type body done rest}
      {alternative : Option (List Node)} (houter : Located p (next :: scopes) openers
        (before ++ (Node.scope id kind type body alternative).flatten depth) after)
      (hscan : openersAfter 0 [] before = openers.map fun q => ⟨q, false⟩)
      (hnode : (Node.scope id kind type body alternative).Nested)
      (hparts : body = done ++ rest) (hrest : scope.rest = rest)
      (hbody : scope.body = body)
      (hloop : scope.isLoop = (kind == .loop)) :
      Located p (scope :: next :: scopes) (before.length :: openers)
        (before ++ ⟨.instruction, .scope id kind type body alternative, depth⟩
          :: flattenAll (depth + 1) done)
        (flattenAll (depth + 1) rest
          ++ ((Node.scope id kind type body alternative).closing depth ++ after))
  /-- The other half of an `if`. -/
  | other {scope next : Scope}
      {scopes openers before after depth id type body other done rest}
      (houter : Located p (next :: scopes) openers
        (before ++ (Node.scope id .ifThen type body (some other)).flatten depth) after)
      (hscan : openersAfter 0 [] before = openers.map fun q => ⟨q, false⟩)
      (hnode : (Node.scope id .ifThen type body (some other)).Nested)
      (hparts : other = done ++ rest) (hrest : scope.rest = rest)
      (hloop : scope.isLoop = false) :
      Located p (scope :: next :: scopes) (before.length :: openers)
        (before ++ ⟨.instruction, .scope id .ifThen type body (some other), depth⟩
          :: (flattenAll (depth + 1) body
            ++ ⟨.otherwise, .scope id .ifThen type body (some other), depth⟩
              :: flattenAll (depth + 1) done))
        (flattenAll (depth + 1) rest
          ++ ⟨.close, .scope id .ifThen type body (some other), depth⟩ :: after)

theorem Node.Nested.body_of_ifElse {id : Nat} {type : BlockType}
    {body other : List Node}
    (h : (Node.scope id .ifThen type body (some other)).Nested) :
    (∀ n ∈ body, n.Nested) ∧ ∀ n ∈ other, n.Nested := by
  cases h with
  | ifElse hbody hother => exact ⟨hbody, hother⟩

/-- A `delegate` can only be the last node of its `try`. -/
theorem Node.Nested.body_append {id : Nat} {kind : ScopeKind} {type : BlockType}
    {done rest : List Node} {alternative : Option (List Node)}
    (h : (Node.scope id kind type (done ++ rest) alternative).Nested)
    (hrest : rest ≠ []) :
    ∀ n ∈ done, n.Nested := by
  generalize hbody : done ++ rest = body at h
  intro n hn
  cases h with
  | scope hall | ifElse hall | tryCatch hall =>
      apply hall n
      rw [← hbody]
      exact List.mem_append_left _ hn
  | @tryDelegate _ _ front last target hall =>
      apply hall n
      obtain ⟨init, final, rfl⟩ := (List.eq_nil_or_concat rest).resolve_left hrest
      rw [List.concat_eq_append, ← List.append_assoc] at hbody
      obtain ⟨rfl, -⟩ := List.append_inj' hbody rfl
      exact List.mem_append_left _ hn

/-- Any node of a scope's body can be run. -/
theorem Node.Nested.mem_body {id : Nat} {kind : ScopeKind} {type : BlockType}
    {body : List Node} {alternative : Option (List Node)}
    (h : (Node.scope id kind type body alternative).Nested) :
    ∀ n ∈ body, n.Nested ∨ ∃ id target, n = .plain id (.delegate target) := by
  intro n hn
  cases h with
  | scope hall | ifElse hall | tryCatch hall => exact .inl (hall n hn)
  | @tryDelegate _ _ front last target hall =>
      rcases List.mem_append.mp hn with hn | hn
      · exact .inl (hall n hn)
      · exact .inr ⟨last, target, List.mem_singleton.mp hn⟩

/-- The first entry of a node is its own. -/
theorem Node.flatten_head (node : Node) (depth : Nat) :
    ∃ level tail, node.flatten depth = ⟨.instruction, node, level⟩ :: tail := by
  cases node with
  | plain id instr => exact ⟨_, [], rfl⟩
  | scope id kind type body alternative => exact ⟨depth, _, flatten_eq ..⟩

/-- The mark of a handler is one entry, which is never reached from above. -/
theorem Node.flatten_catch {mark : Node} (h : mark.isCatch = true) (depth : Nat) :
    ∃ level, mark.flatten depth = [⟨.instruction, mark, level⟩] := by
  cases mark with
  | plain id instr => exact ⟨_, rfl⟩
  | scope => cases h

theorem Node.divides_catch {mark : Node} (h : mark.isCatch = true) (level : Nat) :
    (⟨.instruction, mark, level⟩ : FlatEntry).divides = true := by
  unfold isCatch at h
  split at h
  · rfl
  · rfl
  · cases h

theorem Node.divides_of_isMark {n : Node} (h : n.isMark = false) (level : Nat) :
    (⟨.instruction, n, level⟩ : FlatEntry).divides = false := by
  cases n with
  | plain id instr => cases instr <;> first | rfl | cases h
  | scope => rfl

section Splits

variable {p : FlatProgram} {before after : List FlatEntry} {e : FlatEntry}

theorem FlatProgram.getElem?_split (h : before ++ e :: after = p) :
    p[before.length]? = some e := by
  rw [← h, List.getElem?_append_right (Nat.le_refl _), Nat.sub_self]
  rfl

theorem FlatProgram.drop_split (h : before ++ e :: after = p) :
    p.drop (before.length + 1) = after := by
  rw [← h, List.drop_append, Nat.add_sub_cancel_left,
    List.drop_eq_nil_of_le (Nat.le_succ _)]
  rfl

theorem FlatProgram.past_split (h : before ++ e :: after = p) :
    p.past (before.length + 1) = before.length + 1 + passed false 0 after := by
  rw [past, drop_split h]

/-- An entry that is never reached from above is passed over with the rest of its
scope. -/
theorem FlatProgram.settle_over {last : FlatEntry} {entries : List FlatEntry}
    (h : before ++ e :: (entries ++ last :: after) = p) (hclose : e.mark ≠ .close)
    (hdivides : e.divides = true) (hentries : Inside entries)
    (hcloses : last.closes = true) (hopens : last.opens = false) :
    p.settle before.length = p.settle (before.length + 1 + (entries.length + 1)) := by
  rw [settle_divides (getElem?_split h) hclose hdivides, past_split h,
    hentries.passed _ _ _ (by simp), passed_closes_zero hopens hcloses]

end Splits

/-- What a body ends with is stepped over up to the end of its scope. -/
theorem Node.Nested.settle_closing {id : Nat} {kind : ScopeKind} {type : BlockType}
    {body : List Node} {alternative : Option (List Node)}
    {p : FlatProgram} {depth : Nat}
    {before after : List FlatEntry}
    (h : (Node.scope id kind type body alternative).Nested)
    (hp : before ++ ((Node.scope id kind type body alternative).closing
      depth ++ after) = p) :
    p.settle before.length = p.settle
      (before ++ (Node.scope id kind type body alternative).closing depth).length := by
  cases h with
  | scope hbody =>
      rw [closing_scope hbody] at hp ⊢
      rw [settle_close (getElem?_split hp) rfl, List.length_append]
      rfl
  | @ifElse _ _ _ other hbody hother =>
      have hinside := (Node.Nested.paired hother (depth + 1)).inside
      rw [closing_ifElse hbody] at hp ⊢
      rw [List.append_assoc, List.cons_append, List.singleton_append] at hp
      rw [settle_over hp (by simp) rfl hinside rfl rfl]
      simp [Nat.add_assoc, Nat.add_comm 1]
  | @tryCatch _ _ _ mark handlers hbody hmark hhandlers =>
      have hinside : Inside (flattenAll (depth + 1) handlers) := by
        refine .flattenAll fun n hn => ?_
        by_cases hcatch : n.isCatch = true
        · exact Node.isCatch.inside hcatch _
        · exact ((hhandlers n hn (Bool.eq_false_iff.mpr hcatch)).shape _).1.inside
      obtain ⟨level, hentry⟩ := flatten_catch hmark (depth + 1)
      rw [closing_tryCatch hbody, flattenAll_cons, hentry] at hp ⊢
      rw [List.append_assoc, List.append_assoc, List.singleton_append,
        List.singleton_append] at hp
      rw [settle_over hp (by simp) (divides_catch hmark level) hinside rfl rfl]
      simp [Nat.add_assoc, Nat.add_comm 1]
  | tryDelegate => rw [closing_tryDelegate, List.append_nil]

namespace Located

variable {p : FlatProgram} {scope : Scope} {scopes : List Scope} {openers : List Nat}
  {before after : List FlatEntry}

/-- Before and after make up the program. -/
theorem program (h : Located p scopes openers before after) : before ++ after = p := by
  induction h with
  | finished => exact List.append_nil p
  | root hp _ hparts =>
      rw [hp, hparts, flattenAll_append]
  | body _ _ _ hparts _ _ _ ih =>
      rw [← ih, Node.flatten_eq]
      simp [hparts, flattenAll_append]
  | other _ _ hnode hparts _ _ ih =>
      rw [← ih, Node.flatten_eq, Node.closing_ifElse hnode.body_of_ifElse.1]
      simp [hparts, flattenAll_append]

theorem length_openers (h : Located p (scope :: scopes) openers before after) :
    openers.length = scopes.length := by
  generalize hscopes : scope :: scopes = all at h
  induction h generalizing scope scopes with
  | finished => cases hscopes
  | root =>
      cases hscopes
      rfl
  | body _ _ _ _ _ _ _ ih | other _ _ _ _ _ _ ih =>
      cases hscopes
      rw [List.length_cons, ih rfl, List.length_cons]

/-- The scopes around a position are those that are open, and none of them is in a
handler. -/
theorem scan (h : Located p (scope :: scopes) openers before after)
    (hrest : scope.rest ≠ []) :
    openersAfter 0 [] before = openers.map fun q => ⟨q, false⟩ := by
  cases h with
  | root hp hnested hparts hdone hloop =>
      subst hparts
      have hpaired :=
        Node.Nested.paired (fun n hn => hnested n (List.mem_append_left _ hn)) 0
      exact hpaired.openers 0 []
  | body houter hscan hnode hparts hdone hbody hloop =>
      subst hdone hparts
      have hpaired := Node.Nested.paired (hnode.body_append hrest)
      rw [openersAfter_append, openersAfter, hscan, openersBehind_opens rfl,
        (hpaired _).openers, Nat.zero_add]
      rfl
  | other houter hscan hnode hparts hdone hloop =>
      subst hparts
      obtain ⟨hbody, hother⟩ := hnode.body_of_ifElse
      have hfirst := Node.Nested.paired hbody
      have hsecond := Node.Nested.paired fun n hn =>
        hother n (List.mem_append_left _ hn)
      rw [openersAfter_append, openersAfter, hscan, openersBehind_opens rfl,
        openersAfter_append, (hfirst _).openers, openersAfter, openersBehind_else,
          (hsecond _).openers, Nat.zero_add]
      rfl

/-- Once its next node is fetched, a scope stands past all entries of that node. -/
theorem past_node {node : Node} {rest : List Node}
    (h : Located p (scope :: scopes) openers before after)
    (hrest : scope.rest = node :: rest) :
    ∃ depth after', after = node.flatten depth ++ after' ∧
      Located p ({ scope with rest } :: scopes) openers
        (before ++ node.flatten depth) after' ∧
      (node.Nested ∨ ∃ id target, node = .plain id (.delegate target)) := by
  cases h with
  | @root _ body done _ hp hnested hparts hdone hloop =>
      rw [hrest] at hdone
      subst hdone
      have hmoved : body = (done ++ [node]) ++ rest := by rw [hparts, List.append_cons]
      have hnext : Located p [{ scope with rest }] [] (flattenAll 0 (done ++ [node]))
          (flattenAll 0 rest) := .root hp hnested hmoved rfl hloop
      rw [flattenAll_append, flattenAll_cons, flattenAll_nil, List.append_nil] at hnext
      exact ⟨0, _, rfl, hnext, .inl (hnested node (by simp [hparts]))⟩
  | @body _ next scopes openers before after depth id kind type body done _ alternative
      houter hscan hnode hparts hdone hbody hloop =>
      rw [hrest] at hdone
      subst hdone
      have hmoved : body = (done ++ [node]) ++ rest := by rw [hparts, List.append_cons]
      have hnext : Located p ({ scope with rest } :: next :: scopes) _ _ _ :=
        .body houter hscan hnode hmoved rfl hbody hloop
      rw [flattenAll_append, flattenAll_cons, flattenAll_nil, List.append_nil] at hnext
      refine ⟨depth + 1, _, List.append_assoc .., ?_,
        hnode.mem_body node (by simp [hparts])⟩
      rw [List.append_assoc, List.cons_append]
      exact hnext
  | @other _ next scopes openers before after depth id type body other done _
      houter hscan hnode hparts hdone hloop =>
      rw [hrest] at hdone
      subst hdone
      have hmoved : other = (done ++ [node]) ++ rest := by rw [hparts, List.append_cons]
      have hself := hnode.body_of_ifElse.2 node (by simp [hparts])
      have hnext : Located p ({ scope with rest } :: next :: scopes) _ _ _ :=
        .other houter hscan hnode hmoved rfl hloop
      rw [flattenAll_append, flattenAll_cons, flattenAll_nil, List.append_nil] at hnext
      refine ⟨depth + 1, _, List.append_assoc .., ?_, .inl hself⟩
      rw [List.append_assoc, List.cons_append, List.append_assoc, List.cons_append]
      exact hnext

/-- The entry at the position is the instruction to be fetched. -/
theorem entry {node : Node} {rest : List Node}
    (h : Located p (scope :: scopes) openers before after)
    (hrest : scope.rest = node :: rest) :
    ∃ depth, p[before.length]? = some ⟨.instruction, node, depth⟩ := by
  obtain ⟨depth, after', rfl, -⟩ := h.past_node hrest
  obtain ⟨level, tail, htail⟩ := node.flatten_head depth
  have hp := h.program
  rw [htail, List.cons_append] at hp
  exact ⟨level, getElem?_split hp⟩

/-- It marks no handler. -/
theorem divides_eq_false {node : Node} {rest : List Node}
    (h : Located p (scope :: scopes) openers before after)
    (hrest : scope.rest = node :: rest) (level : Nat) :
    (⟨.instruction, node, level⟩ : FlatEntry).divides = false := by
  obtain ⟨_, _, -, -, hnode⟩ := h.past_node hrest
  rcases hnode with hnode | ⟨id, target, rfl⟩
  · exact Node.divides_of_isMark hnode.isMark_eq_false level
  · rfl

/-- So the machine over the entries stays there. -/
theorem settle_eq {node : Node} {rest : List Node}
    (h : Located p (scope :: scopes) openers before after)
    (hrest : scope.rest = node :: rest) :
    p.settle before.length = before.length := by
  obtain ⟨level, hentry⟩ := h.entry hrest
  exact settle_instruction hentry (by simp) (h.divides_eq_false hrest level)

/-- Leaving a scope that has nothing left to run is no move of that machine. -/
theorem leave (h : Located p (scope :: scopes) openers before after)
    (hrest : scope.rest = []) :
    ∃ openers' before' after', Located p scopes openers' before' after' ∧
      p.settle before.length = p.settle before'.length := by
  have hp := h.program
  cases h with
  | @root _ body done _ hbody hnested hparts hdone hloop =>
      rw [hrest] at hdone
      subst hdone
      rw [List.append_nil] at hparts
      subst hparts hbody
      exact ⟨[], _, [], .finished, rfl⟩
  | @body _ next scopes openers before after depth id kind type body done _ alternative
      houter hscan hnode hparts hdone hbody hloop =>
      rw [hrest] at hdone
      subst hdone
      rw [List.append_nil] at hparts
      subst hparts
      refine ⟨openers, _, after, houter, ?_⟩
      rw [hnode.settle_closing hp, Node.flatten_eq, List.append_assoc, List.cons_append]
  | @other _ next scopes openers before after depth id type body other done _
      houter hscan hnode hparts hdone hloop =>
      rw [hrest] at hdone
      subst hdone
      rw [List.append_nil] at hparts
      subst hparts
      refine ⟨openers, _, after, houter, ?_⟩
      rw [flattenAll_nil, List.nil_append] at hp
      rw [settle_close (getElem?_split hp) rfl, Node.flatten_eq,
        Node.closing_ifElse hnode.body_of_ifElse.1]
      simp [Nat.add_assoc]

end Located

/-- The node that open scopes run next. -/
def upcoming? (scopes : List Scope) : Option Node :=
  scopes.findSome? fun scope => scope.rest.head?

/-- It is the node that the machine over the entries fetches. -/
theorem Located.fetch_eq {p : FlatProgram} {scopes : List Scope} {openers : List Nat}
    {before after : List FlatEntry} (h : Located p scopes openers before after) :
    p.fetch before.length = upcoming? scopes := by
  induction scopes generalizing openers before after with
  | nil =>
      cases h
      rw [fetch, settle_length, List.getElem?_eq_none (Nat.le_refl _)]
      rfl
  | cons scope scopes ih =>
      cases hrest : scope.rest with
      | nil =>
          obtain ⟨openers', before', after', houter, hsettle⟩ := h.leave hrest
          rw [fetch, hsettle, ← fetch, ih houter]
          simp [upcoming?, hrest]
      | cons node rest =>
          obtain ⟨level, hentry⟩ := h.entry hrest
          rw [fetch, h.settle_eq hrest, hentry]
          simp [upcoming?, hrest]

/-- Where a branch of a depth lands, given the openers around it. -/
def FlatProgram.landing (p : FlatProgram) (openers : List Nat) (depth : Nat) :
    Option Nat :=
  match openers[depth]? with
  | some q =>
    if (p[q]?).any FlatEntry.opensLoop then some (q + 1) else some (p.past (q + 1))
  | none => if depth = openers.length then some p.length else none

@[simp] theorem FlatProgram.landing_cons_succ (p : FlatProgram) (q depth : Nat)
    (openers : List Nat) : p.landing (q :: openers)
    (depth + 1) = p.landing openers depth := by
  simp [landing]

theorem FlatProgram.landing_cons_zero {p : FlatProgram} {q : Nat} {openers : List Nat}
    {e : FlatEntry} (h : p[q]? = some e) :
    p.landing (q :: openers) 0 =
      if e.opensLoop then some (q + 1) else some (p.past (q + 1)) := by
  simp [landing, h]

theorem FlatProgram.next_branch {p : FlatProgram} {pc : Nat}
    {openers : List Nat} (depth : Nat)
    (h : p.enclosing pc = openers.map fun q => ⟨q, false⟩) :
    p.next pc (.branch depth) = p.landing openers depth := by
  rw [next, landing, h, List.getElem?_map, List.length_map]
  cases openers[depth]? <;> rfl

/-- Counting from behind an opener leads past the entries of its scope. -/
theorem Node.Nested.past_eq {id : Nat} {kind : ScopeKind} {type : BlockType}
    {body : List Node} {alternative : Option (List Node)}
    {p : FlatProgram} {depth : Nat}
    {before after : List FlatEntry}
    (h : (Node.scope id kind type body alternative).Nested)
    (hp : before ++ (Node.scope id kind type body alternative).flatten
      depth ++ after = p) :
    p.past (before.length + 1) =
      (before ++ (Node.scope id kind type body alternative).flatten depth).length := by
  have hpassed : passed false 0
      (((Node.scope id kind type body alternative).flatten depth).tail ++ after) = _ :=
    ((h.shape depth).2 rfl).passed_tail
  rw [List.append_assoc] at hp
  rw [flatten_eq] at hp hpassed ⊢
  rw [List.tail_cons] at hpassed
  rw [past_split hp, List.append_eq, hpassed]
  simp only [List.length_append, List.length_cons]
  omega

namespace Located

variable {p : FlatProgram} {scopes : List Scope} {openers : List Nat}
  {before after : List FlatEntry}

/-- The entry where an open scope begins. -/
theorem opener_entry {id level : Nat} {kind : ScopeKind} {type : BlockType}
    {body : List Node} {alternative : Option (List Node)}
    (h : Located p scopes openers
      (before ++ (Node.scope id kind type body alternative).flatten level) after) :
    p[before.length]? = some ⟨.instruction, .scope id kind type body alternative,
      level⟩ := by
  have hp := h.program
  rw [Node.flatten_eq, List.append_assoc, List.cons_append] at hp
  exact getElem?_split hp

/-- A branch lands where its scope starts again or where it ends. -/
theorem target {depth : Nat} {scope : Scope} {outer : List Scope}
    (h : Located p scopes openers before after)
    (hdrop : scopes.drop depth = scope :: outer) :
    ∃ openers' before' after',
      Located p (if scope.isLoop then { scope with rest := scope.body } :: outer
        else outer) openers' before' after' ∧
      p.landing openers depth = some before'.length := by
  induction h generalizing depth with
  | finished =>
      rw [List.drop_nil] at hdrop
      cases hdrop
  | root hp hnested hparts hrest hloop =>
      cases depth with
      | zero =>
          cases hdrop
          rw [hloop]
          exact ⟨[], p, [], .finished, rfl⟩
      | succ depth =>
          rw [List.drop_succ_cons, List.drop_nil] at hdrop
          cases hdrop
  | @body _ next scopes openers before after level id kind type body done
      rest alternative
      houter hscan hnode hparts hrest hbody hloop ih =>
      cases depth with
      | succ depth =>
          rw [landing_cons_succ]
          exact ih hdrop
      | zero =>
          cases hdrop
          have hentry := houter.opener_entry
          cases hkind : kind == .loop with
          | true =>
              have hagain : Located p ({ scope with rest := scope.body } :: next ::
                  scopes) _ _ _ :=
                .body houter hscan hnode (List.nil_append _).symm hbody hbody hloop
              obtain rfl := beq_iff_eq.mp hkind
              rw [if_pos (hloop.trans hkind)]
              refine ⟨_, _, _, hagain, ?_⟩
              rw [landing_cons_zero hentry, List.length_append]
              rfl
          | false =>
              have hopens : FlatEntry.opensLoop
                  ⟨.instruction, .scope id kind type body alternative,
                    level⟩ = false := by
                cases kind <;> first | rfl | cases hkind
              have hleave : ¬ scope.isLoop = true := by simp [hloop, hkind]
              rw [if_neg hleave]
              refine ⟨_, _, _, houter, ?_⟩
              rw [landing_cons_zero hentry, hopens, hnode.past_eq houter.program]
              rfl
  | @other _ next scopes openers before after level id type body other done rest
      houter hscan hnode hparts hrest hloop ih =>
      cases depth with
      | succ depth =>
          rw [landing_cons_succ]
          exact ih hdrop
      | zero =>
          cases hdrop
          have hleave : ¬ scope.isLoop = true := by simp [hloop]
          rw [if_neg hleave]
          refine ⟨_, _, _, houter, ?_⟩
          rw [landing_cons_zero houter.opener_entry, hnode.past_eq houter.program]
          rfl

end Located

end WasmVm
