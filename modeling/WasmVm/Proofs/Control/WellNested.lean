/-
Well-nested trees.  The entries of a node that the grammar derives open and close
scopes in pairs, so counting passes over them as if they were not there.
-/
import WasmVm.Proofs.Body.Flattening
import WasmVm.Proofs.Control.FlatMachine

namespace WasmVm

/-- Whether a node marks a handler. -/
def Node.isCatch : Node → Bool
  | plain _ (.catchTag _) => true
  | plain _ .catchAll => true
  | _ => false

/-- Nodes of instructions with all marks in their places. -/
inductive Node.Nested : Node → Prop
  | plain {id instr} (hinstr : instr.opcode.isHandler = false) :
      Nested (.plain id instr)
  | scope {id kind type body} (hbody : ∀ n ∈ body, Nested n) :
      Nested (.scope id kind type body none)
  | ifElse {id type body other} (hbody : ∀ n ∈ body, Nested n)
      (hother : ∀ n ∈ other, Nested n) :
      Nested (.scope id .ifThen type body (some other))
  | tryCatch {id type body mark handlers} (hbody : ∀ n ∈ body, Nested n)
      (hmark : mark.isCatch = true) (hhandlers : ∀ n ∈ handlers,
        n.isCatch = false → Nested n) :
      Nested (.scope id .tryBlock type body (some (mark :: handlers)))
  | tryDelegate {id type body last depth} (hbody : ∀ n ∈ body, Nested n) :
      Nested (.scope id .tryBlock type (body ++ [.plain last (.delegate depth)]) none)

theorem Node.Nested.isMark_eq_false {n : Node} (h : n.Nested) : n.isMark = false := by
  cases h with
  | plain hinstr => exact hinstr
  | _ => rfl

theorem Node.isCatch_eq_false {n : Node} (h : n.isMark = false) :
    n.isCatch = false := by
  unfold isCatch
  split
  · cases h
  · cases h
  · rfl

/-- What the grammar derives is well nested, the marks of handlers apart. -/
theorem Derives.nested {sym : Symbol} {id : Nat} {items : List Item} {nodes : List Node}
    (h : Derives sym id items nodes) : ∀ n ∈ nodes, n.isCatch = false → n.Nested := by
  have hinner : ∀ {id items nodes}, Derives .instrs id items nodes →
      (∀ n ∈ nodes, n.isCatch = false → n.Nested) → ∀ n ∈ nodes, n.Nested := by
    intro id items nodes hderives hnodes n hn
    exact hnodes n hn
      (Node.isCatch_eq_false (hderives.isMark_eq_false (by decide) n hn))
  induction h with
  | plain hinstr =>
      intro n hn _
      obtain rfl := List.mem_singleton.mp hn
      exact .plain hinstr
  | scope hbody ih =>
      intro n hn _
      obtain rfl := List.mem_singleton.mp hn
      exact .scope (hinner hbody ih)
  | ifElse hbody hother ihbody ihother =>
      intro n hn _
      obtain rfl := List.mem_singleton.mp hn
      exact .ifElse (hinner hbody ihbody) (hinner hother ihother)
  | tryCatch hbody hhandlers hsome ihbody ihhandlers =>
      intro n hn _
      obtain rfl := List.mem_singleton.mp hn
      cases hhandlers with
      | noHandler => exact absurd rfl hsome
      | catchTag =>
          exact .tryCatch (hinner hbody ihbody) rfl fun n hn =>
            ihhandlers n (.tail _ hn)
      | catchAll =>
          exact .tryCatch (hinner hbody ihbody) rfl fun n hn =>
            ihhandlers n (.tail _ hn)
  | tryDelegate hbody ih =>
      intro n hn _
      obtain rfl := List.mem_singleton.mp hn
      exact .tryDelegate (hinner hbody ih)
  | cons _ _ ihfirst ihrest =>
      intro n hn
      rcases List.mem_append.mp hn with hn | hn
      · exact ihfirst n hn
      · exact ihrest n hn
  | catchTag _ _ ihbody ihrest =>
      intro n hn hcatch
      rcases List.mem_cons.mp hn with rfl | hn
      · cases hcatch
      rcases List.mem_append.mp hn with hn | hn
      · exact ihbody n hn hcatch
      · exact ihrest n hn hcatch
  | catchAll _ ih =>
      intro n hn hcatch
      rcases List.mem_cons.mp hn with rfl | hn
      · cases hcatch
      · exact ih n hn hcatch
  | nop | nil | noHandler => simp

open FlatProgram

theorem FlatProgram.openersAfter_append (position : Nat) (openers : List Opener)
    (entries more : List FlatEntry) :
    openersAfter position openers (entries ++ more) =
      openersAfter (position + entries.length)
        (openersAfter position openers entries) more := by
  induction entries generalizing position openers with
  | nil => rfl
  | cons e entries ih =>
      rw [List.cons_append, openersAfter, ih, openersAfter, List.length_cons]
      congr 1
      omega

/-- Entries that lie in one scope: scanning them keeps to that scope, unless it looks
for an `else` of it. -/
structure Inside (entries : List FlatEntry) : Prop where
  passed : ∀ atElse level rest, (atElse = true → 0 < level) →
    passed atElse level (entries ++ rest) = entries.length + passed atElse level rest
  openers : ∀ position opener openers, ∃ opener',
    openersAfter position (opener :: openers) entries = opener' :: openers

/-- Entries that open and close scopes in pairs: scanning them changes nothing. -/
structure Paired (entries : List FlatEntry) : Prop where
  passed : ∀ atElse level rest,
    passed atElse level (entries ++ rest) = entries.length + passed atElse level rest
  openers : ∀ position openers, openersAfter position openers entries = openers

theorem Paired.inside {entries : List FlatEntry} (h : Paired entries) :
    Inside entries where
  passed atElse level rest _ := h.passed atElse level rest
  openers position opener openers := ⟨opener, h.openers position (opener :: openers)⟩

theorem Paired.nil : Paired [] where
  passed atElse level rest := by simp
  openers _ _ := rfl

theorem Paired.append {entries more : List FlatEntry} (h : Paired entries)
    (hmore : Paired more) :
    Paired (entries ++ more) where
  passed atElse level rest := by
    rw [List.append_assoc, h.passed, hmore.passed, List.length_append, Nat.add_assoc]
  openers position openers := by
    rw [openersAfter_append, h.openers, hmore.openers]

theorem Inside.append {entries more : List FlatEntry} (h : Inside entries)
    (hmore : Inside more) :
    Inside (entries ++ more) where
  passed atElse level rest hlevel := by
    rw [List.append_assoc, h.passed _ _ _ hlevel, hmore.passed _ _ _ hlevel,
      List.length_append, Nat.add_assoc]
  openers position opener openers := by
    obtain ⟨opener', hopener⟩ := h.openers position opener openers
    rw [openersAfter_append, hopener]
    exact hmore.openers _ opener' openers

/-- An entry that neither opens nor closes a scope. -/
theorem Inside.single {e : FlatEntry} (hopens : e.opens = false)
    (hcloses : e.closes = false) :
    Inside [e] where
  passed atElse level rest hlevel := by
    have hstop : (atElse && level == 0 && e.mark == .otherwise) = false := by
      cases atElse with
      | false => rfl
      | true =>
          have hpos := hlevel rfl
          simp [Nat.ne_of_gt hpos]
    simp [FlatProgram.passed, hopens, hcloses, hstop, Nat.add_comm]
  openers position opener openers := by
    by_cases hcatch : e.isCatch = true
    · exact ⟨{ opener with inHandler := true }, by
        simp [openersAfter, openersBehind, hopens, hcloses, hcatch]⟩
    · exact ⟨opener, by simp [openersAfter, openersBehind, hopens, hcloses, hcatch]⟩

/-- An entry that has nothing to do with scopes. -/
theorem Paired.single {e : FlatEntry} (hopens : e.opens = false)
    (hcloses : e.closes = false) (hdivides : e.divides = false) : Paired [e] where
  passed atElse level rest := by
    obtain ⟨hmark, -⟩ := Bool.or_eq_false_iff.mp hdivides
    simp [FlatProgram.passed, hopens, hcloses, hmark, Nat.add_comm]
  openers position openers := by
    obtain ⟨-, hcatch⟩ := Bool.or_eq_false_iff.mp hdivides
    simp [openersAfter, openersBehind, hopens, hcloses, hcatch]

/-- A scope from its opener to its end. -/
theorem Paired.enclose {first last : FlatEntry} {entries : List FlatEntry}
    (hfirst : first.opens = true) (hlast : last.closes = true)
    (hlast' : last.opens = false)
    (h : Inside entries) : Paired (first :: (entries ++ [last])) where
  passed atElse level rest := by
    have hinner := h.passed atElse (level + 1) (last :: rest)
      (fun _ => Nat.succ_pos level)
    rw [passed_closes_succ hlast' hlast] at hinner
    rw [List.cons_append, List.append_assoc, List.singleton_append,
      passed_opens hfirst, hinner, List.length_cons, List.length_append,
        List.length_singleton]
    omega
  openers position openers := by
    obtain ⟨opener', hopener⟩ := h.openers (position + 1) ⟨position, false⟩ openers
    rw [openersAfter, openersBehind_opens hfirst, openersAfter_append,
      hopener, openersAfter, openersBehind_closes hlast' hlast]
    rfl

theorem Paired.flattenAll {nodes : List Node} {depth : Nat}
    (h : ∀ n ∈ nodes, Paired (n.flatten depth)) : Paired (flattenAll depth nodes) := by
  induction nodes with
  | nil => exact .nil
  | cons node nodes ih =>
      rw [List.forall_mem_cons] at h
      exact h.1.append (ih h.2)

theorem Inside.flattenAll {nodes : List Node} {depth : Nat}
    (h : ∀ n ∈ nodes, Inside (n.flatten depth)) : Inside (flattenAll depth nodes) := by
  induction nodes with
  | nil => exact Paired.nil.inside
  | cons node nodes ih =>
      rw [List.forall_mem_cons] at h
      exact h.1.append (ih h.2)

/-- The mark of a handler lies in its `try`. -/
theorem Node.isCatch.inside {n : Node} (h : n.isCatch = true) (depth : Nat) :
    Inside (n.flatten depth) := by
  unfold Node.isCatch at h
  split at h
  · exact .single rfl rfl
  · exact .single rfl rfl
  · cases h

/-- The entries of a scope behind those of its body: the other half or the handlers,
and the `end`. -/
def Node.closing (depth : Nat) (node : Node) : List FlatEntry :=
  match node with
  | plain .. => []
  | scope _ kind _ _ alternative =>
    (match alternative with
      | none => []
      | some nodes =>
        (if kind = .tryBlock then [] else [⟨.otherwise, node, depth⟩])
          ++ flattenAll (depth + 1) nodes)
      ++ if node.isDelegated then [] else [⟨.close, node, depth⟩]

theorem Node.flatten_eq (id : Nat) (kind : ScopeKind) (type : BlockType)
    (body : List Node) (alternative : Option (List Node)) (depth : Nat) :
    (scope id kind type body alternative).flatten depth =
      ⟨.instruction, scope id kind type body alternative, depth⟩ ::
        (flattenAll (depth + 1) body
          ++ (scope id kind type body alternative).closing depth) := by
  cases alternative <;> simp [Node.flatten, closing]

section Closing

variable {id : Nat} {type : BlockType} {body other : List Node} {depth : Nat}

theorem Node.closing_scope {kind : ScopeKind} (hbody : ∀ n ∈ body, n.Nested) :
    (scope id kind type body none).closing depth =
      [⟨.close, scope id kind type body none, depth⟩] := by
  have hend : (scope id kind type body none).isDelegated = false :=
    isDelegated_eq_false fun n hn => (hbody n hn).isMark_eq_false
  simp [closing, hend]

theorem Node.closing_ifElse (hbody : ∀ n ∈ body, n.Nested) :
    (scope id .ifThen type body (some other)).closing depth =
      (⟨.otherwise, scope id .ifThen type body (some other), depth⟩ ::
          flattenAll (depth + 1) other)
        ++ [⟨.close, scope id .ifThen type body (some other), depth⟩] := by
  have hend : (scope id .ifThen type body (some other)).isDelegated = false :=
    isDelegated_eq_false fun n hn => (hbody n hn).isMark_eq_false
  simp [closing, hend]

theorem Node.closing_tryCatch (hbody : ∀ n ∈ body, n.Nested) :
    (scope id .tryBlock type body (some other)).closing depth =
      flattenAll (depth + 1) other
        ++ [⟨.close, scope id .tryBlock type body (some other), depth⟩] := by
  have hend : (scope id .tryBlock type body (some other)).isDelegated = false :=
    isDelegated_eq_false fun n hn => (hbody n hn).isMark_eq_false
  simp [closing, hend]

theorem Node.closing_tryDelegate {last target : Nat} :
    (scope id .tryBlock type (body ++ [.plain last (.delegate target)])
      none).closing depth =
      [] := by
  simp [closing, isDelegated, Node.body, isDelegate]

end Closing

/-- The entries of a scope: its opener, what lies inside, and its last entry. -/
inductive Enclosed (node : Node) (depth : Nat) : List FlatEntry → Prop
  | mk {inner last} (hinner : Inside inner) (hcloses : last.closes = true)
      (hopens : last.opens = false) :
      Enclosed node depth (⟨.instruction, node, depth⟩ :: (inner ++ [last]))

theorem Enclosed.paired {id : Nat} {kind : ScopeKind} {type : BlockType}
    {body : List Node} {alternative : Option (List Node)} {depth : Nat}
    {entries : List FlatEntry} (h : Enclosed (.scope id kind type body alternative)
      depth entries) : Paired entries := by
  obtain ⟨hinner, hcloses, hopens⟩ := h
  exact .enclose rfl hcloses hopens hinner

/-- Counting from behind an opener ends with the last entry of its scope. -/
theorem Enclosed.passed_tail {node : Node} {depth : Nat} {entries rest : List FlatEntry}
    (h : Enclosed node depth entries) :
    passed false 0 (entries.tail ++ rest) = entries.tail.length := by
  obtain ⟨hinner, hcloses, hopens⟩ := h
  rw [List.tail_cons, List.append_assoc, hinner.passed _ _ _ (by simp),
    List.singleton_append, passed_closes_zero hopens hcloses, List.length_append]
  rfl

/-- Whether a node is a scope. -/
def Node.isScope : Node → Bool
  | plain .. => false
  | scope .. => true

theorem Node.Nested.shape {n : Node} (h : n.Nested) (depth : Nat) :
    Paired (n.flatten depth) ∧
    (n.isScope = true → Enclosed n depth (n.flatten depth)) := by
  induction h generalizing depth with
  | @plain id instr hinstr =>
      refine ⟨?_, nofun⟩
      rw [Node.flatten]
      apply Paired.single <;> cases instr <;> first | rfl | cases hinstr
  | @scope id kind type body hbody ih =>
      have hinner := (Paired.flattenAll fun n hn => (ih n hn (depth + 1)).1).inside
      have hall : Enclosed (.scope id kind type body none) depth
          ((Node.scope id kind type body none).flatten depth) := by
        rw [flatten_eq, closing_scope hbody]
        exact .mk hinner rfl rfl
      exact ⟨hall.paired, fun _ => hall⟩
  | @ifElse id type body other hbody hother ihbody ihother =>
      have hfirst := (Paired.flattenAll fun n hn => (ihbody n hn (depth + 1)).1).inside
      have hsecond :=
        (Paired.flattenAll fun n hn => (ihother n hn (depth + 1)).1).inside
      have hmark :
          Inside [⟨.otherwise, .scope id .ifThen type body (some other), depth⟩] :=
        .single rfl rfl
      have hall : Enclosed (.scope id .ifThen type body (some other)) depth
          ((Node.scope id .ifThen type body (some other)).flatten depth) := by
        rw [flatten_eq, closing_ifElse hbody, ← List.append_assoc]
        exact .mk (hfirst.append (hmark.append hsecond)) rfl rfl
      exact ⟨hall.paired, fun _ => hall⟩
  | @tryCatch id type body mark handlers hbody hmark hhandlers ihbody ihhandlers =>
      have hfirst := (Paired.flattenAll fun n hn => (ihbody n hn (depth + 1)).1).inside
      have hmarks : ∀ n ∈ mark :: handlers, Inside (n.flatten (depth + 1)) := by
        intro n hn
        by_cases hcatch : n.isCatch = true
        · exact Node.isCatch.inside hcatch _
        · rcases List.mem_cons.mp hn with rfl | hn
          · exact absurd hmark hcatch
          · exact (ihhandlers n hn (Bool.eq_false_iff.mpr hcatch) (depth + 1)).1.inside
      have hall :
          Enclosed (.scope id .tryBlock type body (some (mark :: handlers))) depth
            ((Node.scope id .tryBlock type body (some (mark :: handlers))).flatten
              depth) := by
        rw [flatten_eq, closing_tryCatch hbody, ← List.append_assoc]
        exact .mk (hfirst.append (Inside.flattenAll hmarks)) rfl rfl
      exact ⟨hall.paired, fun _ => hall⟩
  | @tryDelegate id type body last target hbody ih =>
      have hinner := (Paired.flattenAll fun n hn => (ih n hn (depth + 1)).1).inside
      have hall : Enclosed
          (.scope id .tryBlock type (body ++ [.plain last (.delegate target)]) none)
          depth
          ((Node.scope id .tryBlock type (body ++ [.plain last (.delegate target)])
            none).flatten depth) := by
        rw [flatten_eq, closing_tryDelegate, flattenAll_append, List.append_nil]
        exact .mk hinner rfl rfl
      exact ⟨hall.paired, fun _ => hall⟩

/-- Nodes open and close scopes in pairs. -/
theorem Node.Nested.paired {nodes : List Node}
    (h : ∀ n ∈ nodes, n.Nested) (depth : Nat) :
    Paired (flattenAll depth nodes) :=
  .flattenAll fun n hn => ((h n hn).shape depth).1

end WasmVm
