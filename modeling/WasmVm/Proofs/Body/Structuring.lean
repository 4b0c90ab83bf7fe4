/-
Bodies are read by their grammar.  Every open scope holds a derivation that is
still to be finished, and every derivation can be placed instruction by
instruction; so reading a body succeeds on exactly the encodings of derivations
with a final `end`, and gives the nodes derived.
-/
import WasmVm.Body.Nesting
import WasmVm.Proofs.Body.Encoding
import WasmVm.Proofs.Body.Grammar

namespace WasmVm

namespace OpenScope

/-- Adds nodes where the scope now stands. -/
def pushAll (s : OpenScope) (nodes : List Node) : OpenScope :=
  nodes.foldl push s

@[simp] theorem pushAll_nil (s : OpenScope) : s.pushAll [] = s := rfl

@[simp] theorem pushAll_cons (s : OpenScope) (node : Node) (nodes : List Node) :
    s.pushAll (node :: nodes) = (s.push node).pushAll nodes := rfl

theorem pushAll_append (s : OpenScope) (nodes more : List Node) :
    s.pushAll (nodes ++ more) = (s.pushAll nodes).pushAll more :=
  List.foldl_append

@[simp] theorem id_pushAll (s : OpenScope) (nodes : List Node) :
    (s.pushAll nodes).id = s.id := by
  induction nodes generalizing s with
  | nil => rfl
  | cons node nodes ih =>
      rw [pushAll_cons, ih]
      unfold push
      split <;> rfl

/-- Adds handlers, the first node of which is a mark. -/
def pushHandlers (s : OpenScope) : List Node → OpenScope
  | [] => s
  | mark :: nodes => (s.pushHandler mark).pushAll nodes

theorem takesHandler_push {s : OpenScope} {node : Node} (h : s.takesHandler = true)
    (hnode : node.isCatchAll = false) : (s.push node).takesHandler = true := by
  rcases s with ⟨id, kind, type, body, _ | nodes⟩
  · exact h
  · simpa [takesHandler, push, hnode] using h

theorem takesHandler_pushHandler {s : OpenScope} {node : Node}
    (h : s.takesHandler = true)
    (hnode : node.isCatchAll = false) : (s.pushHandler node).takesHandler = true := by
  rcases s with ⟨id, kind, type, body, _ | nodes⟩ <;>
    simpa [takesHandler, pushHandler, hnode] using h

theorem takesHandler_pushAll {s : OpenScope} {nodes : List Node}
    (h : s.takesHandler = true)
    (hnodes : ∀ n ∈ nodes, n.isCatchAll = false) :
    (s.pushAll nodes).takesHandler = true := by
  induction nodes generalizing s with
  | nil => exact h
  | cons node nodes ih =>
      rw [List.forall_mem_cons] at hnodes
      exact ih (takesHandler_push h hnodes.1) hnodes.2

/-- Once the first handler has been seen, a mark is a node like any other. -/
theorem pushHandlers_pushAll_pushHandler (s : OpenScope) (mark : Node)
    (nodes more : List Node) :
    ((s.pushHandler mark).pushAll nodes).pushHandlers more =
      (s.pushHandler mark).pushAll (nodes ++ more) := by
  have hpush : ∀ (t : OpenScope) (node : Node), t.alternative.isSome = true →
      (t.push node).alternative.isSome = true ∧ t.pushHandler node = t.push node := by
    rintro ⟨id, kind, type, body, _ | nodes⟩ node ht
    · cases ht
    · exact ⟨rfl, rfl⟩
  have hsome : ∀ (nodes : List Node) (t : OpenScope), t.alternative.isSome = true →
      (t.pushAll nodes).alternative.isSome = true := by
    intro nodes
    induction nodes with
    | nil =>
        intro t ht
        exact ht
    | cons node nodes ih =>
        intro t ht
        exact ih _ (hpush t node ht).1
  rw [pushAll_append]
  cases more with
  | nil => rfl
  | cons node more =>
      have hhead := (hpush _ node (hsome nodes (s.pushHandler mark) rfl)).2
      rw [pushHandlers, hhead, pushAll_cons]

variable {id : Nat} {kind : ScopeKind} {type : BlockType}

theorem pushAll_body (body nodes : List Node) :
    pushAll ⟨id, kind, type, body.toArray, none⟩ nodes =
      ⟨id, kind, type, (body ++ nodes).toArray, none⟩ := by
  induction nodes generalizing body with
  | nil => simp
  | cons node nodes ih =>
      have hstep : push ⟨id, kind, type, body.toArray, none⟩ node =
          ⟨id, kind, type, (body ++ [node]).toArray, none⟩ := by
        simp [push]
      rw [pushAll_cons, hstep, ih, List.append_assoc]
      rfl

theorem pushAll_alternative (body : Array Node) (alternative nodes : List Node) :
    pushAll ⟨id, kind, type, body, some alternative.toArray⟩ nodes =
      ⟨id, kind, type, body, some (alternative ++ nodes).toArray⟩ := by
  induction nodes generalizing alternative with
  | nil => simp
  | cons node nodes ih =>
      have hstep : push ⟨id, kind, type, body, some alternative.toArray⟩ node =
          ⟨id, kind, type, body, some (alternative ++ [node]).toArray⟩ := by
        simp [push]
      rw [pushAll_cons, hstep, ih, List.append_assoc]
      rfl

/-- What an open scope has taken up, its opening instruction included. -/
inductive Holds : OpenScope → List Item → Prop
  | body {id kind type inner nodes} (hbody : Derives .instrs (id + 1) inner nodes) :
      Holds ⟨id, kind, type, nodes.toArray, none⟩ (.openScope kind type :: inner)
  | other {id type inner body other nodes} (hbody : Derives .instrs (id + 1) inner body)
      (hother : Derives .instrs (id + 1 + inner.length + 1) other nodes) :
      Holds ⟨id, .ifThen, type, body.toArray, some nodes.toArray⟩
        (.openScope .ifThen type :: (inner ++ .otherwise :: other))
  | handlers {id type inner body handlers nodes}
      (hbody : Derives .instrs (id + 1) inner body)
      (hhandlers : Derives .handlers (id + 1 + inner.length) handlers nodes)
      (hsome : handlers ≠ []) :
      Holds ⟨id, .tryBlock, type, body.toArray, some nodes.toArray⟩
        (.openScope .tryBlock type :: (inner ++ handlers))

namespace Holds

variable {s : OpenScope} {items more : List Item} {nodes : List Node}

/-- More instructions where the scope now stands. -/
theorem pushAll (h : s.Holds items)
    (hmore : Derives .instrs (s.id + items.length) more nodes) :
    (s.pushAll nodes).Holds (items ++ more) := by
  cases h with
  | @body id kind type inner front hbody =>
      have hnext : id + (Item.openScope kind type :: inner).length =
          id + 1 + inner.length := by
        rw [List.length_cons]
        omega
      rw [pushAll_body]
      exact .body (hbody.append (hmore.renumber hnext))
  | @other id type inner body other front hbody hother =>
      have hnext :
        id + (Item.openScope .ifThen type :: (inner ++ .otherwise :: other)).length =
          id + 1 + inner.length + 1 + other.length := by
        simp only [List.length_cons, List.length_append]
        omega
      rw [pushAll_alternative, List.cons_append, List.append_assoc, List.cons_append]
      exact .other hbody (hother.append (hmore.renumber hnext))
  | @handlers id type inner body handlers front hbody hhandlers hsome =>
      have hnext : id + (Item.openScope .tryBlock type :: (inner ++ handlers)).length =
          id + 1 + inner.length + handlers.length := by
        simp only [List.length_cons, List.length_append]
        omega
      rw [pushAll_alternative, List.cons_append, List.append_assoc]
      exact .handlers hbody (hhandlers.extend hsome (hmore.renumber hnext))
        (by simp [hsome])

/-- An `else` starts the other half of its `if`. -/
theorem otherwise (h : s.Holds items) (htakes : s.takesElse = true) :
    Holds { s with alternative := some #[] } (items ++ [.otherwise]) := by
  cases h with
  | @body id kind type inner front hbody =>
      obtain ⟨hkind, -⟩ := Bool.and_eq_true_iff.mp htakes
      obtain rfl := beq_iff_eq.mp hkind
      exact .other hbody .nil
  | other => simp [takesElse] at htakes
  | handlers => simp [takesElse] at htakes

/-- A mark starts a handler of its `try`. -/
theorem pushHandler {mark : Item} {node : Node} (h : s.Holds items)
    (htakes : s.takesHandler = true)
    (hmark : Derives .handlers (s.id + items.length) [mark] [node]) :
    (s.pushHandler node).Holds (items ++ [mark]) := by
  obtain ⟨hkind, hopen⟩ := Bool.and_eq_true_iff.mp htakes
  cases h with
  | @body id kind type inner front hbody =>
      obtain rfl := beq_iff_eq.mp hkind
      have hnext : id + (Item.openScope .tryBlock type :: inner).length =
          id + 1 + inner.length := by
        rw [List.length_cons]
        omega
      exact .handlers hbody (hmark.renumber hnext) (by simp)
  | other => simp at hkind
  | @handlers id type inner body handlers front hbody hhandlers hsome =>
      have hnext : id + (Item.openScope .tryBlock type :: (inner ++ handlers)).length =
          id + 1 + inner.length + handlers.length := by
        simp only [List.length_cons, List.length_append]
        omega
      have hnone : ∀ n ∈ front, n.isCatchAll = false := by simpa using hopen
      have hlonger := hhandlers.appendHandlers hnone (hmark.renumber hnext)
      have hpush : OpenScope.pushHandler ⟨id, .tryBlock, type, body.toArray,
          some front.toArray⟩ node = ⟨id, .tryBlock, type, body.toArray,
            some (front ++ [node]).toArray⟩ := by
        simp [OpenScope.pushHandler]
      rw [hpush, List.cons_append, List.append_assoc]
      exact .handlers hbody hlonger (by simp [hsome])

/-- An `end` makes the scope an instruction. -/
theorem close (h : s.Holds items) :
    Derives .instr s.id (items ++ [.close]) [s.toNode] := by
  cases h with
  | body hbody => simpa [toNode] using Derives.scope hbody
  | other hbody hother => simpa [toNode] using Derives.ifElse hbody hother
  | handlers hbody hhandlers hsome =>
      simpa [toNode] using Derives.tryCatch hbody hhandlers hsome

/-- So does a `delegate`. -/
theorem delegate {depth : Nat} (h : s.Holds items) (htakes : s.takesDelegate = true) :
    Derives .instr s.id (items ++ [.delegate depth])
      [(s.push (.plain (s.id + items.length) (.delegate depth))).toNode] := by
  cases h with
  | @body id kind type inner front hbody =>
      obtain ⟨hkind, -⟩ := Bool.and_eq_true_iff.mp htakes
      obtain rfl := beq_iff_eq.mp hkind
      have hnext : id + (Item.openScope .tryBlock type :: inner).length =
          id + 1 + inner.length := by
        rw [List.length_cons]
        omega
      have hnode : (push ⟨id, .tryBlock, type, front.toArray, none⟩
          (.plain (id + 1 + inner.length) (.delegate depth))).toNode =
            .scope id .tryBlock type
              (front ++ [.plain (id + 1 + inner.length) (.delegate depth)]) none := by
        simp [push, toNode]
      rw [hnext, hnode]
      exact .tryDelegate hbody
  | other => simp [takesDelegate] at htakes
  | handlers => simp [takesDelegate] at htakes

end Holds

end OpenScope

namespace Scopes

/-- What placing the instruction number `id` leads to, where it may stand. -/
inductive Places (id : Nat) (s : Scopes) : Item → Placed → Prop
  | nop : Places id s .nop (.more s)
  | openScope {kind type} :
      Places id s (.openScope kind type) (.more ⟨{ id, kind, type }, s.top :: s.outer⟩)
  | otherwise (htakes : s.top.takesElse = true) :
      Places id s .otherwise (.more ⟨{ s.top with alternative := some #[] }, s.outer⟩)
  | catchTag {tag} (htakes : s.top.takesHandler = true) :
      Places id s (.catchTag tag)
        (.more ⟨s.top.pushHandler (.plain id (.catchTag tag)), s.outer⟩)
  | catchAll (htakes : s.top.takesHandler = true) :
      Places id s .catchAll (.more ⟨s.top.pushHandler (.plain id .catchAll), s.outer⟩)
  | delegate {depth} (htakes : s.top.takesDelegate = true) :
      Places id s (.delegate depth) (s.push (.plain id (.delegate depth))).close
  | close : Places id s .close s.close
  | plain {instr} : Places id s (.plain instr)
      (.more ⟨s.top.push (.plain id instr), s.outer⟩)

theorem place_eq_ok {owner : String} {id offset : Nat} {s : Scopes} {item : Item}
    {placed : Placed} : s.place owner id offset item = .ok placed ↔
    s.Places id item placed := by
  constructor
  · intro h
    cases item <;> simp only [place, push] at h
    case otherwise | catchTag | catchAll | delegate =>
      split at h
      · cases h
        constructor
        assumption
      · cases h
    all_goals
      cases h
      constructor
  · intro h
    cases h <;> simp only [place, push, *, if_true]

/-- Instructions placed one after the other, the last of which completes the body. -/
inductive Completes : (id : Nat) → Scopes → List Item → Node → Prop
  | last {id s item root} (hlast : s.Places id item (.done root)) :
      Completes id s [item] root
  | next {id s s' item items root} (hfirst : s.Places id item (.more s'))
      (hrest : Completes (id + 1) s' items root) : Completes id s (item :: items) root

/-- Instructions placed one after the other, with the body still open. -/
inductive Leads : (id : Nat) → Scopes → List Item → Scopes → Prop
  | nil {id s} : Leads id s [] s
  | cons {id s s' s'' item items} (hfirst : s.Places id item (.more s'))
      (hrest : Leads (id + 1) s' items s'') : Leads id s (item :: items) s''

namespace Leads

variable {id : Nat} {s s' s'' : Scopes} {items more : List Item}

theorem single {item : Item} (h : s.Places id item (.more s')) : Leads id s [item] s' :=
  .cons h .nil

theorem append (h : Leads id s items s')
    (hmore : Leads (id + items.length) s' more s'') :
    Leads id s (items ++ more) s'' := by
  induction h with
  | nil => exact hmore
  | @cons id s mid s' item items hfirst _ ih =>
      have hnext : id + (item :: items).length = id + 1 + items.length := by
        rw [List.length_cons]
        omega
      rw [hnext] at hmore
      exact .cons hfirst (ih hmore)

theorem completes {root : Node} (h : Leads id s items s')
    (hmore : Completes (id + items.length) s' more root) :
    Completes id s (items ++ more) root := by
  induction h with
  | nil => exact hmore
  | @cons id s mid s' item items hfirst _ ih =>
      have hnext : id + (item :: items).length = id + 1 + items.length := by
        rw [List.length_cons]
        omega
      rw [hnext] at hmore
      exact .next hfirst (ih hmore)

/-- A scope from its opening instruction to its `end`. -/
theorem enclose {kind : ScopeKind} {type : BlockType} {top next : OpenScope}
    {outer : List OpenScope} {node : Node}
    (h : Leads (id + 1) ⟨{ id, kind, type }, next :: outer⟩ items ⟨top, next :: outer⟩)
    (hnode : top.toNode = node) :
    Leads id ⟨next, outer⟩ (.openScope kind type :: (items ++ [.close]))
      ⟨next.push node, outer⟩ := by
  subst hnode
  exact .cons .openScope (h.append (single .close))

end Leads

end Scopes

open Scopes

/-- What a derivation from a symbol does to the innermost scope. -/
def Symbol.Fills : Symbol → (id : Nat) → List Item → List Node → Prop
  | handlers, id, items, nodes => ∀ s outer, s.takesHandler = true →
      Leads id ⟨s, outer⟩ items ⟨s.pushHandlers nodes, outer⟩
  | _, id, items, nodes => ∀ s outer, Leads id ⟨s, outer⟩ items ⟨s.pushAll nodes, outer⟩

/-- Every derivation can be placed. -/
theorem Derives.fills {sym : Symbol} {id : Nat} {items : List Item} {nodes : List Node}
    (h : Derives sym id items nodes) : sym.Fills id items nodes := by
  induction h with
  | nop =>
      intro s outer
      exact .single .nop
  | plain =>
      intro s outer
      exact .single .plain
  | @scope id kind type inner body _ ih =>
      intro s outer
      have hinner := ih { id, kind, type } (s :: outer)
      have hnode : (OpenScope.pushAll { id, kind, type } body).toNode =
          .scope id kind type body none :=
        congrArg OpenScope.toNode (OpenScope.pushAll_body [] body)
      exact hinner.enclose hnode
  | @ifElse id type inner body other alternative _ _ ihbody ihother =>
      intro s outer
      have hbody := ihbody { id, kind := .ifThen, type } (s :: outer)
      rw [OpenScope.pushAll_body []] at hbody
      have helse : Leads (id + 1 + inner.length)
        ⟨⟨id, .ifThen, type, body.toArray, none⟩,
          s :: outer⟩ [.otherwise] ⟨⟨id, .ifThen, type, body.toArray, some #[]⟩,
            s :: outer⟩ :=
        .single (.otherwise rfl)
      have hother := ihother ⟨id, .ifThen, type, body.toArray, some #[]⟩ (s :: outer)
      have hinner := hbody.append (helse.append hother)
      have hnode : (OpenScope.pushAll ⟨id, .ifThen, type, body.toArray, some #[]⟩
          alternative).toNode = .scope id .ifThen type body (some alternative) :=
        congrArg OpenScope.toNode
          (OpenScope.pushAll_alternative body.toArray [] alternative)
      have hall := hinner.enclose hnode
      simpa using hall
  | @tryCatch id type inner body handlers alternative _ hhandlers hsome
      ihbody ihhandlers =>
      intro s outer
      have hbody := ihbody { id, kind := .tryBlock, type } (s :: outer)
      rw [OpenScope.pushAll_body []] at hbody
      have hmore := ihhandlers ⟨id, .tryBlock, type, body.toArray, none⟩
        (s :: outer) rfl
      have hnode : (OpenScope.pushHandlers ⟨id, .tryBlock, type, body.toArray, none⟩
          alternative).toNode = .scope id .tryBlock type body (some alternative) := by
        cases alternative with
        | nil => exact absurd (hhandlers.items_eq_nil rfl) hsome
        | cons mark nodes =>
            exact congrArg OpenScope.toNode
              (OpenScope.pushAll_alternative body.toArray [mark] nodes)
      have hall := (hbody.append hmore).enclose hnode
      simpa using hall
  | @tryDelegate id type inner body depth _ ih =>
      intro s outer
      have hbody := ih { id, kind := .tryBlock, type } (s :: outer)
      rw [OpenScope.pushAll_body []] at hbody
      have hend : (Scopes.push ⟨⟨id, .tryBlock, type, body.toArray, none⟩, s :: outer⟩
          (.plain (id + 1 + inner.length) (.delegate depth))).close =
            .more ⟨s.push (.scope id .tryBlock type
              (body ++ [.plain (id + 1 + inner.length) (.delegate depth)]) none),
                outer⟩ := by
        simp [Scopes.push, Scopes.close, OpenScope.push, OpenScope.toNode]
      exact .cons .openScope (hbody.append (.single (hend ▸ .delegate rfl)))
  | nil =>
      intro s outer
      exact .nil
  | @cons id first nodes rest more _ _ ihfirst ihrest =>
      intro s outer
      rw [OpenScope.pushAll_append]
      exact (ihfirst s outer).append (ihrest _ outer)
  | noHandler =>
      intro s outer _
      exact .nil
  | @catchTag id tag inner body rest more hbody _ ihbody ihrest =>
      intro s outer htakes
      have hmark := ihbody (s.pushHandler (.plain id (.catchTag tag))) outer
      have hopen : ∀ n ∈ body, n.isCatchAll = false := by
        intro n hn
        exact Node.isCatchAll_eq_false (hbody.isMark_eq_false (by decide) n hn)
      have hcatch : (s.pushHandler (.plain id (.catchTag tag))).takesHandler = true :=
        OpenScope.takesHandler_pushHandler htakes rfl
      have hmore := ihrest _ outer (OpenScope.takesHandler_pushAll hcatch hopen)
      rw [OpenScope.pushHandlers_pushAll_pushHandler] at hmore
      exact .cons (.catchTag htakes) (hmark.append hmore)
  | @catchAll id inner body _ ih =>
      intro s outer htakes
      exact .cons (.catchAll htakes) (ih _ outer)

/-- The open scopes after some instructions of a body: the body itself holds what
came before the first scope still open, and so on inwards. -/
inductive Stacked (type : BlockType) : List Item → Scopes → Prop
  | root {items nodes} (hitems : Derives .instrs 1 items nodes) :
      Stacked type items ⟨⟨0, .block, type, nodes.toArray, none⟩, []⟩
  | inner {before items next outer s} (houter : Stacked type before ⟨next, outer⟩)
      (hid : s.id = before.length + 1) (hholds : OpenScope.Holds s items) :
      Stacked type (before ++ items) ⟨s, next :: outer⟩

namespace Stacked

variable {type : BlockType} {items more : List Item} {s s' : Scopes} {item : Item}

/-- The number of the next instruction, counted from the innermost scope. -/
theorem next_id {before : List Item} {id : Nat} (hid : id = before.length + 1) :
    (before ++ items).length + 1 = id + items.length := by
  rw [List.length_append, hid]
  omega

theorem pushAll {top : OpenScope} {outer : List OpenScope} {nodes : List Node}
    (h : Stacked type items ⟨top, outer⟩)
    (hmore : Derives .instrs (items.length + 1) more nodes) :
    Stacked type (items ++ more) ⟨top.pushAll nodes, outer⟩ := by
  cases h with
  | root hitems =>
      rw [OpenScope.pushAll_body]
      exact .root (hitems.append (hmore.renumber (Nat.add_comm _ _)))
  | inner houter hid hholds =>
      rw [List.append_assoc]
      refine .inner houter ((OpenScope.id_pushAll top nodes).trans hid) ?_
      exact hholds.pushAll (hmore.renumber (next_id hid))

/-- A scope that ends becomes an instruction of the scope around it. -/
theorem close {top : OpenScope} {outer : List OpenScope} {node : Node}
    (h : Stacked type items ⟨top, outer⟩)
    (hnode : ∀ inner, top.Holds inner → (items.length + 1 = top.id + inner.length) →
      Derives .instr top.id (inner ++ [item]) [node])
    {next : OpenScope} {rest : List OpenScope} (houter : outer = next :: rest) :
    Stacked type (items ++ [item]) ⟨next.push node, rest⟩ := by
  cases h with
  | root => cases houter
  | inner hbefore hid hholds =>
      cases houter
      rw [List.append_assoc]
      exact hbefore.pushAll ((hnode _ hholds (next_id hid)).renumber hid).single

/-- An instruction that completes nothing but a scope. -/
theorem step (h : Stacked type items s)
    (hplaces : s.Places (items.length + 1) item (.more s'))
    (hitem : ∀ instr, item = .plain instr → instr.opcode.isHandler = false) :
    Stacked type (items ++ [item]) s' := by
  obtain ⟨top, outer⟩ := s
  generalize hplaced : Placed.more s' = placed at hplaces
  cases hplaces with
  | nop =>
      cases hplaced
      exact h.pushAll (Derives.single .nop)
  | plain =>
      cases hplaced
      exact h.pushAll (Derives.single (.plain (hitem _ rfl)))
  | openScope =>
      cases hplaced
      exact .inner h rfl (.body .nil)
  | otherwise htakes =>
      cases hplaced
      cases h with
      | root => cases htakes
      | inner houter hid hholds =>
          rw [List.append_assoc]
          exact .inner houter hid (hholds.otherwise htakes)
  | @catchTag tag htakes =>
      cases hplaced
      cases h with
      | root => cases htakes
      | inner houter hid hholds =>
          rw [List.append_assoc, next_id hid]
          exact .inner houter hid
            (hholds.pushHandler htakes (.catchTag .nil .noHandler))
  | catchAll htakes =>
      cases hplaced
      cases h with
      | root => cases htakes
      | inner houter hid hholds =>
          rw [List.append_assoc, next_id hid]
          exact .inner houter hid (hholds.pushHandler htakes (.catchAll .nil))
  | @delegate depth htakes =>
      cases houter : outer with
      | nil =>
          cases h with
          | root => cases htakes
          | inner => cases houter
      | cons next rest =>
          subst houter
          cases hplaced
          refine h.close (fun inner hholds hnext => ?_) rfl
          rw [hnext]
          exact hholds.delegate htakes
  | close =>
      cases houter : outer with
      | nil =>
          subst houter
          cases hplaced
      | cons next rest =>
          subst houter
          cases hplaced
          exact h.close (fun inner hholds _ => hholds.close) rfl

/-- The instruction that completes the body is its `end`. -/
theorem finish {root : Node} (h : Stacked type items s)
    (hplaces : s.Places (items.length + 1) item (.done root)) :
    item = .close ∧ ∃ nodes, Derives .instrs 1 items nodes ∧
      root = .scope 0 .block type nodes none := by
  cases h with
  | inner =>
      generalize hplaced : Placed.done root = placed at hplaces
      cases hplaces <;> cases hplaced
  | @root items nodes hitems =>
      generalize hplaced : Placed.done root = placed at hplaces
      cases hplaces with
      | delegate htakes => cases htakes
      | close =>
          cases hplaced
          exact ⟨rfl, nodes, hitems, rfl⟩
      | _ => cases hplaced

/-- Whatever completes a body is derived by the grammar. -/
theorem derives {root : Node} (h : Stacked type items s)
    (hcompletes : Completes (items.length + 1) s more root)
    (hmore : ∀ instr, Item.plain instr ∈ more → instr.opcode.isHandler = false) :
    ∃ body nodes, items ++ more = body ++ [.close] ∧ Derives .instrs 1 body nodes ∧
      root = .scope 0 .block type nodes none := by
  induction more generalizing items s with
  | nil => cases hcompletes
  | cons item more ih =>
      cases hcompletes with
      | last hlast =>
          obtain ⟨rfl, nodes, hitems, hroot⟩ := h.finish hlast
          exact ⟨items, nodes, rfl, hitems, hroot⟩
      | next hfirst hrest =>
          have hstep := h.step hfirst (fun instr hinstr =>
            hmore instr (by simp [hinstr]))
          have hlength : items.length + 1 + 1 = (items ++ [item]).length + 1 := by simp
          rw [hlength] at hrest
          have hlater := ih hstep hrest (fun instr hinstr =>
            hmore instr (by simp [hinstr]))
          rwa [List.append_assoc] at hlater

end Stacked

/-- The encodings of a body: instructions by the grammar, then the final `end`. -/
def BodyEncodes (m : Module) (type : BlockType) (root : Node) (bytes : List UInt8) :
    Prop :=
  ∃ items nodes, Derives .instrs 1 items nodes ∧
    Each (Item.Encodes m) (items ++ [.close]) bytes ∧
    root = .scope 0 .block type nodes none

namespace Reading

variable {m : Module} {owner : String}

/-- A run of the loop has placed instructions that it has read. -/
theorem completes_of_nest {fuel id : Nat} {s : Scopes} {c c' : Cursor} {root : Node}
    (h : nest m owner fuel id s c = .ok root c') :
    ∃ items bytes, Completes id s items root ∧ Each (Item.Encodes m) items bytes ∧
      bytes <+: c.rest ∧ c' = c.advance bytes.length := by
  induction fuel generalizing id s c with
  | zero => cases h
  | succ fuel ih =>
      unfold nest at h
      split at h
      · cases h
      split at h
      · cases h
      · next item after hitem =>
          obtain ⟨front, hfront, hahead, rfl⟩ := (item_reads c item after).mp hitem
          split at h
          · cases h
          · next found hplace =>
              cases h
              refine ⟨[item], front ++ [], .last (place_eq_ok.mp hplace),
                .cons hfront .nil, ?_, ?_⟩
              · rwa [List.append_nil]
              · rw [List.append_nil]
          · next s' hplace =>
              obtain ⟨items, back, hrest, heach, hback, rfl⟩ := ih h
              refine ⟨item :: items, front ++ back, .next (place_eq_ok.mp hplace) hrest,
                .cons hfront heach, Cursor.prefix_rest_append.mpr ⟨hahead, hback⟩, ?_⟩
              rw [Cursor.advance_advance, List.length_append]

/-- Instructions that complete a body are read to their last byte, given fuel for
every byte. -/
theorem nest_of_completes {fuel id : Nat} {s : Scopes} {c : Cursor} {root : Node}
    {items : List Item} {bytes : List UInt8} (h : Completes id s items root)
    (heach : Each (Item.Encodes m) items bytes) (hahead : bytes <+: c.rest)
    (hfuel : c.remaining ≤ fuel) :
    nest m owner fuel id s c = .ok root (c.advance bytes.length) := by
  induction heach generalizing fuel id s c with
  | nil => cases h
  | @cons item items front back hfront hback ih =>
      have hpos := hfront.length_pos
      obtain ⟨hahead, hrest⟩ := Cursor.prefix_rest_append.mp hahead
      have hlength := hahead.length_le
      rw [Cursor.length_rest] at hlength
      have hitem : Reading.item m owner c = .ok item (c.advance front.length) :=
        (item_reads c item _).mpr ⟨front, hfront, hahead, rfl⟩
      have hfinished : ¬ c.isFinished = true := by
        rw [Cursor.isFinished_iff]
        intro hnil
        rw [← Cursor.length_rest, hnil] at hlength
        exact Nat.not_lt.mpr hlength hpos
      have hless : (c.advance front.length).remaining + 1 ≤ fuel := by
        rw [← Cursor.length_rest, Cursor.rest_advance, List.length_drop,
          Cursor.length_rest]
        omega
      cases fuel with
      | zero => omega
      | succ fuel =>
          simp only [nest, if_neg hfinished, hitem]
          cases h with
          | last hlast =>
              cases hback
              rw [List.append_nil]
              simp only [place_eq_ok.mpr hlast]
          | next hfirst hrest' =>
              simp only [place_eq_ok.mpr hfirst]
              rw [ih hrest' hrest (by omega), Cursor.advance_advance,
                List.length_append]

/-- Reading a body accepts exactly the encodings of bodies. -/
theorem body_reads (m : Module) (owner : String) (type : BlockType) :
    Reads (body m owner type) (BodyEncodes m type) := by
  intro c root c'
  constructor
  · intro h
    obtain ⟨items, bytes, hcompletes, heach, hahead, hc⟩ := completes_of_nest h
    have hplain : ∀ instr, Item.plain instr ∈ items →
        instr.opcode.isHandler = false := by
      intro instr hinstr
      obtain ⟨front, hfront⟩ := heach.exists_of_mem _ hinstr
      exact hfront.isHandler_eq_false
    obtain ⟨body, nodes, rfl, hbody, hroot⟩ :=
      (Stacked.root .nil).derives hcompletes hplain
    exact ⟨bytes, ⟨body, nodes, hbody, heach, hroot⟩, hahead, hc⟩
  · rintro ⟨bytes, ⟨items, nodes, hitems, heach, rfl⟩, hahead, rfl⟩
    have hleads := hitems.fills { id := 0, kind := .block, type } []
    rw [OpenScope.pushAll_body []] at hleads
    exact nest_of_completes (hleads.completes (.last .close)) heach
      hahead (Nat.le_refl _)

end Reading

/-- The grammar decides which inputs are bodies.  Reading succeeds on exactly those
that begin with instructions of the grammar and an `end`; it returns the nodes
derived and stops right behind that `end`.  Every other input is refused. -/
theorem body_accepts_exactly_grammar (m : Module) (owner : String) (type : BlockType)
    (c : Cursor) :
    (∀ root c', Reading.body m owner type c = .ok root c' ↔
      ∃ bytes, BodyEncodes m type root bytes ∧ bytes <+: c.rest ∧
        c' = c.advance bytes.length) ∧
    ((∃ e c', Reading.body m owner type c = .error e c') ↔
      ¬ ∃ root bytes, BodyEncodes m type root bytes ∧ bytes <+: c.rest) := by
  have hreads := Reading.body_reads m owner type c
  refine ⟨hreads, ?_⟩
  cases hbody : Reading.body m owner type c with
  | ok root c' =>
      obtain ⟨bytes, hbytes, hahead, -⟩ := (hreads root c').mp hbody
      refine iff_of_false ?_ (fun hnone => hnone ⟨root, bytes, hbytes, hahead⟩)
      rintro ⟨e, after, ⟨⟩⟩
  | error e c' =>
      refine iff_of_true ⟨e, c', rfl⟩ ?_
      rintro ⟨root, bytes, hbytes, hahead⟩
      have hok := (hreads root _).mpr ⟨bytes, hbytes, hahead, rfl⟩
      rw [hbody] at hok
      cases hok

end WasmVm
