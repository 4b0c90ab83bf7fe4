/-
Flattening undoes nesting.  The lines of a body can be read off its instructions
in one pass that only remembers which scopes are open; flattening the tree gives
the same lines.
-/
import WasmVm.Body.Flat
import WasmVm.Proofs.Body.Structuring

namespace WasmVm

/-- The instruction that a node stands for. -/
def Node.item : Node → Item
  | plain _ (.catchTag tag) => .catchTag tag
  | plain _ .catchAll => .catchAll
  | plain _ (.delegate depth) => .delegate depth
  | plain _ instr => .plain instr
  | scope _ kind type .. => .openScope kind type

/-- One line of a body: an instruction with its number, or an `else` or `end` with
the number and the instruction of its opener. -/
structure FlatLine where
  mark : Mark
  id : Nat
  item : Item
  depth : Nat
  deriving DecidableEq

/-- What an entry shows. -/
def FlatEntry.flatLine (e : FlatEntry) : FlatLine :=
  ⟨e.mark, e.node.id, e.node.item, e.depth⟩

/-- The lines of the instructions from number `id` on.  The openers of the scopes
around them are given, the innermost first. -/
def flatLines : (id : Nat) → (openers : List (Nat × Item)) → List Item → List FlatLine
  | _, _, [] => []
  | id, openers, .nop :: items => flatLines (id + 1) openers items
  | id, openers, .plain instr :: items =>
    ⟨.instruction, id, .plain instr, openers.length⟩ :: flatLines (id + 1) openers items
  | id, openers, .openScope kind type :: items =>
    ⟨.instruction, id, .openScope kind type, openers.length⟩
      :: flatLines (id + 1) ((id, .openScope kind type) :: openers) items
  | id, opener :: openers, .otherwise :: items =>
    ⟨.otherwise, opener.1, opener.2, openers.length⟩ :: flatLines (id + 1)
      (opener :: openers) items
  | id, opener :: openers, .catchTag tag :: items =>
    ⟨.instruction, id, .catchTag tag, openers.length⟩
      :: flatLines (id + 1) (opener :: openers) items
  | id, opener :: openers, .catchAll :: items =>
    ⟨.instruction, id, .catchAll, openers.length⟩ :: flatLines (id + 1)
      (opener :: openers) items
  | id, _ :: openers, .delegate depth :: items =>
    ⟨.instruction, id, .delegate depth, openers.length⟩ :: flatLines
      (id + 1) openers items
  | id, opener :: openers, .close :: items =>
    ⟨.close, opener.1, opener.2, openers.length⟩ :: flatLines (id + 1) openers items
  -- Outside all scopes there is only the final `end`, which has no line.
  | _, [], _ => []

@[simp] theorem flattenAll_nil (depth : Nat) : flattenAll depth [] = [] := rfl

@[simp] theorem flattenAll_cons (depth : Nat) (node : Node) (nodes : List Node) :
    flattenAll depth (node :: nodes) = node.flatten depth ++
      flattenAll depth nodes := rfl

theorem flattenAll_append (depth : Nat) (nodes more : List Node) :
    flattenAll depth (nodes ++ more) = flattenAll depth nodes ++
      flattenAll depth more := by
  induction nodes with
  | nil => rfl
  | cons node nodes ih =>
      rw [List.cons_append, flattenAll_cons, ih, flattenAll_cons, List.append_assoc]

/-- A scope whose body ends with an instruction has an `end` of its own. -/
theorem Node.isDelegated_eq_false {id : Nat} {kind : ScopeKind} {type : BlockType}
    {body : List Node} {alternative : Option (List Node)}
    (hbody : ∀ n ∈ body, n.isMark = false) :
    (Node.scope id kind type body alternative).isDelegated = false := by
  unfold isDelegated
  cases hlast : (Node.scope id kind type body alternative).body.getLast? with
  | none => rfl
  | some n =>
      have hn := hbody n (List.mem_of_getLast? hlast)
      rw [Option.any_some]
      unfold isDelegate
      split
      · cases hn
      · rfl

/-- A plain instruction that is no mark stands for itself. -/
theorem Node.item_plain {id : Nat} {instr : Instr}
    (h : instr.opcode.isHandler = false) :
    (Node.plain id instr).item = .plain instr := by
  cases instr <;> first | rfl | cases h

/-- What a derivation from a symbol adds to the lines.  Handlers lie in a scope. -/
def Symbol.Lists : Symbol → (id : Nat) → List Item → List Node → Prop
  | handlers, id, items, nodes => ∀ opener openers rest,
      flatLines id (opener :: openers) (items ++ rest) =
        (flattenAll (openers.length + 1) nodes).map FlatEntry.flatLine
          ++ flatLines (id + items.length) (opener :: openers) rest
  | _, id, items, nodes => ∀ openers rest,
      flatLines id openers (items ++ rest) =
        (flattenAll openers.length nodes).map FlatEntry.flatLine
          ++ flatLines (id + items.length) openers rest

theorem Derives.lists {sym : Symbol} {id : Nat} {items : List Item} {nodes : List Node}
    (h : Derives sym id items nodes) : sym.Lists id items nodes := by
  induction h with
  | nop =>
      intro openers rest
      simp [flatLines]
  | @plain id instr hinstr =>
      intro openers rest
      simp [flatLines, Node.flatten, FlatEntry.flatLine, Node.item_plain hinstr,
        hinstr, Node.id]
  | @scope id kind type inner body hbody ih =>
      intro openers rest
      have hnone := hbody.isMark_eq_false (by decide)
      have hinner := ih ((id, .openScope kind type) :: openers) (.close :: rest)
      have hnext : id + (Item.openScope kind type :: (inner ++ [.close])).length =
          id + 1 + inner.length + 1 := by
        simp only [List.length_cons, List.length_append, List.length_nil]
        omega
      rw [hnext]
      simp [flatLines, hinner, Node.flatten, Node.isDelegated_eq_false hnone,
        FlatEntry.flatLine, Node.id, Node.item]
  | @ifElse id type inner body other alternative hbody _ ihbody ihother =>
      intro openers rest
      have hnone := hbody.isMark_eq_false (by decide)
      have hinner := ihbody ((id, .openScope .ifThen type) :: openers)
        (.otherwise :: (other ++ .close :: rest))
      have hother := ihother ((id, .openScope .ifThen type) :: openers) (.close :: rest)
      have hnext : id + (Item.openScope .ifThen type ::
          (inner ++ .otherwise :: (other ++ [.close]))).length =
          id + 1 + inner.length + 1 + other.length + 1 := by
        simp only [List.length_cons, List.length_append, List.length_nil]
        omega
      rw [hnext]
      simp [flatLines, hinner, hother, Node.flatten, Node.isDelegated_eq_false hnone,
        FlatEntry.flatLine, Node.id, Node.item]
  | @tryCatch id type inner body handlers alternative hbody _ _ ihbody ihhandlers =>
      intro openers rest
      have hnone := hbody.isMark_eq_false (by decide)
      have hinner := ihbody ((id, .openScope .tryBlock type) :: openers)
        (handlers ++ .close :: rest)
      have hhandlers := ihhandlers (id, .openScope .tryBlock type) openers
        (.close :: rest)
      have hnext : id + (Item.openScope .tryBlock type ::
          (inner ++ (handlers ++ [.close]))).length =
          id + 1 + inner.length + handlers.length + 1 := by
        simp only [List.length_cons, List.length_append, List.length_nil]
        omega
      rw [hnext]
      simp [flatLines, hinner, hhandlers, Node.flatten, Node.isDelegated_eq_false hnone,
        FlatEntry.flatLine, Node.id, Node.item]
  | @tryDelegate id type inner body depth _ ih =>
      intro openers rest
      have hinner := ih ((id, .openScope .tryBlock type) :: openers)
        (.delegate depth :: rest)
      have hnext :
        id + (Item.openScope .tryBlock type :: (inner ++ [.delegate depth])).length =
          id + 1 + inner.length + 1 := by
        simp only [List.length_cons, List.length_append, List.length_nil]
        omega
      rw [hnext]
      simp [flatLines, hinner, Node.flatten, flattenAll_append,
        Node.isDelegated, Node.body, Node.isDelegate, FlatEntry.flatLine, Node.id,
          Node.item, Instr.opcode, Opcode.isHandler]
  | nil =>
      intro openers rest
      simp
  | @cons id first nodes rest more _ _ ihfirst ihrest =>
      intro openers tail
      rw [List.append_assoc, ihfirst openers, ihrest openers, flattenAll_append,
        List.map_append, List.append_assoc, List.length_append, Nat.add_assoc]
  | noHandler =>
      intro opener openers rest
      simp
  | @catchTag id tag inner body rest more _ _ ihbody ihrest =>
      intro opener openers tail
      have hinner := ihbody (opener :: openers) (rest ++ tail)
      have hrest := ihrest opener openers tail
      have hnext : id + (Item.catchTag tag :: (inner ++ rest)).length =
          id + 1 + inner.length + rest.length := by
        simp only [List.length_cons, List.length_append]
        omega
      rw [hnext]
      simp [flatLines, hinner, hrest, Node.flatten, flattenAll_append,
        FlatEntry.flatLine, Node.id, Node.item, Instr.opcode, Opcode.isHandler]
  | @catchAll id inner body _ ih =>
      intro opener openers rest
      have hinner := ih (opener :: openers) rest
      have hnext : id + (Item.catchAll :: inner).length = id + 1 + inner.length := by
        rw [List.length_cons]
        omega
      rw [hnext]
      simp [flatLines, hinner, Node.flatten, FlatEntry.flatLine, Node.id,
        Node.item, Instr.opcode, Opcode.isHandler]

/-- Lines whose instructions are numbered upwards from `id` on. -/
def Numbered (id : Nat) (ls : List FlatLine) : Prop :=
  (∀ l ∈ ls, l.mark = .instruction → id ≤ l.id) ∧
    ls.Pairwise fun a b => a.mark = .instruction → b.mark = .instruction → a.id < b.id

namespace Numbered

variable {id : Nat} {l : FlatLine} {ls : List FlatLine}

theorem nil : Numbered id [] := by
  simp [Numbered]

theorem weaken (h : Numbered (id + 1) ls) : Numbered id ls :=
  ⟨fun l hl hmark => Nat.le_of_succ_le (h.1 l hl hmark), h.2⟩

theorem cons (hl : l.mark = .instruction → l.id = id) (h : Numbered (id + 1) ls) :
    Numbered id (l :: ls) := by
  constructor
  · rw [List.forall_mem_cons]
    exact ⟨fun hmark => Nat.le_of_eq (hl hmark).symm, h.weaken.1⟩
  · rw [List.pairwise_cons]
    refine ⟨fun l' hl' hmark hmark' => ?_, h.2⟩
    rw [hl hmark]
    exact h.1 l' hl' hmark'

end Numbered

theorem numbered_flatLines (id : Nat) (openers : List (Nat × Item))
    (items : List Item) :
    Numbered id (flatLines id openers items) := by
  fun_induction flatLines id openers items with
  | case1 | case10 => exact .nil
  | case2 _ _ _ ih => exact ih.weaken
  | case3 _ _ _ _ ih | case4 _ _ _ _ _ ih | case6 _ _ _ _ _ ih | case7 _ _ _ _ ih
  | case8 _ _ _ _ _ ih => exact .cons (fun _ => rfl) ih
  | case5 _ _ _ _ ih | case9 _ _ _ _ ih => exact .cons nofun ih

/-- Every `else` and `end` belongs to a scope whose own entry is there too, at the
same depth. -/
def Opened (entries : List FlatEntry) : Prop :=
  ∀ e ∈ entries, e.mark ≠ .instruction →
    ∃ opener ∈ entries, opener.mark = .instruction ∧ opener.node = e.node ∧
      opener.depth = e.depth

namespace Opened

variable {entries more : List FlatEntry}

theorem append (h : Opened entries) (hmore : Opened more) :
    Opened (entries ++ more) := by
  intro e he hmark
  rcases List.mem_append.mp he with he | he
  · obtain ⟨opener, hopener, hrest⟩ := h e he hmark
    exact ⟨opener, List.mem_append_left _ hopener, hrest⟩
  · obtain ⟨opener, hopener, hrest⟩ := hmore e he hmark
    exact ⟨opener, List.mem_append_right _ hopener, hrest⟩

theorem instruction (node : Node) (depth : Nat) :
    Opened [⟨.instruction, node, depth⟩] := by
  intro e he hmark
  rw [List.mem_singleton] at he
  subst he
  exact absurd rfl hmark

/-- A mark of a scope, where it has one, comes behind the scope's own entry. -/
theorem mark {node : Node} {depth : Nat} (absent : Prop)
    [Decidable absent] (mark : Mark)
    (h : Opened (⟨.instruction, node, depth⟩ :: entries)) :
    Opened (⟨.instruction, node, depth⟩ ::
      (entries ++ if absent then [] else [⟨mark, node, depth⟩])) := by
  intro e he hmark
  rw [← List.cons_append, List.mem_append] at he
  rcases he with he | he
  · obtain ⟨opener, hopener, hrest⟩ := h e he hmark
    exact ⟨opener, List.mem_append_left _ hopener, hrest⟩
  · split at he
    · cases he
    · rw [List.mem_singleton] at he
      subst he
      exact ⟨_, List.mem_cons_self, rfl, rfl, rfl⟩

end Opened

mutual

theorem Node.opened_flatten (depth : Nat) : (node : Node) → Opened (node.flatten depth)
  | .plain _ _ => .instruction _ _
  | .scope id kind type body none => by
      have hbody := (Opened.instruction (.scope id kind type body none) depth).append
        (opened_flattenAll (depth + 1) body)
      rw [Node.flatten, List.append_nil]
      exact hbody.mark _ .close
  | .scope id kind type body (some nodes) => by
      have hbody :=
        (Opened.instruction (.scope id kind type body (some nodes)) depth).append
        (opened_flattenAll (depth + 1) body)
      have hnodes := opened_flattenAll (depth + 1) nodes
      rw [Node.flatten, ← List.append_assoc]
      exact ((hbody.mark _ .otherwise).append hnodes).mark _ .close
termination_by structural node => node

theorem opened_flattenAll (depth : Nat) :
    (nodes : List Node) → Opened (flattenAll depth nodes)
  | [] => nofun
  | node :: nodes => (node.opened_flatten depth).append (opened_flattenAll depth nodes)
termination_by structural nodes => nodes

end

/-- Flattening lists the instructions read, in order and with their numbers, leaving
out only each `nop` and the final `end`.  Every entry has the depth of the scopes
around it, and every `else` and `end` belongs to the node of its own opener. -/
theorem entries_list_instructions_read {m : Module} {owner : String} {type : BlockType}
    {c c' : Cursor} {root : Node} (h : Reading.body m owner type c = .ok root c') :
    ∃ items bytes, Each (Item.Encodes m) (items ++ [.close]) bytes ∧ bytes <+: c.rest ∧
      c' = c.advance bytes.length ∧
      root.entries.map FlatEntry.flatLine = flatLines 1 [] (items ++ [.close]) ∧
      Opened root.entries ∧
      root.entries.Pairwise fun e e' =>
        e.mark = .instruction → e'.mark = .instruction → e.node.id < e'.node.id := by
  obtain ⟨bytes, ⟨items, nodes, hitems, heach, rfl⟩, hahead, hc⟩ :=
    (Reading.body_reads m owner type c root c').mp h
  have hlines : (flattenAll 0 nodes).map FlatEntry.flatLine =
      flatLines 1 [] (items ++ [.close]) := by
    have hend : flatLines (1 + items.length) [] [.close] = [] := rfl
    have hall := hitems.lists [] [.close]
    rw [hend, List.append_nil] at hall
    exact hall.symm
  refine ⟨items, bytes, heach, hahead, hc, hlines, opened_flattenAll 0 nodes, ?_⟩
  have hnumbered := (numbered_flatLines 1 [] (items ++ [.close])).2
  rw [← hlines, List.pairwise_map] at hnumbered
  exact hnumbered

namespace FlatteningWitness

/-- An `if` with an `else` around a `try` with two handlers, then a `try` that ends
with a `delegate`; there is a `nop` in the first half of the `if`. -/
def sample : Array UInt8 :=
  #[0x04, 0x40, 0x01, 0x05, 0x06, 0x40, 0x07, 0x00, 0x19, 0x0b, 0x0b, 0x06, 0x40,
    0x18, 0x00, 0x0b]

def root : Node :=
  .scope 0 .block .empty
    [.scope 1 .ifThen .empty []
      (some [.scope 4 .tryBlock .empty []
        (some [.plain 5 (.catchTag 0), .plain 6 .catchAll])]),
      .scope 9 .tryBlock .empty [.plain 10 (.delegate 0)] none] none

theorem body_sample :
    Reading.body {} "f" .empty (.ofBytes sample) = .ok root ⟨sample, 16, 0⟩ := by
  with_unfolding_all rfl

theorem entries_of_sample :
    Reading.body {} "f" .empty (.ofBytes sample) = .ok root ⟨sample, 16, 0⟩ ∧
    ∃ items bytes, Each (Item.Encodes {}) (items ++ [.close]) bytes ∧
      bytes <+: (Cursor.ofBytes sample).rest ∧
      (⟨sample, 16, 0⟩ : Cursor) = (Cursor.ofBytes sample).advance bytes.length ∧
      root.entries.map FlatEntry.flatLine = flatLines 1 [] (items ++ [.close]) ∧
      Opened root.entries ∧
      root.entries.Pairwise fun e e' =>
        e.mark = .instruction → e'.mark = .instruction → e.node.id < e'.node.id :=
  ⟨body_sample, entries_list_instructions_read body_sample⟩

end FlatteningWitness

end WasmVm
