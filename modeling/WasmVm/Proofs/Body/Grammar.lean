/-
The grammar of bodies.  A derivation pairs a stretch of instructions with the
nodes that stand for it; instructions are numbered through, so the number of the
first one fixes the numbers of all.
-/
import WasmVm.Body.Item

namespace WasmVm

/-- The symbols of the grammar. -/
inductive Symbol where
  /-- One instruction with all that it encloses. -/
  | instr
  /-- Instructions one after the other. -/
  | instrs
  /-- The handlers of a `try`: any number for tags, then at most one for the rest. -/
  | handlers
  deriving DecidableEq

/-- The derivations, for instructions numbered from `id` on. -/
inductive Derives : Symbol → (id : Nat) → List Item → List Node → Prop
  | nop {id} : Derives .instr id [.nop] []
  | plain {id instr} (hinstr : instr.opcode.isHandler = false) :
      Derives .instr id [.plain instr] [.plain id instr]
  /-- A scope of any kind, with neither an `else` nor a handler. -/
  | scope {id kind type inner body} (hbody : Derives .instrs (id + 1) inner body) :
      Derives .instr id (.openScope kind type :: (inner ++ [.close]))
        [.scope id kind type body none]
  | ifElse {id type inner body other alternative}
      (hbody : Derives .instrs (id + 1) inner body)
      (hother : Derives .instrs (id + 1 + inner.length + 1) other alternative) :
      Derives .instr id (.openScope .ifThen type ::
        (inner ++ .otherwise :: (other ++ [.close])))
          [.scope id .ifThen type body (some alternative)]
  | tryCatch {id type inner body handlers alternative}
      (hbody : Derives .instrs (id + 1) inner body)
      (hhandlers : Derives .handlers (id + 1 + inner.length) handlers alternative)
      (hsome : handlers ≠ []) :
      Derives .instr id (.openScope .tryBlock type :: (inner ++ (handlers ++ [.close])))
        [.scope id .tryBlock type body (some alternative)]
  /-- A `delegate` is the last node of its `try` and takes the place of its `end`. -/
  | tryDelegate {id type inner body depth}
      (hbody : Derives .instrs (id + 1) inner body) :
      Derives .instr id (.openScope .tryBlock type :: (inner ++ [.delegate depth]))
        [.scope id .tryBlock type
          (body ++ [.plain (id + 1 + inner.length) (.delegate depth)]) none]
  | nil {id} : Derives .instrs id [] []
  | cons {id first nodes rest more} (hfirst : Derives .instr id first nodes)
      (hrest : Derives .instrs (id + first.length) rest more) :
      Derives .instrs id (first ++ rest) (nodes ++ more)
  | noHandler {id} : Derives .handlers id [] []
  | catchTag {id tag inner body rest more} (hbody : Derives .instrs (id + 1) inner body)
      (hrest : Derives .handlers (id + 1 + inner.length) rest more) :
      Derives .handlers id (.catchTag tag :: (inner ++ rest))
        (.plain id (.catchTag tag) :: (body ++ more))
  | catchAll {id inner body} (hbody : Derives .instrs (id + 1) inner body) :
      Derives .handlers id (.catchAll :: inner) (.plain id .catchAll :: body)

/-- Whether a node stands for a `catch`, a `catch_all` or a `delegate`. -/
def Node.isMark : Node → Bool
  | plain _ instr => instr.opcode.isHandler
  | scope .. => false

theorem Node.isCatchAll_eq_false {n : Node} (h : n.isMark = false) :
    n.isCatchAll = false := by
  unfold isCatchAll
  split
  · cases h
  · rfl

namespace Derives

variable {sym : Symbol} {id id' : Nat} {items more : List Item}
  {nodes nodes' : List Node}

theorem renumber (h : Derives sym id items nodes) (hid : id = id') :
    Derives sym id' items nodes :=
  hid ▸ h

/-- One instruction as a sequence. -/
theorem single (h : Derives .instr id items nodes) :
    Derives .instrs id items nodes := by
  have hone : Derives .instrs id (items ++ []) (nodes ++ []) := .cons h .nil
  simpa using hone

/-- Sequences put one behind the other. -/
theorem append (h : Derives .instrs id items nodes)
    (hmore : Derives .instrs (id + items.length) more nodes') :
    Derives .instrs id (items ++ more) (nodes ++ nodes') := by
  generalize hsym : Symbol.instrs = sym at h
  induction h with
  | nil => exact hmore
  | @cons id first nodes rest after hfirst hrest _ ih =>
      have hnext : id + (first ++ rest).length = id + first.length + rest.length := by
        rw [List.length_append, Nat.add_assoc]
      rw [List.append_assoc, List.append_assoc]
      exact .cons hfirst (ih (hmore.renumber hnext) rfl)
  | _ => cases hsym

/-- The last handler goes on. -/
theorem extend (h : Derives .handlers id items nodes) (hsome : items ≠ [])
    (hmore : Derives .instrs (id + items.length) more nodes') :
    Derives .handlers id (items ++ more) (nodes ++ nodes') := by
  generalize hsym : Symbol.handlers = sym at h
  induction h with
  | noHandler => exact absurd rfl hsome
  | @catchTag id tag inner body rest after hbody hrest _ ih =>
      cases rest with
      | nil =>
          -- The handler that goes on is this one.
          cases hrest
          have hnext : id + (Item.catchTag tag :: (inner ++ [])).length =
              id + 1 + inner.length := by
            simp only [List.append_nil, List.length_cons]
            omega
          have hinner := hbody.append (hmore.renumber hnext)
          have hhandler : Derives .handlers id (.catchTag tag :: (inner ++ more ++ []))
              (.plain id (.catchTag tag) :: (body ++ nodes' ++ [])) :=
                .catchTag hinner .noHandler
          simpa using hhandler
      | cons item rest =>
          have hnext : id + (Item.catchTag tag :: (inner ++ item :: rest)).length =
              id + 1 + inner.length + (item :: rest).length := by
            simp only [List.length_append, List.length_cons]
            omega
          have hhandlers := ih (by simp) (hmore.renumber hnext) rfl
          have hall : Derives .handlers id
              (.catchTag tag :: (inner ++ (item :: rest ++ more)))
              (.plain id (.catchTag tag) :: (body ++ (after ++ nodes'))) :=
            .catchTag hbody hhandlers
          simpa using hall
  | @catchAll id inner body hbody _ =>
      have hnext : id + (Item.catchAll :: inner).length = id + 1 + inner.length := by
        rw [List.length_cons]
        omega
      exact catchAll (hbody.append (hmore.renumber hnext))
  | _ => cases hsym

/-- More handlers, as long as none of those before takes the rest. -/
theorem appendHandlers (h : Derives .handlers id items nodes)
    (hopen : ∀ n ∈ nodes, n.isCatchAll = false)
    (hmore : Derives .handlers (id + items.length) more nodes') :
    Derives .handlers id (items ++ more) (nodes ++ nodes') := by
  generalize hsym : Symbol.handlers = sym at h
  induction h with
  | noHandler => exact hmore
  | @catchTag id tag inner body rest after hbody hrest _ ih =>
      have hnext : id + (Item.catchTag tag :: (inner ++ rest)).length =
          id + 1 + inner.length + rest.length := by
        simp only [List.length_append, List.length_cons]
        omega
      have hlater : ∀ n ∈ after, n.isCatchAll = false := by
        intro n hn
        exact hopen n (by simp [hn])
      have hhandlers := ih hlater (hmore.renumber hnext) rfl
      have hall : Derives .handlers id (.catchTag tag :: (inner ++ (rest ++ more)))
          (.plain id (.catchTag tag) :: (body ++ (after ++ nodes'))) :=
            .catchTag hbody hhandlers
      simpa using hall
  | @catchAll id inner body hbody _ =>
      have hmark := hopen (.plain id .catchAll) (by simp)
      cases hmark
  | _ => cases hsym

/-- Handlers leave nodes, if only their marks. -/
theorem items_eq_nil (h : Derives .handlers id items nodes) (hnodes : nodes = []) :
    items = [] := by
  cases h with
  | noHandler => rfl
  | catchTag => cases hnodes
  | catchAll => cases hnodes

/-- The nodes of instructions mark no handlers; only handlers do. -/
theorem isMark_eq_false (h : Derives sym id items nodes) (hsym : sym ≠ .handlers) :
    ∀ n ∈ nodes, n.isMark = false := by
  induction h with
  | plain hinstr => simpa [Node.isMark] using hinstr
  | cons _ _ ihfirst ihrest =>
      intro n hn
      rcases List.mem_append.mp hn with hn | hn
      · exact ihfirst (by decide) n hn
      · exact ihrest (by decide) n hn
  | noHandler | catchTag | catchAll => exact absurd rfl hsym
  | _ => simp [Node.isMark]

end Derives

end WasmVm
