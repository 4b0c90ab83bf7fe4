/-
Lines and program points correspond one to one.  Every instruction of a function,
handlers included, has exactly one line, in the order of functions and numbers, and the
lines of instructions are the only ones that can hold a breakpoint.
-/
import Mathlib.Logic.ExistsUnique
import WasmVm.Debugger.Session
import WasmVm.Proofs.Listing.Points

namespace WasmVm

/-! ### Nodes -/

mutual

/-- The nodes inside a node in the order of their instructions: those of its body, and
then those behind its `else` or of its handlers. -/
def Node.inside : Node → List Node
  | .plain .. => []
  | .scope _ _ _ body alternative =>
    nodesOf body ++ (match alternative with
      | none => []
      | some nodes => nodesOf nodes)
termination_by structural node => node

/-- Nodes and those inside them. -/
def nodesOf : List Node → List Node
  | [] => []
  | node :: nodes => node :: (node.inside ++ nodesOf nodes)
termination_by structural nodes => nodes

end

/-- The node of an entry that is no `else` or `end`. -/
def FlatEntry.instruction? (e : FlatEntry) : Option Node :=
  if e.mark = .instruction then some e.node else none

/-- The instructions of entries, in order. -/
def instructionsOf (entries : List FlatEntry) : List Node :=
  entries.filterMap FlatEntry.instruction?

theorem instructionsOf_append (entries more : List FlatEntry) :
    instructionsOf (entries ++ more) = instructionsOf entries ++ instructionsOf more :=
  List.filterMap_append

theorem instructionsOf_instruction (node : Node) (depth : Nat)
    (entries : List FlatEntry) :
    instructionsOf (⟨.instruction, node, depth⟩ :: entries) =
      node :: instructionsOf entries :=
  rfl

/-- The mark of a scope, where it has one, is no instruction. -/
theorem instructionsOf_mark (absent : Prop) [Decidable absent] {mark : Mark}
    (hmark : mark ≠ .instruction) (node : Node) (depth : Nat) :
    instructionsOf (if absent then [] else [⟨mark, node, depth⟩]) = [] := by
  split
  · rfl
  · simp [instructionsOf, FlatEntry.instruction?, hmark]

mutual

/-- Flattening lists a node and all those inside it. -/
theorem Node.instructionsOf_flatten (depth : Nat) :
    (node : Node) → instructionsOf (node.flatten depth) = node :: node.inside
  | .plain _ _ => rfl
  | .scope id kind type body none => by
      rw [Node.flatten, instructionsOf_instruction, instructionsOf_append,
        instructionsOf_append, instructionsOf_flattenAll,
          instructionsOf_mark _ (by decide), List.append_nil]
      rfl
  | .scope id kind type body (some nodes) => by
      rw [Node.flatten, instructionsOf_instruction, instructionsOf_append,
        instructionsOf_append, instructionsOf_append, instructionsOf_flattenAll,
          instructionsOf_flattenAll,
        instructionsOf_mark _ (by decide), instructionsOf_mark _ (by decide),
          List.append_nil]
      rfl
termination_by structural node => node

theorem instructionsOf_flattenAll (depth : Nat) :
    (nodes : List Node) → instructionsOf (flattenAll depth nodes) = nodesOf nodes
  | [] => rfl
  | node :: nodes => by
      rw [flattenAll_cons, instructionsOf_append, node.instructionsOf_flatten,
        instructionsOf_flattenAll]
      rfl
termination_by structural nodes => nodes

end

mutual

/-- What a node contains is the node and those inside it. -/
theorem Node.contains_iff {n : Node} :
    (root : Node) → (root.Contains n ↔ n = root ∨ n ∈ root.inside)
  | .plain _ _ => by
      constructor
      · rintro ⟨⟩
        exact .inl rfl
      · rintro (rfl | hn)
        · exact .self
        · cases hn
  | .scope id kind type body none => by
      have hbody := exists_contains_iff (n := n) body
      constructor
      · rintro (_ | ⟨hchild, hn⟩)
        · exact .inl rfl
        · exact .inr (List.mem_append_left _ (hbody.mp ⟨_, hchild, hn⟩))
      · rintro (rfl | hn)
        · exact .self
        · obtain ⟨child, hchild, hn⟩ :=
            hbody.mpr ((List.mem_append.mp hn).resolve_right nofun)
          exact .body hchild hn
  | .scope id kind type body (some nodes) => by
      have hbody := exists_contains_iff (n := n) body
      have hnodes := exists_contains_iff (n := n) nodes
      constructor
      · rintro (_ | ⟨hchild, hn⟩ | ⟨hchild, hn⟩)
        · exact .inl rfl
        · exact .inr (List.mem_append_left _ (hbody.mp ⟨_, hchild, hn⟩))
        · exact .inr (List.mem_append_right _ (hnodes.mp ⟨_, hchild, hn⟩))
      · rintro (rfl | hn)
        · exact .self
        · rcases List.mem_append.mp hn with hn | hn
          · obtain ⟨child, hchild, hn⟩ := hbody.mpr hn
            exact .body hchild hn
          · obtain ⟨child, hchild, hn⟩ := hnodes.mpr hn
            exact .alternative hchild hn
termination_by structural root => root

theorem exists_contains_iff {n : Node} :
    (nodes : List Node) → ((∃ child ∈ nodes, child.Contains n) ↔ n ∈ nodesOf nodes)
  | [] => by
      constructor
      · rintro ⟨child, hchild, -⟩
        cases hchild
      · nofun
  | node :: nodes => by
      have hnode := node.contains_iff (n := n)
      have hnodes := exists_contains_iff (n := n) nodes
      constructor
      · rintro ⟨child, hchild, hn⟩
        rcases List.mem_cons.mp hchild with rfl | hchild
        · rcases hnode.mp hn with rfl | hn
          · exact List.mem_cons_self
          · exact List.mem_cons_of_mem _ (List.mem_append_left _ hn)
        · exact List.mem_cons_of_mem _
            (List.mem_append_right _ (hnodes.mp ⟨child, hchild, hn⟩))
      · intro hn
        rcases List.mem_cons.mp hn with hself | hn
        · exact ⟨node, List.mem_cons_self, hnode.mpr (.inl hself)⟩
        · rcases List.mem_append.mp hn with hn | hn
          · exact ⟨node, List.mem_cons_self, hnode.mpr (.inr hn)⟩
          · obtain ⟨child, hchild, hn⟩ := hnodes.mpr hn
            exact ⟨child, List.mem_cons_of_mem _ hchild, hn⟩
termination_by structural nodes => nodes

end

namespace BodyEncodes

variable {m : Module} {type : BlockType} {root : Node} {bytes : List UInt8}

/-- The entries of a body show the nodes inside its root. -/
theorem instructionsOf_entries (h : BodyEncodes m type root bytes) :
    instructionsOf root.entries = root.inside := by
  obtain ⟨items, nodes, -, -, rfl⟩ := h
  rw [Node.entries, instructionsOf_flattenAll, Node.inside, List.append_nil]
  rfl

/-- The nodes inside a body are numbered upwards from one on. -/
theorem inside_numbered (h : BodyEncodes m type root bytes) :
    (∀ n ∈ root.inside, 1 ≤ n.id) ∧ (root.inside.map Node.id).Pairwise (· < ·) := by
  rw [← h.instructionsOf_entries]
  obtain ⟨items, hlines⟩ := h.flatLines_eq
  have hnumbered := numbered_flatLines 1 [] items
  rw [← hlines] at hnumbered
  have hinstruction : ∀ (e : FlatEntry) n, e.instruction? = some n →
      e.mark = .instruction ∧ e.node = n := by
    intro e n he
    unfold FlatEntry.instruction? at he
    split at he
    · next hmark => exact ⟨hmark, Option.some.inj he⟩
    · cases he
  constructor
  · intro n hn
    obtain ⟨e, he, hnode⟩ := List.mem_filterMap.mp hn
    obtain ⟨hmark, rfl⟩ := hinstruction e n hnode
    exact hnumbered.1 e.flatLine (List.mem_map_of_mem he) hmark
  · rw [List.pairwise_map, instructionsOf, List.pairwise_filterMap]
    refine (List.pairwise_map.mp hnumbered.2).imp fun {e e'} hless n hn n' hn' => ?_
    obtain ⟨hmark, rfl⟩ := hinstruction e n hn
    obtain ⟨hmark', rfl⟩ := hinstruction e' n' hn'
    exact hless hmark hmark'

theorem mem_inside_iff (h : BodyEncodes m type root bytes) (n : Node) :
    n ∈ root.inside ↔ root.Contains n ∧ n ≠ root := by
  rw [Node.contains_iff root]
  refine ⟨fun hn => ⟨.inr hn, ?_⟩, fun ⟨hcontains, hne⟩ => hcontains.resolve_left hne⟩
  rintro rfl
  obtain ⟨hpositive, -⟩ := h.inside_numbered
  obtain ⟨items, nodes, -, -, rfl⟩ := h
  exact Nat.not_succ_le_zero 0 (hpositive _ hn)

end BodyEncodes

/-! ### Lines -/

/-- The points of a function's entries are those of its instructions. -/
theorem filterMap_point (function : Nat) (entries : List FlatEntry) :
    entries.filterMap (FlatEntry.point function) =
      (instructionsOf entries).map fun n => ⟨function, n.id⟩ := by
  rw [instructionsOf, List.map_filterMap]
  congr 1
  funext e
  unfold FlatEntry.point FlatEntry.instruction?
  split <;> rfl

/-- The points that lines show are those of the functions listed. -/
theorem mem_shownPoints_functionLines {m : Module} {codes : List Code} {turn : Nat}
    {p : ProgramPoint} :
    p ∈ shownPoints (functionLines m turn codes) ↔ ∃ i code, codes[i]? = some code ∧
      p.function = m.importedFunctions + (turn + i) ∧
      ∃ n ∈ instructionsOf code.body.entries, n.id = p.node := by
  induction codes generalizing turn with
  | nil => simp [functionLines, shownPoints]
  | cons first rest ih =>
      have hfirst : p ∈ first.body.entries.filterMap
          (FlatEntry.point (m.importedFunctions + turn)) ↔
          p.function = m.importedFunctions + turn ∧
            ∃ n ∈ instructionsOf first.body.entries, n.id = p.node := by
        rw [filterMap_point, List.mem_map]
        constructor
        · rintro ⟨n, hn, rfl⟩
          exact ⟨rfl, n, hn, rfl⟩
        · rintro ⟨hfunction, n, hn, hnode⟩
          exact ⟨n, hn, by rw [← hfunction, hnode]⟩
      rw [shownPoints_functionLines_cons, List.mem_append, hfirst, ih]
      constructor
      · rintro (⟨hfunction, hn⟩ | ⟨i, code, hcode, hfunction, hn⟩)
        · exact ⟨0, first, rfl, hfunction, hn⟩
        · exact ⟨i + 1, code, hcode, by omega, hn⟩
      · rintro ⟨_ | i, code, hcode, hfunction, hn⟩
        · cases hcode
          exact .inl ⟨hfunction, hn⟩
        · exact .inr ⟨i, code, hcode, by omega, hn⟩

theorem Module.code?_eq_some {m : Module} {function : Nat} {code : Code} :
    m.code? function = some code ↔
      ∃ i, m.codes[i]? = some code ∧ function = m.importedFunctions + i := by
  unfold code?
  split
  · next himported =>
      refine iff_of_false nofun ?_
      rintro ⟨i, -, rfl⟩
      omega
  · next hlocal =>
      constructor
      · exact fun hcode => ⟨_, hcode, by omega⟩
      · rintro ⟨i, hcode, rfl⟩
        rwa [Nat.add_sub_cancel_left]

theorem mem_shownPoints {lines : List Line} {p : ProgramPoint} :
    p ∈ shownPoints lines ↔ ∃ line : Nat, (lines[line]?).bind (·.point) = some p := by
  rw [shownPoints, List.mem_filterMap]
  constructor
  · rintro ⟨l, hl, hp⟩
    obtain ⟨line, hline⟩ := List.mem_iff_getElem?.mp hl
    exact ⟨line, by rw [hline]; exact hp⟩
  · rintro ⟨line, hline⟩
    obtain ⟨l, hl, hp⟩ := Option.bind_eq_some_iff.mp hline
    exact ⟨l, List.mem_of_getElem? hl, hp⟩

/-- Of two lines that show points, the upper one shows the earlier point. -/
theorem before_of_lt {lines : List Line}
    (hordered : (shownPoints lines).Pairwise ProgramPoint.Before) {line line' : Nat}
    {p p' : ProgramPoint} (hline : (lines[line]?).bind (·.point) = some p)
    (hline' : (lines[line']?).bind (·.point) = some p') (hlt : line < line') :
    p.Before p' := by
  obtain ⟨l, hl, hp⟩ := Option.bind_eq_some_iff.mp hline
  obtain ⟨l', hl', hp'⟩ := Option.bind_eq_some_iff.mp hline'
  obtain ⟨hin, rfl⟩ := List.getElem?_eq_some_iff.mp hl
  obtain ⟨hin', rfl⟩ := List.getElem?_eq_some_iff.mp hl'
  rw [shownPoints, List.pairwise_filterMap] at hordered
  exact List.pairwise_iff_getElem.mp hordered line line' hin hin' hlt p hp p' hp'

theorem ProgramPoint.Before.asymm {p q : ProgramPoint} (h : p.Before q) :
    ¬ q.Before p := by
  unfold Before at h ⊢
  omega

namespace Listing

variable {m : Module} {style : Style} {p p' : ProgramPoint} {line line' : Nat}

theorem point?_ofModule (m : Module) (style : Style) (line : Nat) :
    (ofModule m style).point? line =
      ((functionLines m 0 m.codes.toList)[line]?).bind (·.point) := by
  rw [point?, ofModule, List.getElem?_toArray]

/-- The lines of a decoded module show points in order, and so each point at most once.
-/
theorem point?_lt_iff (hm : m.BodiesRead) (hp : (ofModule m style).point? line = some p)
    (hp' : (ofModule m style).point? line' = some p') : line < line' ↔ p.Before p' := by
  have hordered : (shownPoints (functionLines m 0 m.codes.toList)).Pairwise
      ProgramPoint.Before := by
    refine (pairwise_functionLines (fun code hcode => ?_) 0).1
    obtain ⟨typeIndex, bytes, m₀, -, hbody⟩ :=
      hm.codes code (Array.mem_toList_iff.mp hcode)
    exact hbody.ascending
  rw [point?_ofModule] at hp hp'
  refine ⟨before_of_lt hordered hp hp', fun hbefore => ?_⟩
  rcases Nat.lt_trichotomy line line' with hless | rfl | hless
  · exact hless
  · rw [hp] at hp'
    cases hp'
    exact absurd rfl hbefore.ne
  · exact absurd (before_of_lt hordered hp' hp hless) hbefore.asymm

theorem point?_inj (hm : m.BodiesRead) (hp : (ofModule m style).point? line = some p)
    (hp' : (ofModule m style).point? line' = some p) : line = line' := by
  have hless : ¬ line < line' := fun hlt => ((point?_lt_iff hm hp hp').mp hlt).ne rfl
  have hmore : ¬ line' < line := fun hlt => ((point?_lt_iff hm hp' hp).mp hlt).ne rfl
  omega

/-- The points shown are those of the instructions of functions. -/
theorem exists_point?_iff (hm : m.BodiesRead) :
    (∃ line, (ofModule m style).point? line = some p) ↔
      ∃ code, m.code? p.function = some code ∧ ∃ n ∈ code.body.inside,
        n.id = p.node := by
  have hinside : ∀ {function code}, m.code? function = some code →
      instructionsOf code.body.entries = code.body.inside := by
    intro function code hcode
    obtain ⟨type, bytes, m₀, -, hbody⟩ := hm.read (Module.hasBody_of_code? hcode)
    exact hbody.instructionsOf_entries
  simp only [point?_ofModule]
  rw [← mem_shownPoints, mem_shownPoints_functionLines]
  constructor
  · rintro ⟨i, code, hi, hfunction, hn⟩
    rw [Nat.zero_add] at hfunction
    rw [Array.getElem?_toList] at hi
    have hcode := Module.code?_eq_some.mpr ⟨i, hi, hfunction⟩
    rw [hinside hcode] at hn
    exact ⟨code, hcode, hn⟩
  · rintro ⟨code, hcode, hn⟩
    obtain ⟨i, hi, hfunction⟩ := Module.code?_eq_some.mp hcode
    rw [← hinside hcode] at hn
    exact ⟨i, code, by rwa [Array.getElem?_toList], by rwa [Nat.zero_add], hn⟩

end Listing

/-! ### Breakpoints -/

namespace Debugger

variable {κ : Type}

/-- A debugger that may be found at some time: it is new, or breakpoints have been
flipped, or it has been told something and its controller has moved on. -/
inductive Arises (m : Module) (style : Style) : Debugger κ → Prop
  | start {k} : Arises m style (start m style k)
  | toggle {d} (h : Arises m style d) (line : Nat) : Arises m style (d.toggle line).2
  | told {d} (h : Arises m style d) (mode : PauseMode) (controller : κ) :
      Arises m style { d with mode, controller }

variable {m : Module} {style : Style} {c : Controller κ} {d : Debugger κ}

/-- Whatever is answered at a pause, the debugger is one that may be found. -/
theorem Arises.ask (h : d.Arises m style) (line : Nat) (v : View) :
    (d.ask m c line v).2.Arises m style := by
  fun_induction Debugger.ask m c line v d with
  | case1 d target controller hcommand ih =>
      exact ih ((h.toggle target).told _ controller)
  | _ => exact h.told _ _

theorem Arises.step (h : d.Arises m style) (c : Controller κ) (v : View) :
    (d.step m c v).2.Arises m style := by
  unfold Debugger.step
  split
  · split
    · exact h
    · split
      · exact h.ask _ v
      · exact h
  · exact h

/-- Only lines with a point hold breakpoints. -/
theorem Arises.breakpoints (h : d.Arises m style) :
    d.listing = .ofModule m style ∧
      ∀ line ∈ d.breakpoints, ∃ p, (Listing.ofModule m style).point? line = some p := by
  induction h with
  | start => exact ⟨rfl, fun line hline => by simp [Debugger.start] at hline⟩
  | told _ _ _ ih => exact ih
  | @toggle d _ line ih =>
      obtain ⟨hlisting, hpoints⟩ := ih
      unfold Debugger.toggle
      split
      · exact ⟨hlisting, hpoints⟩
      · next hpoint =>
          split
          · refine ⟨hlisting, fun other hother => hpoints other ?_⟩
            exact Std.TreeSet.mem_of_mem_erase hother
          · refine ⟨hlisting, fun other hother => ?_⟩
            rcases Std.TreeSet.mem_insert.mp hother with hsame | hother
            · obtain rfl := Nat.compare_eq_eq.mp hsame
              rw [hlisting, Option.isNone_iff_eq_none] at hpoint
              exact Option.ne_none_iff_exists'.mp hpoint
            · exact hpoints other hother

end Debugger

/-- Lines and program points of a decoded module correspond one to one.

The line of a point is the line that shows it.  Every node inside a function's body, in
handlers too, has a number of its own and exactly one line, and no other line shows a
point; the lines that do are in the order of functions and of numbers in them.
Whatever is done with a debugger, each of its breakpoints is on one of these lines. -/
theorem lines_correspond_to_points {fuel : Nat} {bytes : Array UInt8} {m : Module}
    (hmodule : Module.decode fuel bytes = .ok m) (style : Style) :
    (∀ p line, (Listing.ofModule m style).lineOf? p = some line ↔
      (Listing.ofModule m style).point? line = some p) ∧
    (∀ function code, m.code? function = some code →
      (code.body.inside.map Node.id).Pairwise (· < ·) ∧
      (∀ n, n ∈ code.body.inside ↔ code.body.Contains n ∧ n ≠ code.body) ∧
      ∀ n ∈ code.body.inside,
        ∃! line, (Listing.ofModule m style).point? line = some ⟨function, n.id⟩) ∧
    (∀ p line, (Listing.ofModule m style).point? line = some p →
      ∃ code, m.code? p.function = some code ∧ ∃ n ∈ code.body.inside, n.id = p.node) ∧
    (∀ p p' line line', (Listing.ofModule m style).point? line = some p →
      (Listing.ofModule m style).point? line' = some p' →
      (line < line' ↔ p.Before p')) ∧
    ∀ {κ : Type} (d : Debugger κ), d.Arises m style →
      (∀ (c : Controller κ) v, (d.step m c v).2.Arises m style) ∧
      ∀ line ∈ d.breakpoints, ∃ p, (Listing.ofModule m style).point? line = some p := by
  have hm := Module.decodeWith_bodiesRead hmodule
  refine ⟨fun p line => ?_, fun function code hcode => ?_, fun p line hp => ?_,
    fun p p' line line' hp hp' => Listing.point?_lt_iff hm hp hp',
    fun d hd => ⟨fun c v => hd.step c v, hd.breakpoints.2⟩⟩
  · rw [Listing.point?_ofModule]
    exact Listing.getElem?_indexLines (Listing.nodup_shownPoints hm) p line
  · obtain ⟨type, bytes, m₀, -, hbody⟩ := hm.read (Module.hasBody_of_code? hcode)
    refine ⟨hbody.inside_numbered.2, hbody.mem_inside_iff, fun n hn => ?_⟩
    obtain ⟨line, hline⟩ : ∃ line, (Listing.ofModule m style).point? line =
        some ⟨function, n.id⟩ := (Listing.exists_point?_iff hm).mpr
          ⟨code, hcode, n, hn, rfl⟩
    exact ⟨line, hline, fun other hother => Listing.point?_inj hm hother hline⟩
  · exact (Listing.exists_point?_iff hm).mp ⟨line, hp⟩

namespace CorrespondenceWitness

/-- A function behind an import, with a `try` whose only instructions are in its
handler. -/
def bytes : List UInt8 :=
  [0x00, 0x61, 0x73, 0x6d, 0x01, 0x00, 0x00, 0x00,
    0x01, 0x04, 0x01, 0x60, 0x00, 0x00, 0x02, 0x07, 0x01, 0x01, 0x6d, 0x01,
      0x6e, 0x00, 0x00,
    0x03, 0x02, 0x01, 0x00,
    0x0a, 0x0a, 0x01, 0x08, 0x00, 0x06, 0x40, 0x01, 0x19, 0x00, 0x0b, 0x0b]

def handled : Node :=
  .scope 1 .tryBlock .empty [] (some [.plain 3 .catchAll, .plain 4 .unreachable])

def module : Module where
  types := #[⟨[], []⟩]
  imports := #[⟨"m", "n", .function 0⟩]
  functions := #[0]
  codes := #[⟨#[], 0, .scope 0 .block (.func 0) [handled] none⟩]

theorem decode_bytes : Module.decode 0 bytes.toArray = .ok module := by
  with_unfolding_all rfl

/-- A new debugger with a breakpoint asked for on some line. -/
def debugger (line : Nat) : Debugger Unit :=
  ((Debugger.start module .plain ()).toggle line).2

/-- The instruction in the handler has its line, which takes a breakpoint, and no line
takes one that shows no instruction. -/
theorem handler_has_line :
    Module.decode 0 bytes.toArray = .ok module ∧
    (∃! line, (Listing.ofModule module .plain).point? line = some ⟨1, 4⟩) ∧
    (debugger 3).breakpoints.contains 3 ∧
    ∀ line, ∀ held ∈ (debugger line).breakpoints,
      ∃ p, (Listing.ofModule module .plain).point? held = some p := by
  obtain ⟨-, hnodes, -, -, hheld⟩ := lines_correspond_to_points decode_bytes .plain
  have hcode : module.code? 1 = some module.codes[0] := rfl
  have hinside : Node.plain 4 .unreachable ∈ module.codes[0].body.inside := by
    simp [module, handled, Node.inside, nodesOf]
  exact ⟨decode_bytes, (hnodes 1 _ hcode).2.2 _ hinside, by with_unfolding_all rfl,
    fun line => (hheld (debugger line) (Debugger.Arises.start.toggle line)).2⟩

end CorrespondenceWitness

end WasmVm
