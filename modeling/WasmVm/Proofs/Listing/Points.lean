/-
Lines and program points.  The instructions of a body are numbered upwards and
functions are listed in order, so that no two lines show the same point and the index
of a listing leads from a point to the line that shows it.
-/
import WasmVm.Listing
import WasmVm.Proofs.Control.Placement

namespace WasmVm

/-- Points in the order of a listing. -/
def ProgramPoint.Before (p q : ProgramPoint) : Prop :=
  p.function < q.function ∨ p.function = q.function ∧ p.node < q.node

theorem ProgramPoint.Before.ne {p q : ProgramPoint} (h : p.Before q) : p ≠ q := by
  rintro rfl
  rcases h with h | ⟨-, h⟩ <;> exact Nat.lt_irrefl _ h

/-- The points that lines show. -/
def shownPoints (lines : List Line) : List ProgramPoint :=
  lines.filterMap fun line => line.point

/-! ### The index -/

namespace Listing

/-- Adds the point of a line to an index. -/
def addPoint (index : Std.HashMap ProgramPoint Nat) (entry : Line × Nat) :
    Std.HashMap ProgramPoint Nat :=
  match entry.1.point with
  | some p => index.insert p entry.2
  | none => index

theorem indexLines_eq (lines : List Line) :
    indexLines lines = lines.zipIdx.foldl addPoint ∅ := rfl

/-- Lines from number `start` on, added to an index, replace what it says of their
points. -/
theorem getElem?_foldl_addPoint {lines : List Line}
    (hdistinct : (shownPoints lines).Nodup)
    (start : Nat) (index : Std.HashMap ProgramPoint Nat) (p : ProgramPoint) (n : Nat) :
    ((lines.zipIdx start).foldl addPoint index)[p]? = some n ↔
      (∃ i, n = start + i ∧ (lines[i]?).bind (·.point) = some p) ∨
        p ∉ shownPoints lines ∧ index[p]? = some n := by
  induction lines generalizing start index with
  | nil => simp [shownPoints]
  | cons line lines ih =>
      have hshift : (∃ i, n = start + i ∧
        ((line :: lines)[i]?).bind (·.point) = some p) ↔
          (n = start ∧ line.point = some p) ∨
            ∃ i, n = start + 1 + i ∧ (lines[i]?).bind (·.point) = some p := by
        constructor
        · rintro ⟨_ | i, rfl, hi⟩
          · exact .inl ⟨rfl, hi⟩
          · exact .inr ⟨i, by omega, hi⟩
        · rintro (⟨rfl, hp⟩ | ⟨i, rfl, hi⟩)
          · exact ⟨0, rfl, hp⟩
          · exact ⟨i + 1, by omega, hi⟩
      rw [List.zipIdx_cons, List.foldl_cons, hshift]
      cases hpoint : line.point with
      | none =>
          have hrest : shownPoints (line :: lines) = shownPoints lines := by
            simp [shownPoints, hpoint]
          rw [hrest] at hdistinct ⊢
          rw [ih hdistinct]
          simp [addPoint, hpoint]
      | some q =>
          have hrest : shownPoints (line :: lines) = q :: shownPoints lines := by
            simp [shownPoints, hpoint]
          rw [hrest, List.nodup_cons] at hdistinct
          rw [hrest, ih hdistinct.2]
          simp only [addPoint, hpoint, Std.HashMap.getElem?_insert,
            List.mem_cons, not_or, Option.some.injEq]
          by_cases hq : q = p
          · subst hq
            simp [hdistinct.1, @eq_comm _ start n, or_comm]
          · simp [hq, Ne.symm hq]

/-- The index leads from points to the lines that show them, if no two lines show the
same. -/
theorem getElem?_indexLines {lines : List Line} (hdistinct : (shownPoints lines).Nodup)
    (p : ProgramPoint) (n : Nat) :
    (indexLines lines)[p]? = some n ↔ (lines[n]?).bind (·.point) = some p := by
  rw [indexLines_eq, getElem?_foldl_addPoint hdistinct]
  simp

end Listing

/-! ### Functions -/

/-- Instructions are numbered upwards. -/
def Ascending (entries : List FlatEntry) : Prop :=
  entries.Pairwise fun e e' =>
    e.mark = .instruction → e'.mark = .instruction → e.node.id < e'.node.id

theorem BodyEncodes.ascending {m : Module} {type : BlockType} {root : Node}
    {bytes : List UInt8}
    (h : BodyEncodes m type root bytes) : Ascending root.entries := by
  obtain ⟨items, hlines⟩ := h.flatLines_eq
  have hnumbered := (numbered_flatLines 1 [] items).2
  rw [← hlines, List.pairwise_map] at hnumbered
  exact hnumbered

/-- The point of an entry of a function, if it has one. -/
def FlatEntry.point (function : Nat) (e : FlatEntry) : Option ProgramPoint :=
  if e.mark = .instruction then some ⟨function, e.node.id⟩ else none

theorem FlatEntry.point_eq_some {function : Nat} {e : FlatEntry} {p : ProgramPoint} :
    e.point function = some p ↔ e.mark = .instruction ∧ p = ⟨function, e.node.id⟩ := by
  unfold point
  split <;> simp_all [eq_comm]

theorem shownPoints_append (lines more : List Line) :
    shownPoints (lines ++ more) = shownPoints lines ++ shownPoints more :=
  List.filterMap_append ..

theorem shownPoints_eq_nil {lines : List Line} (h : ∀ line ∈ lines, line.point = none) :
    shownPoints lines = [] :=
  List.filterMap_eq_nil_iff.mpr h

/-- The headings of a function show no point. -/
theorem shownPoints_lines (m : Module) (function : Nat) (code : Code) :
    shownPoints (code.lines m function) =
      code.body.entries.filterMap (FlatEntry.point function) := by
  rw [Code.lines, shownPoints_append, shownPoints_eq_nil, List.nil_append, shownPoints,
    List.filterMap_map]
  · rfl
  · exact List.forall_mem_cons.mpr ⟨rfl, List.forall_mem_map.mpr fun _ _ => rfl⟩

/-- The lines of a function with a blank line in front, unless it is the first, and
those of the functions behind it. -/
theorem shownPoints_functionLines_cons (m : Module) (turn : Nat) (code : Code)
    (rest : List Code) :
    shownPoints (functionLines m turn (code :: rest)) =
      code.body.entries.filterMap (FlatEntry.point (m.importedFunctions + turn)) ++
        shownPoints (functionLines m (turn + 1) rest) := by
  rw [functionLines, shownPoints_append, ← shownPoints_lines]
  split
  · rfl
  · rfl

/-- The points of a function are in order. -/
theorem Ascending.pairwise {entries : List FlatEntry} (h : Ascending entries)
    (function : Nat) :
    (entries.filterMap (FlatEntry.point function)).Pairwise ProgramPoint.Before := by
  rw [List.pairwise_filterMap]
  refine h.imp fun {e e'} hless p hp p' hp' => ?_
  obtain ⟨hmark, rfl⟩ := FlatEntry.point_eq_some.mp hp
  obtain ⟨hmark', rfl⟩ := FlatEntry.point_eq_some.mp hp'
  exact .inr ⟨rfl, hless hmark hmark'⟩

/-- The points of functions listed one after the other are in order. -/
theorem pairwise_functionLines {m : Module} {codes : List Code}
    (h : ∀ code ∈ codes, Ascending code.body.entries) (turn : Nat) :
    (shownPoints (functionLines m turn codes)).Pairwise ProgramPoint.Before ∧
      ∀ p ∈ shownPoints (functionLines m turn codes),
        m.importedFunctions + turn ≤ p.function := by
  induction codes generalizing turn with
  | nil => exact ⟨.nil, fun p hp => absurd hp List.not_mem_nil⟩
  | cons code rest ih =>
      obtain ⟨hcode, hrest⟩ := List.forall_mem_cons.mp h
      obtain ⟨hordered, hlater⟩ := ih hrest (turn + 1)
      have hown : ∀ p ∈ code.body.entries.filterMap
          (FlatEntry.point (m.importedFunctions + turn)),
            p.function = m.importedFunctions + turn := by
        intro p hp
        obtain ⟨e, -, he⟩ := List.mem_filterMap.mp hp
        obtain ⟨-, rfl⟩ := FlatEntry.point_eq_some.mp he
        rfl
      rw [shownPoints_functionLines_cons]
      refine ⟨List.pairwise_append.mpr ⟨hcode.pairwise _, hordered,
        fun p hp q hq => .inl ?_⟩,
        fun p hp => ?_⟩
      · have hp := hown p hp
        have hq := hlater q hq
        omega
      · rcases List.mem_append.mp hp with hp | hp
        · exact Nat.le_of_eq (hown p hp).symm
        · have hp := hlater p hp
          omega

/-- The lines of a function are among those of all functions. -/
theorem mem_functionLines {m : Module} {codes : List Code} {turn i : Nat} {code : Code}
    (h : codes[i]? = some code) {line : Line}
    (hline : line ∈ code.lines m (m.importedFunctions + (turn + i))) :
    line ∈ functionLines m turn codes := by
  induction codes generalizing turn i with
  | nil => simp at h
  | cons first rest ih =>
      rw [functionLines, List.mem_append]
      cases i with
      | zero =>
          cases h
          refine .inl ?_
          split
          · exact hline
          · exact List.mem_cons_of_mem _ hline
      | succ i =>
          refine .inr (ih h ?_)
          rwa [Nat.add_assoc, Nat.add_comm 1]

namespace Listing

/-- The line that shows a program point. -/
def lineAt? (l : Listing) (p : ProgramPoint) : Option Line :=
  (l.lineOf? p).bind fun number => l.lines[number]?

/-- No two lines of a decoded module show the same point. -/
theorem nodup_shownPoints {m : Module} (hm : m.BodiesRead) :
    (shownPoints (functionLines m 0 m.codes.toList)).Nodup := by
  have hascending : ∀ code ∈ m.codes.toList, Ascending code.body.entries := by
    intro code hcode
    obtain ⟨typeIndex, bytes, m₀, -, hbody⟩ :=
      hm.codes code (Array.mem_toList_iff.mp hcode)
    exact hbody.ascending
  exact (pairwise_functionLines hascending 0).1.imp ProgramPoint.Before.ne

/-- A listing leads from the number of a function and of an instruction in it to the
line of that instruction. -/
theorem lineAt?_instruction {m : Module} (hm : m.BodiesRead) (style : Style)
    {function : Nat}
    {code : Code} (hcode : m.code? function = some code) {e : FlatEntry}
    (he : e ∈ code.body.entries) (hmark : e.mark = .instruction) :
    (ofModule m style).lineAt? ⟨function, e.node.id⟩ = some (e.line m function) := by
  unfold Module.code? at hcode
  split at hcode
  · cases hcode
  · next himported =>
    have hline : e.line m function ∈ functionLines m 0 m.codes.toList := by
      refine mem_functionLines (by rw [Array.getElem?_toList]; exact hcode) ?_
      rw [Nat.zero_add, Nat.add_sub_cancel' (Nat.not_lt.mp himported)]
      exact List.mem_append_right _ (List.mem_map_of_mem he)
    obtain ⟨number, hnumber⟩ := List.mem_iff_getElem?.mp hline
    have hpoint : (e.line m function).point = some ⟨function, e.node.id⟩ := if_pos hmark
    have hindex : (ofModule m style).lineOf? ⟨function, e.node.id⟩ = some number := by
      refine (getElem?_indexLines (nodup_shownPoints hm) _ _).mpr ?_
      rw [hnumber, Option.bind_some, hpoint]
    rw [lineAt?, hindex, Option.bind_some, ofModule, List.getElem?_toArray]
    exact hnumber

end Listing

end WasmVm
