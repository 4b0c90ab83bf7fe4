/-
Decoding ends.  All that a decoder can wait for is the value of an offset, and a
constant expression without loops always has one or fails.  So a binary that is never
done with has the offset of a data segment that loops.
-/
import WasmVm.Proofs.Control.Termination
import WasmVm.Proofs.Decoding.Constants
import WasmVm.Proofs.Decoding.Questions
import WasmVm.Proofs.Decoding.Safety

namespace WasmVm

open Leb128

/-! ### The module made for an expression -/

namespace ConstExpr

theorem subsection_encodeSection {id id' : UInt8} {contents tail : List UInt8}
    {c c' inner : Cursor} (hc : c.rest = encodeSection id contents ++ tail)
    (h : Names.subsection c = .ok (id', inner) c') : id' = id ∧ c'.rest = tail := by
  obtain ⟨first, c₁, hfirst, hrest⟩ := EStateM.bind_eq_ok h
  obtain ⟨_, rfl, hahead, rfl⟩ := (Reading.byte_reads c first c₁).mp hfirst
  obtain ⟨size, c₂, hsize, hwindow⟩ := EStateM.bind_eq_ok hrest
  obtain ⟨sizeBytes, hsizeBytes, haheadSize, rfl⟩ :=
    (Reading.u32_reads _ size c₂).mp hsize
  obtain ⟨window, c₃, hcontents, hpair⟩ := EStateM.bind_eq_ok hwindow
  cases hpair
  obtain ⟨base, c₄, hoffset, hbytes⟩ := EStateM.bind_eq_ok hcontents
  cases hoffset
  obtain ⟨taken, c₅, htaken, hdone⟩ := EStateM.bind_eq_ok hbytes
  cases hdone
  rw [hc] at hahead
  obtain ⟨rfl, -⟩ := List.cons_prefix_cons.mp hahead
  have hafter : (c.advance 1).rest = encode contents.length ++ (contents ++ tail) := by
    rw [Cursor.rest_advance, hc]
    simp [encodeSection]
  rw [List.length_singleton, hafter] at haheadSize
  obtain ⟨hgroup, hvalue⟩ := encode_isGroup contents.length
  obtain rfl : sizeBytes = encode contents.length :=
    hsizeBytes.1.unique hgroup haheadSize (List.prefix_append _ _)
  obtain rfl : contents.length = size := hvalue.symm.trans hsizeBytes.2.2.1
  refine ⟨rfl, ?_⟩
  rw [Reading.bytes_eq_ok htaken, List.length_singleton, Cursor.rest_advance,
    Cursor.rest_advance, hafter, List.drop_left, List.drop_left]

/-- Sections are found under the numbers that they were made with. -/
theorem mem_of_sectionIds (sections : List (UInt8 × List UInt8))
    {fuel : Nat} {c : Cursor}
    (hc : c.rest = (sections.map fun s => encodeSection s.1 s.2).flatten) :
    ∀ id ∈ Decoding.sectionIds fuel c, id ∈ sections.map (·.1) := by
  induction fuel generalizing sections c with
  | zero => exact List.forall_mem_nil _
  | succ fuel ih =>
      rw [Decoding.sectionIds]
      cases sections with
      | nil =>
          rw [if_pos (Cursor.isFinished_iff.mpr hc)]
          exact List.forall_mem_nil _
      | cons first sections =>
          by_cases hfinished : c.isFinished = true
          · rw [if_pos hfinished]
            exact List.forall_mem_nil _
          rw [if_neg hfinished]
          cases hsection : Names.subsection c with
          | error e after => exact List.forall_mem_nil _
          | ok found after =>
              obtain ⟨hid, hafter⟩ := subsection_encodeSection hc hsection
              refine List.forall_mem_cons.mpr ⟨hid ▸ List.mem_cons_self,
                fun id hmem => ?_⟩
              exact List.mem_cons_of_mem _ (ih sections hafter id hmem)

/-- The module made for an expression has signatures, functions and code, and no more.
-/
theorem mem_of_sectionIds_wrap (expr : List UInt8) :
    ∀ id ∈ Module.sectionIds (wrap expr).toArray, id ∈ [1, 3, 10] := by
  refine mem_of_sectionIds [(1, [1, 0x60, 0, 0]), (3, [1, 0]),
    (10, 1 :: (encode (0 :: expr).length ++ (0 :: expr)))] ?_
  rw [Cursor.rest_advance]
  simp [Cursor.ofBytes, Cursor.rest, wrap]

theorem decode_ne_outOfFuel (expr : List UInt8) : decode expr ≠ .error .outOfFuel := by
  intro hwaits
  have hdata := mem_of_sectionIds_wrap expr 11 (Module.mem_sectionIds_of_waits hwaits)
  simp at hdata

theorem globals_of_decode {expr : List UInt8} {m : Module} (h : decode expr = .ok m) :
    m.globals = #[] := by
  refine (Module.decodeWith_induction (I := fun ids m => (∀ id ∈ ids, id ∈ [1, 3, 10]) ∧
    m.globals = #[]) h ⟨mem_of_sectionIds_wrap expr, rfl⟩ fun {id _ _ _} hm hsection =>
      ?_).1.2
  obtain ⟨hid, hids⟩ := List.forall_mem_cons.mp hm.1
  have hother : id ≠ 6 := by
    rintro rfl
    simp at hid
  exact ⟨hids, (hsection.grows.globals hother).trans hm.2⟩

/-! ### Evaluation -/

/-- The first value of those that a run leaves. -/
def firstValue : Except Halt (List Value) → Except Halt Value
  | .error h => .error h
  | .ok [] => .error (.error (.trap .noConstant none))
  | .ok (v :: _) => .ok v

theorem firstValue_eq_outOfFuel {r : Except Halt (List Value)} :
    firstValue r = .error .outOfFuel ↔ r = .error .outOfFuel := by
  match r with
  | .error h => simp [firstValue]
  | .ok [] => simp [firstValue]
  | .ok (_ :: _) => simp [firstValue]

theorem evaluate_of_decode {expr : List UInt8} {m : Module} (h : decode expr = .ok m)
    (fuel : Nat) : evaluate fuel expr =
      firstValue ((env m).evaluate fuel ⟨.ofModule m, (), ()⟩ 0).1 := by
  unfold evaluate
  rw [h]
  dsimp only
  rcases (env m).evaluate fuel ⟨.ofModule m, (), ()⟩ 0 with ⟨_ | _ | _, _⟩ <;> rfl

theorem evaluate_of_error {expr : List UInt8} {h : Halt}
    (hdecode : decode expr = .error h)
    (fuel : Nat) : evaluate fuel expr = .error h := by
  unfold evaluate
  rw [hdecode]

/-- What an expression comes to does not change with more fuel. -/
theorem evaluate_eq_of_le {fuel fuel' : Nat} {expr : List UInt8}
    (hends : evaluate fuel expr ≠ .error .outOfFuel) (hle : fuel ≤ fuel') :
    evaluate fuel' expr = evaluate fuel expr := by
  cases hdecode : decode expr with
  | error h => rw [evaluate_of_error hdecode, evaluate_of_error hdecode]
  | ok m =>
      rw [evaluate_of_decode hdecode, Ne, firstValue_eq_outOfFuel] at hends
      rw [evaluate_of_decode hdecode, evaluate_of_decode hdecode,
        Env.evaluate_eq_of_le hends hle]

/-- An expression that runs without end, in a loop. -/
structure Endless (expr : List UInt8) : Prop where
  runs : ∀ fuel, evaluate fuel expr = .error .outOfFuel
  loops : ∃ m, decode expr = .ok m ∧ ∃ code ∈ m.codes, ¬ code.body.LoopFree

theorem endless_of_runs {expr : List UInt8}
    (hruns : ∀ fuel, evaluate fuel expr = .error .outOfFuel) : Endless expr := by
  refine ⟨hruns, ?_⟩
  cases hdecode : decode expr with
  | error h =>
      have hzero := hruns 0
      rw [evaluate_of_error hdecode] at hzero
      cases hzero
      exact absurd hdecode (decode_ne_outOfFuel expr)
  | ok m =>
      refine ⟨m, rfl, Classical.byContradiction fun hnone => ?_⟩
      have hm : m.LoopFree := by
        refine ⟨fun code hcode => ?_, fun g hg => ?_⟩
        · exact Classical.not_not.mp fun hloops => hnone ⟨code, hcode, hloops⟩
        · rw [globals_of_decode hdecode] at hg
          exact absurd hg (Array.not_mem_empty g)
      obtain ⟨fuel, hends⟩ := (env m).exists_evaluate_ne_outOfFuel hm
        ⟨.ofModule m, (), ()⟩ 0
      have hrun := hruns fuel
      rw [evaluate_of_decode hdecode, firstValue_eq_outOfFuel] at hrun
      exact hends hrun

end ConstExpr

/-! ### Decoding -/

/-- With enough fuel a computation comes to a result. -/
def ComesTo {α : Type} (x : Nat → Except Halt α) (result : Except Error α) : Prop :=
  ∃ bound, ∀ fuel, bound ≤ fuel → x fuel = result.mapError .error

/-- An evaluator with another answer for one expression. -/
def answering (expr : List UInt8) (answer : Except Halt Value) (evaluate : Evaluator) :
    Evaluator :=
  fun other => if other = expr then answer else evaluate other

/-- Decoding gets to the offset of a segment, and no further: it never ends, and it
would fail for the segment if the evaluation failed. -/
structure Module.WaitsFor (bytes : Array UInt8) (segment : Nat) (expr : List UInt8) :
    Prop where
  waits : ∀ fuel, Module.decode fuel bytes = .error .outOfFuel
  fails : ∃ bound, ∀ fuel, bound ≤ fuel → ∀ e : Error,
    Module.decodeWith (answering expr (.error (.error e))
      (ConstExpr.evaluate fuel)) bytes =
      .error (.error (.format (.dataOffset segment e.text)))

/-- Every expression comes to an answer with enough fuel, if only to none at all. -/
theorem ConstExpr.exists_limit : ∃ limit : Evaluator, ∀ expr,
    (limit expr = .error .outOfFuel → ∀ fuel, evaluate fuel expr = .error .outOfFuel) ∧
      ∃ bound, ∀ fuel, bound ≤ fuel → evaluate fuel expr = limit expr := by
  refine Classical.axiomOfChoice (r := fun expr answer =>
    (answer = .error .outOfFuel → ∀ fuel, evaluate fuel expr = .error .outOfFuel) ∧
      ∃ bound, ∀ fuel, bound ≤ fuel → evaluate fuel expr = answer) fun expr => ?_
  by_cases hends : ∃ fuel, evaluate fuel expr ≠ .error .outOfFuel
  · obtain ⟨bound, hbound⟩ := hends
    exact ⟨evaluate bound expr, fun hnone => absurd hnone hbound, bound,
      fun fuel hfuel => evaluate_eq_of_le hbound hfuel⟩
  · have hnever : ∀ fuel, evaluate fuel expr = .error .outOfFuel :=
      fun fuel => Classical.not_not.mp fun hfuel => hends ⟨fuel, hfuel⟩
    exact ⟨.error .outOfFuel, fun _ => hnever, 0, fun fuel _ => hnever fuel⟩

/-- Finitely many expressions have their answers with the same fuel. -/
theorem exists_bound_of_limit {limit : Evaluator}
    (hlimit : ∀ expr, ∃ bound, ∀ fuel, bound ≤ fuel →
      ConstExpr.evaluate fuel expr = limit expr)
    (asked : List (List UInt8)) : ∃ bound, ∀ fuel, bound ≤ fuel → ∀ expr ∈ asked,
      ConstExpr.evaluate fuel expr = limit expr := by
  induction asked with
  | nil => exact ⟨0, fun _ _ => nofun⟩
  | cons expr asked ih =>
      obtain ⟨bound, hbound⟩ := hlimit expr
      obtain ⟨bound', hbound'⟩ := ih
      refine ⟨max bound bound', fun fuel hfuel => List.forall_mem_cons.mpr ⟨?_, ?_⟩⟩
      · exact hbound fuel (by omega)
      · exact hbound' fuel (by omega)

/-- What a binary is decoded to does not change with more fuel. -/
theorem Module.decode_eq_of_le {fuel fuel' : Nat} {bytes : Array UInt8}
    (hends : decode fuel bytes ≠ .error .outOfFuel) (hle : fuel ≤ fuel') :
    decode fuel' bytes = decode fuel bytes := by
  unfold decode decodeWith at hends ⊢
  cases Decoding.wholeModule_consulting (ConstExpr.evaluate fuel) (.ofBytes bytes) with
  | ends asked hanswered _ hsame =>
      have hagree : ∀ expr ∈ asked, ConstExpr.evaluate fuel' expr =
          ConstExpr.evaluate fuel expr :=
        fun expr hexpr => ConstExpr.evaluate_eq_of_le (hanswered expr hexpr) hle
      rw [hsame _ hagree]
  | waits _ _ _ _ _ hwaits hfails =>
      have hwaits' := hfails (ConstExpr.evaluate fuel) .outOfFuel
        (fun _ _ => rfl) hwaits
      rw [hwaits'] at hends
      exact absurd rfl hends

/-- A binary that is decoded with some fuel is decoded to a module or refused. -/
theorem Module.comesTo_of_ends {fuel : Nat} {bytes : Array UInt8}
    (hends : decode fuel bytes ≠ .error .outOfFuel) :
    ∃ result, ComesTo (decode · bytes) result := by
  have hindex := (Checked.decode_eq fuel bytes).2
  have hmore : ∀ fuel', fuel ≤ fuel' → decode fuel' bytes = decode fuel bytes :=
    fun _ => decode_eq_of_le hends
  generalize decode fuel bytes = result at hends hindex hmore
  cases result with
  | ok m => exact ⟨.ok m, fuel, hmore⟩
  | error h =>
      cases h with
      | error e => exact ⟨.error e, fuel, hmore⟩
      | outOfFuel => exact absurd rfl hends
      | badIndex => exact absurd rfl hindex

/-- A binary that is never done with is stuck at an offset. -/
theorem Module.waitsFor_of_never_ends {bytes : Array UInt8}
    (hnever : ∀ fuel, decode fuel bytes = .error .outOfFuel) :
    ∃ segment expr, ConstExpr.Endless expr ∧ WaitsFor bytes segment expr := by
  obtain ⟨limit, hlimit⟩ := ConstExpr.exists_limit
  cases Decoding.wholeModule_consulting limit (.ofBytes bytes) with
  | ends asked _ hends hsame =>
      obtain ⟨bound, hbound⟩ :=
        exists_bound_of_limit (fun expr => (hlimit expr).2) asked
      have hwaits := hnever bound
      unfold decode decodeWith at hwaits
      rw [hsame _ (hbound bound (Nat.le_refl _))] at hwaits
      cases hwhole : Decoding.wholeModule limit (.ofBytes bytes) with
      | ok m c =>
          rw [hwhole] at hwaits
          cases hwaits
      | error h c =>
          rw [hwhole] at hwaits
          cases hwaits
          exact absurd hwhole (hends c)
  | waits asked last segment c hanswered hwaits hfails =>
      obtain ⟨bound, hbound⟩ :=
        exists_bound_of_limit (fun expr => (hlimit expr).2) asked
      refine ⟨segment, last, ConstExpr.endless_of_runs ((hlimit last).1 hwaits),
        hnever, bound,
        fun fuel hfuel e => ?_⟩
      have hagree : ∀ expr ∈ asked, answering last (.error (.error e))
          (ConstExpr.evaluate fuel) expr = limit expr := by
        intro expr hexpr
        -- The offset that is waited for is none of those that have been evaluated.
        have hother : expr ≠ last := fun hlast => hanswered expr hexpr (hlast ▸ hwaits)
        rw [answering, if_neg hother]
        exact hbound fuel hfuel expr hexpr
      unfold decodeWith
      rw [hfails _ (.error e) hagree (if_pos rfl)]
      rfl

/-- Decoding ends, unless it waits for the offset of a data segment that runs in a loop
without end.  The loops of the decoder itself do not run out of the fuel that they
have. -/
theorem decode_ends_unless_offset_loops (bytes : Array UInt8) :
    (∀ fuel, Checked.decode fuel bytes = Module.decode fuel bytes) ∧
      ((∃ result, ComesTo (Module.decode · bytes) result) ∨
        ∃ segment expr, ConstExpr.Endless expr ∧
          Module.WaitsFor bytes segment expr) := by
  refine ⟨fun fuel => (Checked.decode_eq fuel bytes).1, ?_⟩
  by_cases hends : ∃ fuel, Module.decode fuel bytes ≠ .error .outOfFuel
  · obtain ⟨fuel, hfuel⟩ := hends
    exact .inl (Module.comesTo_of_ends hfuel)
  · refine .inr (Module.waitsFor_of_never_ends fun fuel => ?_)
    exact Classical.not_not.mp fun hfuel => hends ⟨fuel, hfuel⟩

namespace TerminationWitness

/-- `loop br 0 end end`. -/
def offset : List UInt8 :=
  [0x03, 0x40, 0x0c, 0x00, 0x0b, 0x0b]

/-- A binary with one data segment, which goes where the loop says. -/
def bytes : List UInt8 :=
  [0x00, 0x61, 0x73, 0x6d, 0x01, 0x00, 0x00, 0x00] ++ [0x0b, 0x09, 0x01, 0x00] ++
    offset ++ [0x00]

def repeated : List Node :=
  [.plain 2 (.br 0)]

def module : Module :=
  ConstExpr.wrapper
    (.scope 0 .block (.func 0) [.scope 1 .loop .empty repeated none] none)

theorem decode_offset : ConstExpr.decode offset = .ok module := by
  with_unfolding_all rfl

/-- The run inside the loop. -/
def inside : State Unit Unit where
  calls := .ofFrame ⟨.constant, #[], [], [⟨repeated, repeated, 0, 0, true⟩,
    ⟨[], [.scope 1 .loop .empty repeated none], 0, 0, false⟩], none⟩
  world := ⟨.ofModule module, (), ()⟩

theorem advance_inside :
    State.advance (ConstExpr.env module) inside = .running inside := by
  with_unfolding_all rfl

theorem run_inside (fuel : Nat) :
    (inside.run (ConstExpr.env module) fuel).1 = .error .outOfFuel := by
  induction fuel with
  | zero => rfl
  | succ fuel ih =>
      rw [State.run, advance_inside]
      exact ih

theorem evaluate_offset (fuel : Nat) :
    ConstExpr.evaluate fuel offset = .error .outOfFuel := by
  rw [ConstExpr.evaluate_of_decode decode_offset, ConstExpr.firstValue_eq_outOfFuel]
  cases fuel with
  | zero => with_unfolding_all rfl
  | succ fuel => exact run_inside fuel

theorem decode_bytes (fuel : Nat) :
    Module.decode fuel bytes.toArray = .error .outOfFuel := by
  have hevaluate : ConstExpr.evaluate fuel =
      answering offset (.error .outOfFuel) (ConstExpr.evaluate fuel) := by
    funext expr
    unfold answering
    split
    · next hexpr => rw [hexpr, evaluate_offset]
    · rfl
  rw [Module.decode, hevaluate]
  with_unfolding_all rfl

/-- A loop in an offset keeps a binary from being decoded. -/
theorem offset_loops_forever :
    ¬ ∀ bytes : Array UInt8, ∃ result, ComesTo (Module.decode · bytes) result := by
  intro hends
  obtain ⟨result, bound, hbound⟩ := hends bytes.toArray
  have hdecode := (decode_bytes bound).symm.trans (hbound bound (Nat.le_refl _))
  cases result <;> cases hdecode

end TerminationWitness

end WasmVm
