/-
Sections decode alike with and without checks: their entries, the name section, and the
loop over all of them.  What an entry refers to by index has been found to be there
before.
-/
import WasmVm.Proofs.Decoding.CheckedBodies

namespace WasmVm.Checked

open Decoding

variable {α β : Type} {c : Cursor}

/-! ### Entries -/

/-- Behind a byte the position is not the first one. -/
theorem byte_bind_agrees {Q : β → Prop} {f g : UInt8 → Decoding β}
    (hf : ∀ b c, c.InWindow → 1 ≤ c.pos → AgreesAt Q c (f b) (g b)) :
    Agrees Q (liftM Reading.byte >>= f) (liftM Reading.byte >>= g) := by
  intro c hc
  refine (Agrees.lift_any Reading.byte_onward c hc).bind fun b c' hbyte _ hc' => ?_
  obtain ⟨_, rfl, -, rfl⟩ := (Reading.byte_reads c b c').mp (ofReading_eq_ok hbyte)
  exact hf b _ hc'.inWindow (Nat.le_add_left 1 c.pos)

theorem funcType_agrees : Agrees (fun _ => True) funcType (liftM Reading.funcType) := by
  unfold funcType Reading.funcType
  simp only [lift_bind, lift_ite, lift_pure, lift_fail]
  refine byte_bind_agrees fun form c hc hpos => ?_
  by_cases hform : form = 0x60
  · rw [if_pos hform, if_pos hform]
    exact (Agrees.lift_any Reading.valTypes_onward).bind
      (fun _ _ => (Agrees.lift_any Reading.valTypes_onward).bind fun _ _ =>
        .pure trivial) c hc
  · rw [if_neg hform, if_neg hform]
    refine (Agrees.lift_any Reading.offset_onward c hc).bind
      fun after c' hafter _ hc' => ?_
    cases hafter
    have hoffset : 1 ≤ c.offset := Nat.le_trans hpos (Nat.le_add_left _ _)
    exact require_bind_agrees hoffset (.fail _) c hc

theorem importEntry_agrees (m : Module) :
    Agrees (fun _ => True) (importEntry m) (liftM (Reading.importEntry m)) := by
  unfold importEntry Reading.importEntry
  simp only [lift_bind, lift_ite, lift_pure, lift_fail]
  refine name_agrees.bind fun module _ => name_agrees.bind fun name _ => ?_
  refine (Agrees.lift_any Reading.byte_onward).bind fun kind _ => ?_
  refine .ite (fun _ => ?_) fun _ => .ite (fun _ => ?_) fun _ =>
    .ite (fun _ => ?_) fun _ =>
    .ite (fun _ => ?_) fun _ => .ite (fun _ => ?_) fun _ => .fail _
  · exact (Agrees.lift_any (Reading.typeIndex_onward m)).bind fun _ _ => .pure trivial
  · exact (Agrees.lift_any Reading.byte_onward).bind fun _ _ =>
      (Agrees.lift_any Reading.limits_onward).bind fun _ _ => .pure trivial
  · exact (Agrees.lift_any Reading.memoryLimits_onward).bind fun _ _ => .pure trivial
  · exact (Agrees.lift_any Reading.valType_onward).bind fun _ _ =>
      (Agrees.lift_any Reading.mutability_onward).bind fun _ _ => .pure trivial
  · exact (Agrees.lift_any Reading.byte_onward).bind fun _ _ =>
      (Agrees.lift_any (Reading.typeIndex_onward m)).bind fun _ _ => .pure trivial

theorem exportEntry_agrees : Agrees (fun _ => True) exportEntry
    (liftM Reading.exportEntry) := by
  unfold exportEntry Reading.exportEntry
  simp only [lift_bind, lift_pure]
  refine name_agrees.bind fun name _ => ?_
  exact (Agrees.lift_any (Reading.exportKind_onward name)).bind fun _ _ =>
    (Agrees.lift_any Reading.u32_onward).bind fun _ _ => .pure trivial

theorem global_agrees (m : Module) :
    Agrees (fun _ => True) (global m) (liftM (Reading.global m)) := by
  unfold global Reading.global
  simp only [lift_bind, lift_pure, lift_get]
  refine (Agrees.lift_any Reading.valType_onward).bind fun type _ => ?_
  refine (Agrees.lift_any Reading.mutability_onward).bind fun isMutable _ => ?_
  exact consumed_bind_agrees (body_agrees m _ _) fun _ _ _ => .pure trivial

theorem codeEntry_agrees (m : Module) (function typeIndex : Nat) (type : FuncType) :
    Agrees (fun _ => True) (codeEntry m function typeIndex type)
      (liftM (Reading.code m function typeIndex type)) := by
  unfold codeEntry Reading.code
  simp only [lift_bind, lift_get]
  refine (Agrees.lift_any Reading.u32_onward).bind fun groups _ => ?_
  refine (Agrees.lift_any (Reading.forRange_onward
    (fun _ locals => Reading.localGroup_onward function locals) _ _ _)).bind
      fun locals _ => ?_
  refine (body_agrees m _ _).bind fun body _ => ?_
  refine fun c hc => .get_bind ?_
  unfold AgreesAt
  by_cases hfinished : c.isFinished = true
  · rw [if_pos hfinished, if_pos hfinished]
    exact Agrees.pure trivial c hc
  · rw [if_neg hfinished, if_neg hfinished, EStateM.bind_of_ok (remaining_eq hc)]
    exact Agrees.fail _ c hc

/-! ### Names -/

theorem nameEntry_agrees : Agrees (fun _ => True) nameEntry (liftM Names.entry) := by
  unfold nameEntry Names.entry
  simp only [lift_bind, lift_pure]
  exact (Agrees.lift_any Reading.u32_onward).bind fun _ _ =>
    name_agrees.bind fun _ _ => .pure trivial

theorem subsection_agrees :
    Agrees (fun entry => entry.2.InWindow) subsection (liftM Names.subsection) := by
  unfold subsection Names.subsection
  simp only [lift_bind, lift_pure]
  exact (Agrees.lift_any Reading.byte_onward).bind fun _ _ =>
    (Agrees.lift_any Reading.u32_onward).bind fun size _ =>
      (window_agrees size).bind fun _ hinner => .pure hinner

theorem addEntries_eq (left : Nat) (names : Names) (hc : c.InWindow) :
    addEntries left names c = .ok (Names.addEntries left names c) := by
  induction left generalizing names c with
  | zero => rfl
  | succ left ih =>
      obtain ⟨hsame, hsafe⟩ := nameEntry_agrees c hc
      unfold addEntries Names.addEntries
      rw [hsame]
      cases hentry : Names.entry c with
      | error e c' => rw [lift_of_error hentry]
      | ok entry c' =>
          rw [lift_of_ok hentry] at hsafe ⊢
          exact ih _ hsafe.2.inWindow

/-- The loop over the subsections; each of them takes a byte. -/
theorem addSubsections_eq {fuel : Nat} (names : Names) (hc : c.InWindow)
    (hfuel : c.remaining ≤ fuel) :
    addSubsections (fuel + 1) names c = .ok (Names.addSubsections fuel names c) := by
  induction fuel generalizing names c with
  | zero =>
      have hfinished := Cursor.isFinished_iff_remaining.mpr (Nat.le_zero.mp hfuel)
      rw [addSubsections, if_pos hfinished]
      rfl
  | succ fuel ih =>
      obtain ⟨hsame, hsafe⟩ := subsection_agrees c hc
      rw [addSubsections, Names.addSubsections]
      by_cases hfinished : c.isFinished = true
      · rw [if_pos hfinished, if_pos hfinished]
      rw [if_neg hfinished, if_neg hfinished, hsame]
      cases hsection : Names.subsection c with
      | error e c' => rw [lift_of_error hsection]
      | ok entry c' =>
          obtain ⟨id, inner⟩ := entry
          rw [lift_of_ok hsection] at hsafe ⊢
          obtain ⟨hinner, hnext⟩ := hsafe
          have hless := remaining_lt_of_subsection hsection
          dsimp only
          by_cases hid : id ≠ 1
          · rw [if_pos hid, if_pos hid]
            exact ih names hnext.inWindow (by omega)
          rw [if_neg hid, if_neg hid]
          cases hcount : Reading.u32 inner with
          | error e c'' => rfl
          | ok count after =>
              have hafter := Reading.u32_onward inner count after hcount hinner
              dsimp only
              rw [addEntries_eq count names hafter.inWindow]
              rcases Names.addEntries count names after with ⟨names', _ | _⟩
              · rfl
              · exact ih names' hnext.inWindow (by omega)

theorem custom_agrees {m : Module} (hm : m.InRange) :
    Agrees Module.InRange (custom m) (Decoding.custom m) := by
  refine name_agrees.bind fun name _ => .ite (fun _ c hc => ?_) fun _ => .pure hm
  refine .get_bind ?_
  rw [addSubsections_eq m.names hc (Nat.le_refl _)]
  exact Agrees.pure { hm with } c hc

/-! ### Sections -/

theorem forRange_agrees {P : α → Prop} {x y : Nat → α → Decoding α} (stop : Nat)
    (h : ∀ turn a, turn < stop → P a → Agrees P (x turn a) (y turn a))
    {left turn : Nat} {a : α} (hstop : turn + left ≤ stop) (ha : P a) :
    Agrees P (forRange x left turn a) (forRange y left turn a) := by
  induction left generalizing turn a with
  | zero => exact .pure ha
  | succ left ih =>
      exact (h turn a (by omega) ha).bind fun _ hnext => ih (by omega) hnext

theorem entries_agrees {P : Module → Prop} {x y : Nat → Module → Decoding Module}
    (h : ∀ turn m, P m → Agrees P (x turn m) (y turn m)) {m : Module} (hm : P m) :
    Agrees P (entries x m) (entries y m) :=
  (Agrees.lift_any Reading.u32_onward).bind fun _ _ =>
    forRange_agrees _ (fun turn m _ hm => h turn m hm) (Nat.le_refl _) hm

theorem within_agrees {P : α → Prop} {inner : Cursor} (hinner : inner.InWindow)
    {x y : Decoding α} (h : Agrees P x y) :
    Agrees (fun r => P r.1 ∧ r.2.InWindow) (within inner x) (within inner y) := by
  intro c hc
  obtain ⟨hsame, hsafe⟩ := h inner hinner
  unfold within
  rw [hsame]
  cases hy : y inner with
  | error h c' =>
      rw [hy] at hsafe
      exact ⟨rfl, hsafe⟩
  | ok a after =>
      rw [hy] at hsafe
      exact ⟨rfl, ⟨hsafe.1, hsafe.2.inWindow⟩, .refl hc⟩

/-- A function that is declared has a signature. -/
theorem code_agrees {m : Module} (hm : m.InRange) (turn : Nat)
    (hturn : turn < m.functions.size) :
    Agrees (fun m' => m'.InRange ∧ m'.functions = m.functions) (code turn m)
      (Decoding.code turn m) := by
  have htype := hm.functions _ (Array.getElem_mem hturn)
  have hkeeps : Yields (fun m' => m'.InRange ∧ m'.functions = m.functions)
      (Decoding.code turn m) := by
    intro c m' c' hread
    refine ⟨code_inRange turn hm c m' c' hread, ?_⟩
    obtain ⟨code, typeIndex, type, rfl, -⟩ := code_yields turn m c m' c' hread
    rfl
  refine Agrees.yields (P := fun _ => True) ?_ hkeeps
  unfold code Decoding.code
  rw [Array.getElem?_eq_getElem hturn]
  simp only [present, pure_bind, Array.getElem?_eq_getElem htype]
  refine (Agrees.lift_any Reading.u32_onward).bind fun size _ => ?_
  refine (window_agrees size).bind fun entry hentry => ?_
  exact (within_agrees hentry (codeEntry_agrees m _ _ _)).bind fun _ _ => .pure trivial

theorem codes_agrees {m : Module} (hm : m.InRange) :
    Agrees Module.InRange (codes m) (Decoding.codes m) := by
  refine (Agrees.lift_any Reading.u32_onward).bind fun count _ =>
    .ite (fun _ => .fail _) ?_
  intro hcount
  have hcount : count = m.functions.size := Decidable.not_not.mp hcount
  have hturns : Agrees (fun m' => m'.InRange ∧ m'.functions = m.functions)
      (forRange code count 0 m) (forRange Decoding.code count 0 m) := by
    refine forRange_agrees count (fun turn m' hturn hm' => ?_) (by omega) ⟨hm, rfl⟩
    have hcode := code_agrees hm'.1 turn (by rwa [hm'.2, ← hcount])
    rwa [hm'.2] at hcode
  exact hturns.mono fun _ hm' => hm'.1

variable {evaluate evaluate' : List UInt8 → Except Halt Value}

/-- An expression is evaluated in the same way, without an access out of range. -/
def SafeEvaluator (evaluate' evaluate : List UInt8 → Except Halt Value) : Prop :=
  ∀ expr, evaluate' expr = evaluate expr ∧ evaluate expr ≠ .error .badIndex

theorem activeOffset_agrees (hevaluate : SafeEvaluator evaluate' evaluate) (m : Module)
    (segment : Nat) :
    Agrees (fun _ => True) (activeOffset evaluate' m segment)
      (Decoding.activeOffset evaluate m segment) := by
  refine consumed_bind_agrees (body_agrees m _ _) fun start _ after => ?_
  generalize after.since start.pos = expr
  dsimp only
  obtain ⟨hsame, hindex⟩ := hevaluate expr
  rw [hsame]
  cases hvalue : evaluate expr with
  | error h =>
      cases h with
      | error e => exact .fail _
      | outOfFuel => exact fun _ _ => ⟨rfl, Halt.noConfusion⟩
      | badIndex => exact absurd hvalue hindex
  | ok v =>
      cases v with
      | i32 v => exact .pure trivial
      | _ => exact .fail _

theorem dataMode_agrees (hevaluate : SafeEvaluator evaluate' evaluate) (m : Module)
    (segment : Nat) :
    Agrees (fun _ => True) (dataMode evaluate' m segment)
      (Decoding.dataMode evaluate m segment) := by
  have hoffset := activeOffset_agrees hevaluate m segment
  refine (Agrees.lift_any Reading.u32_onward).bind fun flags _ => ?_
  match flags with
  | 0 => exact hoffset.bind fun _ _ => .pure trivial
  | 1 => exact .pure trivial
  | 2 =>
      exact (Agrees.lift_any Reading.u32_onward).bind fun _ _ =>
        hoffset.bind fun _ _ => .pure trivial
  | _ + 3 => exact .fail _

theorem segments_agrees (hevaluate : SafeEvaluator evaluate' evaluate) {m : Module}
    (hm : m.InRange) :
    Agrees Module.InRange (entries (segment evaluate') m) (segments evaluate m) := by
  refine entries_agrees (fun turn m hm => ?_) hm
  refine (dataMode_agrees hevaluate m turn).bind fun _ _ => ?_
  refine (Agrees.lift_any Reading.u32_onward).bind fun length _ => ?_
  exact (bytes_agrees length).bind fun _ _ => .pure { hm with }

/-- Entries that are read in the same way, in a section that keeps the module in range.
-/
theorem list_agrees {x y : Nat → Module → Decoding Module} {m : Module}
    (h : ∀ turn m, Agrees (fun _ => True) (x turn m) (y turn m))
    (hkeeps : Yields Module.InRange (entries y m)) :
    Agrees Module.InRange (entries x m) (entries y m) :=
  (entries_agrees (fun turn m _ => h turn m) trivial).yields hkeeps

/-- Sections of one kind are read in the same way. -/
theorem sectionReader_agrees (hevaluate : SafeEvaluator evaluate' evaluate) {id : UInt8}
    {read : Module → Decoding Module}
    (h : Decoding.sectionReader evaluate id = some read) :
    ∃ read', sectionReader evaluate' id = some read' ∧
      ∀ m : Module, m.InRange → Agrees Module.InRange (read' m) (read m) := by
  refine sectionReader_cases (P := fun id read => ∃ read',
    sectionReader evaluate' id = some read' ∧ ∀ m : Module, m.InRange →
      Agrees Module.InRange (read' m) (read m)) ?types ?imports ?functions
    ?memories ?globals ?exports ?codes ?segments ?count ?tags h
  case types =>
    exact ⟨_, rfl, fun m hm => list_agrees
      (fun _ _ => funcType_agrees.bind fun _ _ => .pure trivial) (types_inRange hm)⟩
  case imports =>
    exact ⟨_, rfl, fun m hm => list_agrees
      (fun _ m => (importEntry_agrees m).bind fun _ _ => .pure trivial)
      (imports_inRange hm)⟩
  case functions =>
    exact ⟨_, rfl, fun m hm => list_agrees (fun _ m =>
      (Agrees.lift_any (Reading.typeIndex_onward m)).bind fun _ _ => .pure trivial)
      (functions_inRange hm)⟩
  case memories =>
    exact ⟨_, rfl, fun m hm => list_agrees (fun _ _ =>
      (Agrees.lift_any Reading.memoryLimits_onward).bind fun _ _ => .pure trivial)
      (memories_inRange hm)⟩
  case globals =>
    exact ⟨_, rfl, fun m hm => list_agrees
      (fun _ m => (global_agrees m).bind fun _ _ => .pure trivial) (globals_inRange hm)⟩
  case exports =>
    exact ⟨_, rfl, fun m hm => list_agrees
      (fun _ _ => exportEntry_agrees.bind fun _ _ => .pure trivial)
      (exports_inRange hm)⟩
  case codes => exact ⟨_, rfl, fun m hm => codes_agrees hm⟩
  case segments => exact ⟨_, rfl, fun m hm => segments_agrees hevaluate hm⟩
  case count =>
    exact ⟨_, rfl, fun m hm => (Agrees.lift_any Reading.u32_onward).bind fun _ _ =>
      .pure { hm with }⟩
  case tags =>
    exact ⟨_, rfl, fun m hm => list_agrees (fun _ m =>
      (Agrees.lift_any (Reading.tag_onward m)).bind fun _ _ => .pure trivial)
        (tags_inRange hm)⟩

/-- Sections that are not read in one decoder are not read in the other. -/
theorem sectionReader_eq_none {id : UInt8}
    (h : Decoding.sectionReader evaluate id = none) :
    sectionReader evaluate' id = none := by
  by_cases hid : id ∈ [1, 2, 3, 5, 6, 7, 10, 11, 12, 13]
  · simp only [List.mem_cons, List.not_mem_nil, or_false] at hid
    rcases hid with rfl | rfl | rfl | rfl | rfl | rfl | rfl | rfl | rfl | rfl <;>
      simp [Decoding.sectionReader] at h
  · simp only [List.mem_cons, List.not_mem_nil, or_false, not_or] at hid
    simp [sectionReader, Decoding.sectionReader, hid]

theorem oneSection_agrees (hevaluate : SafeEvaluator evaluate' evaluate) {m : Module}
    (hm : m.InRange) :
    Agrees Module.InRange (oneSection evaluate' m)
      (Decoding.oneSection evaluate m) := by
  refine (Agrees.lift_any Reading.byte_onward).bind fun id _ => ?_
  refine (Agrees.lift_any Reading.u32_onward).bind fun size _ => ?_
  refine (Agrees.lift_any Reading.offset_onward).bind fun start _ => ?_
  refine (window_agrees size).bind fun contents hcontents => ?_
  cases hreader : Decoding.sectionReader evaluate id with
  | none =>
      rw [sectionReader_eq_none hreader]
      dsimp only
      refine .ite (fun _ => ?_) fun _ => .pure hm
      exact (within_agrees hcontents (custom_agrees hm)).bind fun _ hr => .pure hr.1
  | some read =>
      obtain ⟨read', hreader', hread⟩ := sectionReader_agrees hevaluate hreader
      rw [hreader']
      dsimp only
      refine (within_agrees hcontents (hread m hm)).bind fun r hr => ?_
      obtain ⟨m', after⟩ := r
      refine .ite (fun _ => .pure hr.1) fun _ => ?_
      have hleft : within after remaining = fun c =>
          .ok (after.remaining, after) c := by
        funext c
        rw [within, remaining_eq hr.2]
      rw [hleft]
      exact .fail _

/-- The loop over the sections; each of them takes a byte. -/
theorem sections_agree (hevaluate : SafeEvaluator evaluate' evaluate)
    {fuel : Nat} {m : Module}
    (hm : m.InRange) (hc : c.InWindow) (hfuel : c.remaining ≤ fuel) :
    AgreesAt Module.InRange c (sections evaluate' (fuel + 1) m)
      (Decoding.sections evaluate fuel m) := by
  induction fuel generalizing m c with
  | zero =>
      have hfinished := Cursor.isFinished_iff_remaining.mpr (Nat.le_zero.mp hfuel)
      unfold AgreesAt
      rw [sections, EStateM.get_bind, if_pos hfinished]
      exact Agrees.pure hm c hc
  | succ fuel ih =>
      unfold AgreesAt
      rw [sections, EStateM.get_bind, sections_succ]
      by_cases hfinished : c.isFinished = true
      · rw [if_pos hfinished, if_pos hfinished]
        exact Agrees.pure hm c hc
      rw [if_neg hfinished, if_neg hfinished]
      refine (oneSection_agrees hevaluate hm c hc).bind fun m' c' hone hm' hc' => ?_
      have hless := remaining_lt_of_oneSection hone
      exact ih hm' hc'.inWindow (by omega)

end WasmVm.Checked
