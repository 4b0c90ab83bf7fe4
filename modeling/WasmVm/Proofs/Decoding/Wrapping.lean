/-
Expressions in modules of their own.  The module that is made for an expression is
decoded just if the expression is one body to its last byte.  Whatever bytes an
expression has, the lengths in front of it keep them inside the only code entry.
-/
import WasmVm.Proofs.Decoding.Constants
import WasmVm.Proofs.Decoding.Initializers

namespace WasmVm

open Leb128

/-- The contents of a section turn a module into one other at most. -/
theorem SectionTurns.unique {evaluate : List UInt8 → Except Halt Value} {id : UInt8}
    {contents : List UInt8} {m m₁ m₂ : Module}
    (h₁ : SectionTurns evaluate id contents m m₁)
    (h₂ : SectionTurns evaluate id contents m m₂) : m₁ = m₂ := by
  let window : Cursor := .ofBytes contents.toArray
  have hread₁ : Decoding.sectionContents evaluate m id 0 0 window window =
      .ok m₁ window :=
    Decoding.contents_of_sectionTurns h₁
  have hread₂ : Decoding.sectionContents evaluate m id 0 0 window window =
      .ok m₂ window :=
    Decoding.contents_of_sectionTurns h₂
  rw [hread₁] at hread₂
  injection hread₂

/-- A list of sections is told from the bytes of its sections. -/
theorem sections_unique {sections sections' : List (UInt8 × List UInt8)}
    {bytes : List UInt8}
    (h : Each (fun s => SectionEncodes s.1 (· = s.2)) sections bytes)
    (h' : Each (fun s => SectionEncodes s.1 (· = s.2)) sections' bytes) :
    sections = sections' := by
  induction h generalizing sections' with
  | nil =>
      generalize hnone : [] = bytes at h'
      cases h' with
      | nil => rfl
      | cons hfront =>
          obtain ⟨size, _, rfl, -⟩ := hfront
          cases hnone
  | @cons s sections front back hfront _ ih =>
      generalize hall : front ++ back = bytes at h'
      cases h' with
      | nil =>
          obtain ⟨size, _, rfl, -⟩ := hfront
          cases hall
      | @cons s' _ _ _ hfront' hback' =>
          obtain ⟨hid, hcontents, rfl⟩ := hfront.unique hfront' hall
          rw [Prod.ext hid hcontents, ih hback']

/-- A code entry without local groups holds a body to its last byte. -/
theorem Reading.code_without_groups_iff {m : Module} {function typeIndex : Nat}
    {type : FuncType} {code : Code} {bytes : List UInt8} {c : Cursor}
    (hrest : c.rest = 0 :: bytes) :
    (∃ after, Reading.code m function typeIndex type c = .ok code after) ↔
      ∃ root, BodyEncodes m (.func typeIndex) root bytes ∧
        code = ⟨type.params.toArray, type.params.length, root⟩ := by
  have hnone : U32 0 [0] := u32_singleton (by decide)
  constructor
  · rintro ⟨after, h⟩
    obtain ⟨c₁, hgroups, hrest₁⟩ :=
      (u32_accepts hnone).ok_of_rest (hrest : c.rest = [0] ++ bytes)
    unfold Reading.code at h
    rw [EStateM.bind_of_ok hgroups] at h
    obtain ⟨locals, c₂, hlocals, hafter⟩ := EStateM.bind_eq_ok h
    cases hlocals
    obtain ⟨root, c₃, hbody, hlast⟩ := EStateM.bind_eq_ok hafter
    rw [EStateM.get_bind] at hlast
    split at hlast
    · next hall =>
        cases hlast
        exact ⟨root, hrest₁ ▸ body_to_end_iff.mp ⟨_, hbody, hall⟩, rfl⟩
    · cases hlast
  · rintro ⟨root, hbody, rfl⟩
    have hempty : Counted LocalsEncode [] [0] := ⟨[0], [], rfl, hnone, .nil⟩
    exact code_of_rest function rfl (by simp [expandLocals])
      (absurd rfl) hempty hbody hrest

namespace ConstExpr

/-- What an expression is read against: the signature without parameters and results,
and the only function, of that signature. -/
def surroundings : Module where
  types := #[⟨[], []⟩]
  functions := #[0]

/-- The contents of the code section made for an expression. -/
def codeContents (expr : List UInt8) : List UInt8 :=
  1 :: (encode (0 :: expr).length ++ (0 :: expr))

/-- An expression fits if the size of its code section can be written down. -/
def Fits (expr : List UInt8) : Prop :=
  (codeContents expr).length < 2 ^ 32

instance (expr : List UInt8) : Decidable (Fits expr) :=
  inferInstanceAs (Decidable (_ < _))

/-- The bytes behind the header of the module made for an expression. -/
def sectionBytes (expr : List UInt8) : List UInt8 :=
  encodeSection 1 [1, 0x60, 0, 0] ++
    (encodeSection 3 [1, 0] ++ (encodeSection 10 (codeContents expr) ++ []))

section

variable {evaluate : List UInt8 → Except Halt Value} {expr : List UInt8} {m : Module}

theorem wrap_eq_binary (expr : List UInt8) :
    (wrap expr).toArray = binary (sectionBytes expr) := by
  simp [binary, wrap, sectionBytes, codeContents]

theorem each_sections (hfits : Fits expr) :
    Each (fun s => SectionEncodes s.1 (· = s.2))
      [(1, [1, 0x60, 0, 0]), (3, [1, 0]), (10, codeContents expr)]
      (sectionBytes expr) :=
  .cons (encodeSection_encodes (by decide) rfl)
    (.cons (encodeSection_encodes (by decide) rfl)
      (.cons (encodeSection_encodes hfits rfl) .nil))

theorem type_turns_iff : SectionTurns evaluate 1 [1, 0x60, 0, 0] {} m ↔
    m = { types := #[⟨[], []⟩] } := by
  have hturn : SectionTurns evaluate 1 [1, 0x60, 0, 0] {} { types := #[⟨[], []⟩] } :=
    .known rfl (rfl : (Cursor.ofBytes #[1, 0x60, 0, 0]).rest = _) rfl rfl
  exact ⟨fun h => h.unique hturn, fun h => h ▸ hturn⟩

theorem function_turns_iff :
    SectionTurns evaluate 3 [1, 0] { types := #[⟨[], []⟩] } m ↔ m = surroundings := by
  have hturn : SectionTurns evaluate 3 [1, 0] { types := #[⟨[], []⟩] } surroundings :=
    .known rfl (rfl : (Cursor.ofBytes #[1, 0]).rest = _) rfl rfl
  exact ⟨fun h => h.unique hturn, fun h => h ▸ hturn⟩

/-- As there is one function, one entry is read. -/
theorem codes_surroundings {c c' : Cursor}
    (h : (liftM Reading.u32 : Decoding Nat) c = .ok 1 c') :
    Decoding.codes surroundings c = Decoding.code 0 surroundings c' := by
  unfold Decoding.codes
  rw [EStateM.bind_of_ok h, if_neg (fun hne => hne rfl)]
  simp only [Decoding.forRange, bind_pure]

theorem entry_size (hfits : Fits expr) :
    U32 (0 :: expr).length (encode (0 :: expr).length) := by
  refine encode_u32 (Nat.lt_of_le_of_lt ?_ hfits)
  simp only [codeContents, List.length_cons, List.length_append]
  omega

/-- The code section adds the code of an expression that is a body to its last byte. -/
theorem codeContents_turns_iff (hfits : Fits expr) :
    SectionTurns evaluate 10 (codeContents expr) surroundings m ↔
      ∃ root, BodyEncodes surroundings (.func 0) root expr ∧
        m = { surroundings with codes := #[⟨#[], 0, root⟩] } := by
  have hcount : U32 1 [1] := u32_singleton (by decide)
  constructor
  · rintro (@⟨read, window, after, hreader, hwindow, hread, -⟩ | hid | hreader)
    · cases hreader
      obtain ⟨c₁, hc₁, hrest₁⟩ := (Reading.u32_accepts hcount).lift.ok_of_rest hwindow
      obtain ⟨c₂, hc₂, hrest₂⟩ :=
        (Reading.u32_accepts (entry_size hfits)).lift.ok_of_rest hrest₁
      rw [codes_surroundings hc₁, Decoding.code_eq rfl rfl,
        EStateM.bind_of_ok hc₂] at hread
      obtain ⟨entry, c₃, hentry, hafter⟩ := EStateM.bind_eq_ok hread
      obtain ⟨contents, rfl, hlength, hahead, rfl⟩ :=
        Decoding.window_eq_ok (Decoding.ofReading_eq_ok hentry)
      rw [hrest₂] at hahead
      obtain rfl := hahead.eq_of_length hlength
      obtain ⟨⟨code, c₄⟩, c₅, hwithin, ⟨⟩⟩ := EStateM.bind_eq_ok hafter
      obtain ⟨hcode, -⟩ := Decoding.within_eq_ok hwithin
      obtain ⟨root, hbody, rfl⟩ :=
        (Reading.code_without_groups_iff rfl).mp ⟨_, Decoding.ofReading_eq_ok hcode⟩
      exact ⟨root, hbody, rfl⟩
    · cases hid
    · cases hreader
  · rintro ⟨root, hbody, rfl⟩
    have hcode : Accepts (Decoding.code 0 surroundings) _ _ :=
      Decoding.code_accepts_of_rest rfl rfl (entry_size hfits) fun c hrest =>
        (Reading.code_without_groups_iff hrest).mpr ⟨root, hbody, rfl⟩
    have hwindow : (Cursor.ofBytes (codeContents expr).toArray).rest =
        codeContents expr := rfl
    obtain ⟨c₁, hc₁, hrest₁⟩ := (Reading.u32_accepts hcount).lift.ok_of_rest hwindow
    obtain ⟨after, hafter, hnone⟩ :=
      hcode.ok_of_rest (hrest₁.trans (List.append_nil _).symm)
    rw [← codes_surroundings hc₁] at hafter
    exact .known rfl hwindow hafter (Cursor.isFinished_iff.mpr hnone)

/-- The sections in front of the code are the same for every expression. -/
theorem sectionBytes_turn_iff (hfits : Fits expr) :
    SectionsTurn evaluate (sectionBytes expr) {} m ↔
    SectionTurns evaluate 10 (codeContents expr) surroundings m := by
  have htype : SectionEncodes 1 (· = [1, 0x60, 0, 0])
      (encodeSection 1 [1, 0x60, 0, 0]) :=
    encodeSection_encodes (by decide) rfl
  have hfunction : SectionEncodes 3 (· = [1, 0]) (encodeSection 3 [1, 0]) :=
    encodeSection_encodes (by decide) rfl
  have hcode : SectionEncodes 10 (· = codeContents expr)
      (encodeSection 10 (codeContents expr)) :=
    encodeSection_encodes hfits rfl
  simp only [sectionBytes, SectionsTurn.cons_iff htype, SectionsTurn.cons_iff hfunction,
    SectionsTurn.cons_iff hcode, SectionsTurn.nil_iff, type_turns_iff,
      function_turns_iff,
    exists_eq_left, exists_eq_right']

/-- The module made for an expression is decoded just if the expression is a body to
its end. -/
theorem decodeWith_wrap_iff (hfits : Fits expr) :
    Module.decodeWith evaluate (wrap expr).toArray = .ok m ↔
      ∃ root, BodyEncodes surroundings (.func 0) root expr ∧
        m = { surroundings with codes := #[⟨#[], 0, root⟩] } := by
  rw [wrap_eq_binary, decodeWith_binary_eq_ok_iff, sectionBytes_turn_iff hfits,
    codeContents_turns_iff hfits, and_iff_left_iff_imp]
  rintro ⟨root, -, rfl⟩
  rfl

end

end ConstExpr

/-- The module made for an expression holds it, and nothing else comes of it.  Whatever
bytes the expression has, the sections are the same three, with the bytes inside the
only code entry.  The module is decoded just if a body is read from the expression
alone, to its last byte, where there is one signature, without parameters and results,
and one function of it.  Then it has these and one code, without locals, that is the
body; the root of the body has the function's type. -/
theorem wrapping_is_transparent {expr : List UInt8} (hfits : ConstExpr.Fits expr) :
    (∃ bytes, (ConstExpr.wrap expr).toArray = binary bytes ∧
      ∀ sections, Each (fun s => SectionEncodes s.1 (· = s.2)) sections bytes ↔
        sections = [(1, [1, 0x60, 0, 0]), (3, [1, 0]),
          (10, ConstExpr.codeContents expr)]) ∧
    ∀ owner : String,
      (∀ root after, Reading.body ConstExpr.surroundings owner (.func 0)
        (.ofBytes expr.toArray) = .ok root after → ∃ nodes,
          root = .scope 0 .block (.func 0) nodes none) ∧
      ∀ (fuel : Nat) (m : Module),
        (Module.decode fuel (ConstExpr.wrap expr).toArray = .ok m ↔
          ∃ root after, Reading.body ConstExpr.surroundings owner (.func 0)
              (.ofBytes expr.toArray) = .ok root after ∧ after.isFinished = true ∧
            m = { types := #[⟨[], []⟩], functions := #[0], codes :=
              #[⟨#[], 0, root⟩] }) ∧
        (ConstExpr.decode expr = .ok m ↔
          Module.decode fuel (ConstExpr.wrap expr).toArray = .ok m) := by
  refine ⟨⟨_, ConstExpr.wrap_eq_binary expr, fun sections => ?_⟩, fun owner =>
    ⟨fun root after hread => ?_, fun fuel m => ⟨?_, ?_⟩⟩⟩
  · have heach := ConstExpr.each_sections hfits
    exact ⟨fun h => sections_unique h heach, fun h => h ▸ heach⟩
  · obtain ⟨_, ⟨items, nodes, -, -, hroot⟩, -⟩ :=
      (Reading.body_reads _ _ _ _ _ _).mp hread
    exact ⟨nodes, hroot⟩
  · have hbody (root : Node) : BodyEncodes ConstExpr.surroundings (.func 0) root expr ↔
        ∃ after, Reading.body ConstExpr.surroundings owner (.func 0)
          (.ofBytes expr.toArray) =
          .ok root after ∧ after.isFinished = true := by
      rw [Reading.body_to_end_iff]
      rfl
    simp only [Module.decode, ConstExpr.decodeWith_wrap_iff hfits,
      hbody, ← exists_and_right, and_assoc]
    rfl
  · rw [Module.decode, ConstExpr.decode, ConstExpr.decodeWith_wrap_iff hfits,
      ConstExpr.decodeWith_wrap_iff hfits]

namespace WrappingWitness

/-- The body that gives five. -/
def five : Node :=
  .scope 0 .block (.func 0) [.plain 1 (.const (.i32 5))] none

/-- The body that gives five, then bytes that would be a code section of their own. -/
def fiveAndSection : List UInt8 :=
  [0x41, 0x05, 0x0b] ++ [0x0a, 0x04, 0x01, 0x02, 0x00, 0x0b]

theorem read_fiveAndSection :
    Reading.body ConstExpr.surroundings "" (.func 0) (.ofBytes fiveAndSection.toArray) =
      .ok five ⟨fiveAndSection.toArray, 3, 0⟩ := by
  with_unfolding_all rfl

/-- The body that gives five is decoded in a module of its own, and refused with a
section behind it. -/
theorem five_is_wrapped :
    Module.decode 0 (ConstExpr.wrap [0x41, 0x05, 0x0b]).toArray =
      .ok { types := #[⟨[], []⟩], functions := #[0], codes := #[⟨#[], 0, five⟩] } ∧
    ∀ m, Module.decode 0 (ConstExpr.wrap fiveAndSection).toArray ≠ .ok m := by
  constructor
  · obtain ⟨-, hdecode⟩ := wrapping_is_transparent
      (show ConstExpr.Fits [0x41, 0x05, 0x0b] by decide)
    refine ((hdecode "").2 0 _).1.mpr ⟨five, ⟨#[0x41, 0x05, 0x0b], 3, 0⟩, ?_, rfl, rfl⟩
    with_unfolding_all rfl
  · intro m h
    obtain ⟨-, hdecode⟩ :=
      wrapping_is_transparent (show ConstExpr.Fits fiveAndSection by decide)
    obtain ⟨root, after, hread, hall, -⟩ := ((hdecode "").2 0 m).1.mp h
    rw [read_fiveAndSection] at hread
    cases hread
    cases hall

end WrappingWitness

end WasmVm
