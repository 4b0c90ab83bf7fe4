/-
What sections add to a module.  Each section reads its entries one by one against the
module as it stands, and only ever adds to one of its lists.  A property of whole
modules is therefore proved section by section, in view of the sections still to come.
-/
import WasmVm.ConstExpr
import WasmVm.Proofs.Reading.Numbers

namespace WasmVm

/-- What a decoder returns, if it returns, meets `post`, wherever it was started. -/
def Yields {ε σ α : Type} (post : α → Prop) (x : EStateM ε σ α) : Prop :=
  ∀ c a c', x c = .ok a c' → post a

namespace Yields

variable {ε σ α β : Type} {P : α → Prop} {Q : β → Prop} {x : EStateM ε σ α}
  {f : α → EStateM ε σ β}

theorem pure {a : α} (ha : P a) : Yields P (Pure.pure a : EStateM ε σ α) := by
  intro c b c' h
  cases h
  exact ha

theorem bind (hx : Yields P x) (hf : ∀ a, P a → Yields Q (f a)) :
    Yields Q (x >>= f) := by
  intro c b c' h
  obtain ⟨a, mid, hmid, hrest⟩ := EStateM.bind_eq_ok h
  exact hf a (hx c a mid hmid) mid b c' hrest

/-- Nothing has to be known of what comes first. -/
theorem bind_any (hf : ∀ a, Yields Q (f a)) : Yields Q (x >>= f) := by
  intro c b c' h
  obtain ⟨a, mid, -, hrest⟩ := EStateM.bind_eq_ok h
  exact hf a mid b c' hrest

end Yields

namespace Reading

variable {α : Type}

theorem bytes_eq_ok {count : Nat} {c c' : Cursor} {taken : Array UInt8}
    (h : bytes count c = .ok taken c') : c' = c.advance count := by
  unfold bytes at h
  split at h
  · cases h
  · cases h
    rfl

/-- What every turn keeps holds in the end. -/
theorem forRange_yields {P : α → Prop} {read : Nat → α → Reading α}
    (hstep : ∀ turn a, P a → Yields P (read turn a)) (left turn : Nat)
    {a : α} (ha : P a) :
    Yields P (forRange read left turn a) := by
  induction left generalizing turn a with
  | zero => exact .pure ha
  | succ left ih => exact (hstep turn a ha).bind fun _ hnext => ih (turn + 1) hnext

end Reading

namespace Decoding

variable {α : Type}

theorem ofReading_eq_ok {r : Reading α} {c c' : Cursor} {a : α}
    (h : (liftM r : Decoding α) c = .ok a c') : r c = .ok a c' := by
  change ofReading r c = _ at h
  unfold ofReading at h
  split at h
  · next hr =>
      cases h
      exact hr
  · cases h

theorem lift_of_ok {r : Reading α} {c c' : Cursor} {a : α} (h : r c = .ok a c') :
    (liftM r : Decoding α) c = .ok a c' := by
  change ofReading r c = _
  rw [ofReading, h]

theorem yields_lift {P : α → Prop} {r : Reading α} (h : Yields P r) :
    Yields P (liftM r : Decoding α) :=
  fun c a c' hlift => h c a c' (ofReading_eq_ok hlift)

theorem within_eq_ok {inner c c' : Cursor} {read : Decoding α} {r : α × Cursor}
    (h : within inner read c = .ok r c') : read inner = .ok r.1 r.2 ∧ c' = c := by
  unfold within at h
  split at h
  · next hread =>
      cases h
      exact ⟨hread, rfl⟩
  · cases h

theorem yields_within {P : α → Prop} {inner : Cursor} {read : Decoding α}
    (h : Yields P read) :
    Yields (fun r => P r.1) (within inner read) :=
  fun _ r _ hwithin => h inner r.1 r.2 (within_eq_ok hwithin).1

/-- What every turn keeps holds in the end. -/
theorem forRange_yields {P : Nat → α → Prop} {read : Nat → α → Decoding α}
    (hstep : ∀ turn a, P turn a → Yields (P (turn + 1)) (read turn a))
    (left turn : Nat) {a : α}
    (ha : P turn a) : Yields (P (turn + left)) (forRange read left turn a) := by
  induction left generalizing turn a with
  | zero => exact .pure ha
  | succ left ih =>
      refine (hstep turn a ha).bind fun next hnext => ?_
      rw [show turn + (left + 1) = turn + 1 + left by omega]
      exact ih (turn + 1) hnext

end Decoding

/-! ### Growth -/

/-- What a section of a number may change: signatures and functions are only added, and
imports, globals and codes come from sections of their own. -/
structure Module.Grows (id : UInt8) (m m' : Module) : Prop where
  types : ∃ more, m'.types = m.types ++ more
  functions : ∃ more, m'.functions = m.functions ++ more
  imports : id ≠ 2 → m'.imports = m.imports
  globals : id ≠ 6 → m'.globals = m.globals
  codes : id ≠ 10 → m'.codes = m.codes

namespace Module.Grows

variable {id : UInt8} {m m' m'' : Module}

theorem refl (id : UInt8) (m : Module) : m.Grows id m :=
  ⟨⟨#[], by simp⟩, ⟨#[], by simp⟩, fun _ => rfl, fun _ => rfl, fun _ => rfl⟩

theorem trans (h : m.Grows id m') (h' : m'.Grows id m'') : m.Grows id m'' := by
  obtain ⟨⟨types, htypes⟩, ⟨functions, hfunctions⟩, himports, hglobals, hcodes⟩ := h
  obtain ⟨⟨types', htypes'⟩, ⟨functions', hfunctions'⟩, himports',
    hglobals', hcodes'⟩ := h'
  refine ⟨⟨types ++ types', ?_⟩, ⟨functions ++ functions', ?_⟩, ?_, ?_, ?_⟩
  · rw [htypes', htypes, Array.append_assoc]
  · rw [hfunctions', hfunctions, Array.append_assoc]
  · exact fun hid => (himports' hid).trans (himports hid)
  · exact fun hid => (hglobals' hid).trans (hglobals hid)
  · exact fun hid => (hcodes' hid).trans (hcodes hid)

end Module.Grows

namespace Decoding

/-- A section grows the module if each of its entries does. -/
theorem entries_grows {id : UInt8} {add : Nat → Module → Decoding Module}
    (hadd : ∀ turn m, Yields (m.Grows id) (add turn m)) (m : Module) :
    Yields (m.Grows id) (entries add m) := by
  refine .bind_any fun count => ?_
  refine forRange_yields (P := fun _ => m.Grows id)
    (fun turn m' h => ?_) count 0 (.refl id m)
  exact fun c m'' c' hread => h.trans (hadd turn m' c m'' c' hread)

theorem types_grows (m : Module) : Yields (m.Grows 1) (types m) := by
  apply entries_grows
  refine fun turn m => .bind_any fun type => .pure ?_
  exact { Module.Grows.refl 1 m with types := ⟨#[type], Array.push_eq_append⟩ }

theorem imports_grows (m : Module) : Yields (m.Grows 2) (imports m) := by
  apply entries_grows
  refine fun turn m => .bind_any fun i => .pure ?_
  exact { Module.Grows.refl 2 m with imports := fun hid => absurd rfl hid }

theorem functions_grows (m : Module) : Yields (m.Grows 3) (functions m) := by
  apply entries_grows
  refine fun turn m => .bind_any fun index => .pure ?_
  exact { Module.Grows.refl 3 m with functions := ⟨#[index], Array.push_eq_append⟩ }

theorem globals_grows (m : Module) : Yields (m.Grows 6) (globals m) := by
  apply entries_grows
  refine fun turn m => .bind_any fun g => .pure ?_
  exact { Module.Grows.refl 6 m with globals := fun hid => absurd rfl hid }

theorem code_grows (turn : Nat) (m : Module) : Yields (m.Grows 10) (code turn m) := by
  refine .bind_any fun size => .bind_any fun entry => ?_
  split
  · rintro c m' c' ⟨⟩
  · split
    · rintro c m' c' ⟨⟩
    · refine .bind_any fun r => .pure ?_
      exact { Module.Grows.refl 10 m with codes := fun hid => absurd rfl hid }

theorem codes_grows (m : Module) : Yields (m.Grows 10) (codes m) := by
  refine .bind_any fun count => ?_
  split
  · rintro c m' c' ⟨⟩
  · refine forRange_yields (P := fun _ => m.Grows 10)
      (fun turn m' h => ?_) count 0 (.refl 10 m)
    exact fun c m'' c' hread => h.trans (code_grows turn m' c m'' c' hread)

theorem segments_grows (evaluate : List UInt8 → Except Halt Value) (m : Module) :
    Yields (m.Grows 11) (segments evaluate m) := by
  apply entries_grows
  refine fun turn m => .bind_any fun mode => .bind_any fun length =>
    .bind_any fun bytes => .pure ?_
  exact { Module.Grows.refl 11 m with }

/-- The sections that are read to the last byte, one by one. -/
theorem sectionReader_cases {evaluate : List UInt8 → Except Halt Value}
    {P : UInt8 → (Module → Decoding Module) → Prop} (htypes : P 1 types)
    (himports : P 2 imports) (hfunctions : P 3 functions) (hmemories : P 5 memories)
    (hglobals : P 6 globals) (hexports : P 7 exports) (hcodes : P 10 codes)
    (hsegments : P 11 (segments evaluate))
    (hcount : P 12 fun m => return { m with segmentCount := some (← Reading.u32) })
    (htags : P 13 tags) {id : UInt8} {read : Module → Decoding Module}
    (h : sectionReader evaluate id = some read) : P id read := by
  unfold sectionReader at h
  by_cases hid : id = 1
  · rw [if_pos hid] at h
    cases h
    exact hid ▸ htypes
  rw [if_neg hid] at h
  by_cases hid : id = 2
  · rw [if_pos hid] at h
    cases h
    exact hid ▸ himports
  rw [if_neg hid] at h
  by_cases hid : id = 3
  · rw [if_pos hid] at h
    cases h
    exact hid ▸ hfunctions
  rw [if_neg hid] at h
  by_cases hid : id = 5
  · rw [if_pos hid] at h
    cases h
    exact hid ▸ hmemories
  rw [if_neg hid] at h
  by_cases hid : id = 6
  · rw [if_pos hid] at h
    cases h
    exact hid ▸ hglobals
  rw [if_neg hid] at h
  by_cases hid : id = 7
  · rw [if_pos hid] at h
    cases h
    exact hid ▸ hexports
  rw [if_neg hid] at h
  by_cases hid : id = 10
  · rw [if_pos hid] at h
    cases h
    exact hid ▸ hcodes
  rw [if_neg hid] at h
  by_cases hid : id = 11
  · rw [if_pos hid] at h
    cases h
    exact hid ▸ hsegments
  rw [if_neg hid] at h
  by_cases hid : id = 12
  · rw [if_pos hid] at h
    cases h
    exact hid ▸ hcount
  rw [if_neg hid] at h
  by_cases hid : id = 13
  · rw [if_pos hid] at h
    cases h
    exact hid ▸ htags
  rw [if_neg hid] at h
  cases h

/-- Every section of a known number grows the module. -/
theorem sectionReader_grows {evaluate : List UInt8 → Except Halt Value} {id : UInt8}
    {read : Module → Decoding Module} (h : sectionReader evaluate id = some read)
    (m : Module) :
    Yields (m.Grows id) (read m) := by
  refine sectionReader_cases (P := fun id read => Yields (m.Grows id) (read m))
    (types_grows m) (imports_grows m) (functions_grows m) ?memories
    (globals_grows m) ?exports (codes_grows m)
    (segments_grows evaluate m) ?count ?tags h
  -- The other sections leave the five lists alone.
  case count => exact .bind_any fun _ => .pure { Module.Grows.refl 12 m with }
  case memories =>
    apply entries_grows
    exact fun _ m => .bind_any fun _ => .pure { Module.Grows.refl 5 m with }
  case exports =>
    apply entries_grows
    exact fun _ m => .bind_any fun _ => .pure { Module.Grows.refl 7 m with }
  case tags =>
    apply entries_grows
    exact fun _ m => .bind_any fun _ => .pure { Module.Grows.refl 13 m with }

/-! ### Whole modules -/

/-- A section of a number turns a module into another one. -/
inductive Contributes (evaluate : List UInt8 → Except Halt Value) (id : UInt8)
    (m m' : Module) : Prop
  | known {read contents after} (hreader : sectionReader evaluate id = some read)
      (hread : read m contents = .ok m' after)
  /-- A section that is skipped, or only looked into for names. -/
  | skipped {names} (hreader : sectionReader evaluate id = none)
      (hm : m' = { m with names })

theorem Contributes.grows {evaluate : List UInt8 → Except Halt Value}
    {id : UInt8} {m m' : Module} (h : Contributes evaluate id m m') :
    m.Grows id m' := by
  cases h with
  | known hreader hread => exact sectionReader_grows hreader m _ _ _ hread
  | skipped _ hm =>
      subst hm
      exact { Module.Grows.refl id m with }

/-- The numbers of the sections that follow, with fuel for each byte. -/
def sectionIds : (fuel : Nat) → Cursor → List UInt8
  | 0, _ => []
  | fuel + 1, c =>
    if c.isFinished then []
    else
      match Names.subsection c with
      | .ok (id, _) c => id :: sectionIds fuel c
      | .error _ _ => []

/-- A custom section changes at most the names. -/
theorem custom_names {m m' : Module} {c c' : Cursor} (h : custom m c = .ok m' c') :
    ∃ names, m' = { m with names } := by
  unfold custom at h
  obtain ⟨name, mid, -, h⟩ := EStateM.bind_eq_ok h
  split at h
  · obtain ⟨inner, mid, -, h⟩ := EStateM.bind_eq_ok h
    cases h
    exact ⟨_, rfl⟩
  · cases h
    exact ⟨m.names, rfl⟩

theorem oneSection_contributes {evaluate : List UInt8 → Except Halt Value}
    {m m' : Module} {c c' : Cursor} (h : oneSection evaluate m c = .ok m' c') :
    ∃ id contents, Names.subsection c = .ok (id, contents) c' ∧
      Contributes evaluate id m m' := by
  unfold oneSection at h
  obtain ⟨id, c₁, hid, hafterId⟩ := EStateM.bind_eq_ok h
  obtain ⟨size, c₂, hsize, hafterSize⟩ := EStateM.bind_eq_ok hafterId
  obtain ⟨start, c₃, hstart, hafterStart⟩ := EStateM.bind_eq_ok hafterSize
  obtain ⟨contents, c₄, hwindow, hcontents⟩ := EStateM.bind_eq_ok hafterStart
  cases ofReading_eq_ok hstart
  have hsubsection : Names.subsection c = .ok (id, contents) c₄ := by
    unfold Names.subsection
    rw [EStateM.bind_of_ok (ofReading_eq_ok hid),
      EStateM.bind_of_ok (ofReading_eq_ok hsize),
        EStateM.bind_of_ok (ofReading_eq_ok hwindow)]
    rfl
  cases hreader : sectionReader evaluate id with
  | some read =>
      rw [hreader] at hcontents
      obtain ⟨⟨next, after⟩, c₅, hwithin, hlast⟩ := EStateM.bind_eq_ok hcontents
      obtain ⟨hread, rfl⟩ := within_eq_ok hwithin
      dsimp only at hlast
      split at hlast
      · cases hlast
        exact ⟨id, contents, hsubsection, .known hreader hread⟩
      · cases hlast
  | none =>
      rw [hreader] at hcontents
      dsimp only at hcontents
      split at hcontents
      · obtain ⟨⟨next, after⟩, c₅, hwithin, hlast⟩ := EStateM.bind_eq_ok hcontents
        obtain ⟨hcustom, rfl⟩ := within_eq_ok hwithin
        cases hlast
        obtain ⟨names, hnames⟩ := custom_names hcustom
        exact ⟨id, contents, hsubsection, .skipped hreader hnames⟩
      · cases hcontents
        exact ⟨id, contents, hsubsection, .skipped hreader rfl⟩

/-- A section takes a byte at least. -/
theorem remaining_lt_of_subsection {c c' inner : Cursor} {id : UInt8}
    (h : Names.subsection c = .ok (id, inner) c') : c'.remaining < c.remaining := by
  obtain ⟨first, c₁, hfirst, hrest⟩ := EStateM.bind_eq_ok h
  obtain ⟨_, rfl, hahead, rfl⟩ := (Reading.byte_reads c first c₁).mp hfirst
  obtain ⟨size, c₂, hsize, hwindow⟩ := EStateM.bind_eq_ok hrest
  obtain ⟨sizeBytes, -, -, rfl⟩ := (Reading.u32_reads _ size c₂).mp hsize
  obtain ⟨window, c₃, hcontents, hpair⟩ := EStateM.bind_eq_ok hwindow
  cases hpair
  obtain ⟨base, c₄, hoffset, hbytes⟩ := EStateM.bind_eq_ok hcontents
  cases hoffset
  obtain ⟨taken, c₅, htaken, hdone⟩ := EStateM.bind_eq_ok hbytes
  cases hdone
  rw [Reading.bytes_eq_ok htaken]
  have hone := hahead.length_le
  rw [Cursor.length_rest] at hone
  simp only [Cursor.remaining, Cursor.bytes_advance, Cursor.pos_advance,
    List.length_singleton]
    at hone ⊢
  omega

theorem remaining_lt_of_oneSection {evaluate : List UInt8 → Except Halt Value}
    {m m' : Module}
    {c c' : Cursor} (h : oneSection evaluate m c = .ok m' c') :
    c'.remaining < c.remaining := by
  obtain ⟨id, contents, hsection, -⟩ := oneSection_contributes h
  exact remaining_lt_of_subsection hsection

theorem sections_succ {evaluate : List UInt8 → Except Halt Value}
    {fuel : Nat} {m : Module} {c : Cursor} : sections evaluate (fuel + 1) m c =
      if c.isFinished then .ok m c
      else (oneSection evaluate m >>= sections evaluate fuel) c := by
  rw [sections]
  change (if c.isFinished = true then _ else _ : Decoding Module) c = _
  split <;> rfl

/-- As much fuel as there are bytes is as good as any more. -/
theorem sections_eq_of_le {evaluate : List UInt8 → Except Halt Value} {fuel fuel' : Nat}
    {m : Module} {c : Cursor} (hfuel : c.remaining ≤ fuel)
    (hfuel' : c.remaining ≤ fuel') :
    sections evaluate fuel m c = sections evaluate fuel' m c := by
  induction fuel generalizing fuel' m c with
  | zero =>
      cases fuel' with
      | zero => rfl
      | succ fuel' =>
          rw [sections_succ,
            if_pos (Cursor.isFinished_iff_remaining.mpr (Nat.le_zero.mp hfuel))]
          rfl
  | succ fuel ih =>
      cases fuel' with
      | zero =>
          rw [sections_succ,
            if_pos (Cursor.isFinished_iff_remaining.mpr (Nat.le_zero.mp hfuel'))]
          rfl
      | succ fuel' =>
          rw [sections_succ, sections_succ]
          split
          · rfl
          cases hone : oneSection evaluate m c with
          | error h after => rw [EStateM.bind_of_error hone, EStateM.bind_of_error hone]
          | ok m' after =>
              have hless := remaining_lt_of_oneSection hone
              rw [EStateM.bind_of_ok hone, EStateM.bind_of_ok hone]
              exact ih (by omega) (by omega)

/-- One section, then the others. -/
theorem sections_of_ok {evaluate : List UInt8 → Except Halt Value} {m m' : Module}
    {c next : Cursor} (h : oneSection evaluate m c = .ok m' next) :
    sections evaluate c.remaining m c = sections evaluate next.remaining m' next := by
  have hless := remaining_lt_of_oneSection h
  have hmore : ¬ c.isFinished = true := by
    rw [Cursor.isFinished_iff_remaining]
    omega
  rw [sections_eq_of_le (Nat.le_refl _) (Nat.le_succ _), sections_succ, if_neg hmore,
    EStateM.bind_of_ok h, sections_eq_of_le (Nat.le_of_lt hless) (Nat.le_refl _)]

/-- Modules are decoded section by section.  What is known of a module may depend on the
sections still to come. -/
theorem sections_induction {evaluate : List UInt8 → Except Halt Value}
    {I : List UInt8 → Module → Prop}
    (hstep : ∀ {id ids m m'}, I (id :: ids) m → Contributes evaluate id m m' → I ids m')
    {fuel : Nat} {m m' : Module} {c c' : Cursor}
    (h : sections evaluate fuel m c = .ok m' c')
    (hm : I (sectionIds fuel c) m) : I [] m' := by
  induction fuel generalizing m c with
  | zero =>
      cases h
      exact hm
  | succ fuel ih =>
      rw [sectionIds] at hm
      rw [sections] at h
      obtain ⟨c₀, mid, hget, hrest⟩ := EStateM.bind_eq_ok h
      cases hget
      by_cases hfinished : c.isFinished = true
      · rw [if_pos hfinished] at hm hrest
        cases hrest
        exact hm
      · rw [if_neg hfinished] at hm hrest
        obtain ⟨next, mid, hone, hrest⟩ := EStateM.bind_eq_ok hrest
        obtain ⟨id, contents, hsection, hcontributes⟩ := oneSection_contributes hone
        rw [hsection] at hm
        exact ih hrest (hstep hm hcontributes)

end Decoding

/-- The header takes eight bytes. -/
theorem Reading.header_eq_ok {c c' : Cursor} (h : Reading.header c = .ok () c') :
    c' = c.advance 8 := by
  unfold Reading.header at h
  split at h
  · cases h
  · next magic c₁ hmagic =>
      split at h
      · cases h
      · split at h
        · cases h
        · next version c₂ hversion =>
            split at h
            · cases h
            · cases h
              rw [bytes_eq_ok hversion, bytes_eq_ok hmagic]
              rfl

namespace Module

/-- The numbers of the sections of a binary, in the order they come. -/
def sectionIds (bytes : Array UInt8) : List UInt8 :=
  let c := (Cursor.ofBytes bytes).advance 8
  Decoding.sectionIds c.remaining c

/-- What every section keeps holds of a module that has been decoded, which has as many
bodies as functions. -/
theorem decodeWith_induction {evaluate : List UInt8 → Except Halt Value}
    {I : List UInt8 → Module → Prop} {bytes : Array UInt8} {m : Module}
    (h : decodeWith evaluate bytes = .ok m) (hstart : I (sectionIds bytes) {})
    (hstep : ∀ {id ids m m'}, I (id :: ids) m → Decoding.Contributes evaluate id m m' →
      I ids m') :
    I [] m ∧ m.codes.size = m.functions.size := by
  unfold decodeWith at h
  split at h
  · next m' c' hwhole =>
      cases h
      unfold Decoding.wholeModule at hwhole
      obtain ⟨⟨⟩, c₁, hheader, hrest⟩ := EStateM.bind_eq_ok hwhole
      obtain rfl := Reading.header_eq_ok (Decoding.ofReading_eq_ok hheader)
      obtain ⟨c₂, c₃, hget, hsections⟩ := EStateM.bind_eq_ok hrest
      cases hget
      obtain ⟨m'', c₄, hall, hcheck⟩ := EStateM.bind_eq_ok hsections
      split at hcheck
      · next hsize =>
          cases hcheck
          exact ⟨Decoding.sections_induction hstep hall hstart, hsize⟩
      · cases hcheck
  · cases h

end Module

end WasmVm
