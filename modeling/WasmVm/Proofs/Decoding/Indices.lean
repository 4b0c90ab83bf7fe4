/-
Indices in decoded modules.  Every index of a signature that a module keeps was checked
when it was read, and signatures are only ever added; so it is in range in the end, in
whatever order the sections come.
-/
import WasmVm.Proofs.Decoding.Consistency

namespace WasmVm

/-- The type of a scope names no signature that is missing. -/
def BlockType.InRange (types : Array FuncType) : BlockType → Prop
  | func index => index < types.size
  | _ => True

/-- A call names a signature, and carries the numbers of its parameters and results. -/
def CallTarget.InRange (types : Array FuncType) (target : CallTarget) : Prop :=
  ∃ type, types[target.typeIndex]? = some type ∧ target.params = type.params.length ∧
    target.results = type.results.length

/-- The signatures that an instruction names exist. -/
def Item.InRange (types : Array FuncType) : Item → Prop
  | openScope _ type => type.InRange types
  | plain (.call target) => target.InRange types
  | _ => True

/-- The signatures that a body names anywhere exist. -/
def Node.InRange (types : Array FuncType) (root : Node) : Prop :=
  ∀ n, root.Contains n → n.item.InRange types

/-- Memories have no more pages than can be addressed, and bounds in order. -/
def Limits.Valid (l : Limits) : Prop :=
  l.min ≤ maxPages ∧ ∀ max, l.max = some max → l.min ≤ max ∧ max ≤ maxPages

/-- The signature that an import names exists, and a memory is of a valid size. -/
def ImportKind.InRange (types : Array FuncType) : ImportKind → Prop
  | function index | tag index => index < types.size
  | memory limits => limits.Valid
  | _ => True

/-! ### More signatures -/

section Growth

variable {types more : Array FuncType}

theorem BlockType.InRange.append {type : BlockType} (h : type.InRange types) :
    type.InRange (types ++ more) := by
  cases type with
  | func index => exact Nat.lt_of_lt_of_le h (by simp)
  | _ => trivial

theorem CallTarget.InRange.append {target : CallTarget} (h : target.InRange types) :
    target.InRange (types ++ more) := by
  obtain ⟨type, htype, hcounts⟩ := h
  obtain ⟨hlt, -⟩ := Array.getElem?_eq_some_iff.mp htype
  exact ⟨type, (Array.getElem?_append_left hlt).trans htype, hcounts⟩

theorem Node.InRange.append {root : Node} (h : root.InRange types) :
    root.InRange (types ++ more) := by
  intro n hn
  have hitem := h n hn
  generalize n.item = item at hitem ⊢
  cases item with
  | openScope kind type => exact BlockType.InRange.append hitem
  | plain instr =>
      cases instr with
      | call target => exact CallTarget.InRange.append hitem
      | _ => trivial
  | _ => trivial

theorem ImportKind.InRange.append {kind : ImportKind} (h : kind.InRange types) :
    kind.InRange (types ++ more) := by
  cases kind with
  | function index | tag index => exact Nat.lt_of_lt_of_le h (by simp)
  | memory limits => exact h
  | _ => trivial

end Growth

/-! ### Bodies -/

theorem Module.inRange_of_callTarget? {m : Module} {function : Nat}
    {target : CallTarget}
    (h : m.callTarget? function = some target) : target.InRange m.types := by
  unfold Module.callTarget? at h
  obtain ⟨typeIndex, -, h⟩ := Option.bind_eq_some_iff.mp h
  obtain ⟨type, htype, h⟩ := Option.bind_eq_some_iff.mp h
  cases h
  exact ⟨type, htype, rfl, rfl⟩

/-- An instruction is read with the signatures that there are. -/
theorem Item.Encodes.inRange {m : Module} {item : Item} {bytes : List UInt8}
    (h : item.Encodes m bytes) : item.InRange m.types := by
  obtain ⟨hop, hoperands⟩ := h
  next op front back =>
  generalize hlayout : op.layout = layout at hoperands
  cases hoperands with
  | @scope kind type i bytes hi htype =>
      cases type with
      | func index => exact htype.2
      | _ => trivial
  | call hn htarget => exact m.inRange_of_callTarget? htarget
  | access =>
      cases op <;> cases hlayout <;> trivial
  | index =>
      cases op <;> cases hlayout <;> trivial
  | bare =>
      cases op <;> cases hlayout <;> trivial
  | memories =>
      cases op <;> cases hlayout <;> trivial
  | _ => trivial

theorem BodyEncodes.inRange {m : Module} {type : BlockType} {root : Node}
    {bytes : List UInt8}
    (h : BodyEncodes m type root bytes) (htype : type.InRange m.types) :
    root.InRange m.types := by
  obtain ⟨items, nodes, hderives, heach, rfl⟩ := h
  intro n hn
  cases hn with
  | self => exact htype
  | body hchild hinner =>
      have hitem := List.mem_append_left [.close] (hderives.item_mem hchild hinner)
      obtain ⟨front, hfront⟩ := heach.exists_of_mem _ hitem
      exact hfront.inRange

/-! ### Modules -/

/-- Code names signatures that exist, and has locals for all parameters. -/
structure Code.InRange (types : Array FuncType) (code : Code) : Prop where
  body : code.body.InRange types
  root : ∃ typeIndex, code.body.blockType = .func typeIndex
  params : code.params ≤ code.locals.size

/-- The signatures that a module names exist, and its memories are of valid sizes. -/
structure Module.InRange (m : Module) : Prop where
  imports : ∀ i ∈ m.imports, i.kind.InRange m.types
  functions : ∀ typeIndex ∈ m.functions, typeIndex < m.types.size
  memories : ∀ limits ∈ m.memories, limits.Valid
  tags : ∀ typeIndex ∈ m.tags, typeIndex < m.types.size
  globals : ∀ g ∈ m.globals, g.body.InRange m.types
  codes : ∀ code ∈ m.codes, code.InRange m.types

namespace Reading

variable {m : Module}

theorem typeIndex_inRange (m : Module) : Yields (· < m.types.size) (typeIndex m) := by
  refine .bind_any fun start => .bind_any fun index => ?_
  split
  · next hindex => exact .pure hindex
  · rintro c a c' ⟨⟩

theorem memoryLimits_valid : Yields Limits.Valid memoryLimits := by
  refine .bind_any fun l => ?_
  split
  · rintro c a c' ⟨⟩
  · next hsize =>
      split
      · rintro c a c' ⟨⟩
      · next horder =>
          refine .pure ⟨by omega, fun max hmax => ?_⟩
          simp only [hmax, Option.any_some, decide_eq_true_eq] at hsize horder
          omega

theorem importEntry_inRange (m : Module) :
    Yields (fun i => i.kind.InRange m.types) (importEntry m) := by
  refine .bind_any fun module => .bind_any fun name => .bind_any fun kind => ?_
  split
  · exact (typeIndex_inRange m).bind fun index hindex => .pure hindex
  split
  · exact .bind_any fun _ => .bind_any fun limits => .pure trivial
  split
  · exact memoryLimits_valid.bind fun limits hlimits => .pure hlimits
  split
  · exact .bind_any fun type => .bind_any fun isMutable => .pure trivial
  split
  · exact .bind_any fun _ => (typeIndex_inRange m).bind fun index hindex => .pure hindex
  · rintro c a c' ⟨⟩

theorem tag_inRange (m : Module) : Yields (· < m.types.size) (tag m) :=
  .bind_any fun _ => typeIndex_inRange m

end Reading

namespace Module

variable {id : UInt8} {m : Module}

/-- More signatures do no harm. -/
theorem InRange.addTypes (hm : m.InRange) (more : Array FuncType) :
    { m with types := m.types ++ more }.InRange where
  imports i hi := (hm.imports i hi).append
  functions typeIndex hindex := Nat.lt_of_lt_of_le
    (hm.functions typeIndex hindex) (by simp)
  memories := hm.memories
  tags typeIndex hindex := Nat.lt_of_lt_of_le (hm.tags typeIndex hindex) (by simp)
  globals g hg := (hm.globals g hg).append
  codes code hcode :=
    ⟨(hm.codes code hcode).body.append, (hm.codes code hcode).root,
      (hm.codes code hcode).params⟩

end Module

namespace Decoding

variable {evaluate : List UInt8 → Except Halt Value} {id : UInt8} {m m' : Module}

/-- What every entry keeps is kept by the section. -/
theorem entries_keep {P : Module → Prop} {add : Nat → Module → Decoding Module}
    (hadd : ∀ turn m, P m → Yields P (add turn m)) (hm : P m) :
    Yields P (entries add m) :=
  .bind_any fun count => forRange_yields (P := fun _ => P) hadd count 0 hm

/-- What holds of a list still holds with one more of the kind. -/
theorem forall_mem_push {α : Type} {P : α → Prop} {items : Array α} {a : α}
    (hitems : ∀ b ∈ items, P b) (ha : P a) : ∀ b ∈ items.push a, P b := by
  intro b hb
  rcases Array.mem_push.mp hb with hb | rfl
  · exact hitems b hb
  · exact ha

theorem types_inRange (hm : m.InRange) : Yields Module.InRange (types m) := by
  refine entries_keep (fun turn m hm => .bind_any fun type => .pure ?_) hm
  have hmore := hm.addTypes #[type]
  rwa [← Array.push_eq_append] at hmore

theorem imports_inRange (hm : m.InRange) : Yields Module.InRange (imports m) := by
  refine entries_keep (fun turn m hm => ?_) hm
  refine (yields_lift (Reading.importEntry_inRange m)).bind fun i hi => .pure ?_
  exact { hm with imports := forall_mem_push hm.imports hi }

theorem functions_inRange (hm : m.InRange) : Yields Module.InRange (functions m) := by
  refine entries_keep (fun turn m hm => ?_) hm
  refine (yields_lift (Reading.typeIndex_inRange m)).bind fun index hindex => .pure ?_
  exact { hm with functions := forall_mem_push hm.functions hindex }

theorem memories_inRange (hm : m.InRange) : Yields Module.InRange (memories m) := by
  refine entries_keep (fun turn m hm => ?_) hm
  refine (yields_lift Reading.memoryLimits_valid).bind fun limits hlimits => .pure ?_
  exact { hm with memories := forall_mem_push hm.memories hlimits }

theorem tags_inRange (hm : m.InRange) : Yields Module.InRange (tags m) := by
  refine entries_keep (fun turn m hm => ?_) hm
  refine (yields_lift (Reading.tag_inRange m)).bind fun index hindex => .pure ?_
  exact { hm with tags := forall_mem_push hm.tags hindex }

theorem globals_inRange (hm : m.InRange) : Yields Module.InRange (globals m) := by
  refine entries_keep (fun turn m hm => ?_) hm
  refine (yields_lift (Reading.global_encodes m)).bind fun g hg => .pure ?_
  obtain ⟨bytes, hbytes⟩ := hg
  exact { hm with globals := forall_mem_push hm.globals (hbytes.inRange trivial) }

theorem exports_inRange (hm : m.InRange) : Yields Module.InRange (exports m) :=
  entries_keep (fun _ _ hm => .bind_any fun _ => .pure { hm with }) hm

theorem segments_inRange (hm : m.InRange) :
    Yields Module.InRange (segments evaluate m) :=
  entries_keep (fun _ _ hm => .bind_any fun _ => .bind_any fun _ => .bind_any fun _ =>
    .pure { hm with }) hm

/-- Code that fits its function is read against a signature that exists. -/
theorem code_inRange (turn : Nat) (hm : m.InRange) :
    Yields Module.InRange (code turn m) := by
  intro c m' c' hread
  obtain ⟨code, typeIndex, type, rfl, hfunction, -, hfits, bytes, hbytes⟩ :=
    code_yields turn m c m' c' hread
  have htype := hm.functions typeIndex (Array.mem_of_getElem? hfunction)
  have hparams : code.params ≤ code.locals.size := by
    have hlength := congrArg List.length hfits.locals
    rw [List.length_take, ← hfits.params, Array.length_toList] at hlength
    omega
  have hcode : code.InRange m.types :=
    ⟨hbytes.inRange htype, ⟨typeIndex, hfits.body⟩, hparams⟩
  exact { hm with codes := forall_mem_push hm.codes hcode }

theorem codes_inRange (hm : m.InRange) : Yields Module.InRange (codes m) := by
  refine .bind_any fun count => ?_
  split
  · rintro c m' c' ⟨⟩
  · exact forRange_yields (P := fun _ => Module.InRange)
      (fun turn m hm => code_inRange turn hm) count 0 hm

/-- Every section keeps what the module names in range. -/
theorem Contributes.inRange (h : Contributes evaluate id m m') (hm : m.InRange) :
    m'.InRange := by
  cases h with
  | skipped hreader hnames =>
      subst hnames
      exact { hm with }
  | @known read contents after hreader hread =>
      have hkeeps : Yields Module.InRange (read m) :=
        sectionReader_cases (P := fun _ read => Yields Module.InRange (read m))
          (types_inRange hm) (imports_inRange hm) (functions_inRange hm)
          (memories_inRange hm) (globals_inRange hm) (exports_inRange hm)
          (codes_inRange hm) (segments_inRange hm)
          (.bind_any fun _ => .pure { hm with }) (tags_inRange hm) hreader
      exact hkeeps _ _ _ hread

end Decoding

namespace Module

variable {m : Module} {function : Nat}

/-- What a decoded module names is in range. -/
theorem decodeWith_inRange {evaluate : List UInt8 → Except Halt Value}
    {bytes : Array UInt8}
    (h : decodeWith evaluate bytes = .ok m) : m.InRange ∧
    m.codes.size = m.functions.size := by
  have hstart : InRange {} :=
    ⟨by simp, by simp, by simp, by simp, by simp, by simp⟩
  exact decodeWith_induction (I := fun _ => InRange) h hstart fun hm hsection =>
    hsection.inRange hm

/-- Every function has a signature. -/
theorem InRange.functionType?_eq_some (hm : m.InRange)
    (hfunction : function < m.importedFunctions + m.functions.size) :
    ∃ type, m.functionType? function = some type := by
  suffices hindex : ∃ typeIndex, m.functionTypeIndex? function = some typeIndex ∧
      typeIndex < m.types.size by
    obtain ⟨typeIndex, hindex, hlt⟩ := hindex
    exact ⟨m.types[typeIndex], by
      rw [functionType?, hindex]; exact Array.getElem?_eq_getElem hlt⟩
  unfold functionTypeIndex?
  cases himport : m.functionImport? function with
  | some i =>
      have hmem : i ∈ m.functionImports := List.mem_of_getElem? himport
      obtain ⟨hi, hkind⟩ := List.mem_filter.mp hmem
      have hrange := hm.imports i (Array.mem_toList_iff.mp hi)
      cases hcases : i.kind with
      | function typeIndex =>
          rw [hcases] at hrange
          exact ⟨typeIndex, by simp [ImportKind.functionType?, hcases], hrange⟩
      | _ => simp [ImportKind.functionType?, hcases] at hkind
  | none =>
      have hlocal : m.importedFunctions ≤ function :=
        List.getElem?_eq_none_iff.mp himport
      have hlt : function - m.importedFunctions < m.functions.size := by omega
      refine ⟨m.functions[function - m.importedFunctions],
        Array.getElem?_eq_getElem hlt, ?_⟩
      exact hm.functions _ (Array.getElem_mem hlt)

/-- Every function is either imported or has a body. -/
theorem isSome_code?_eq (hsize : m.codes.size = m.functions.size)
    (hfunction : function < m.importedFunctions + m.functions.size) :
    (m.code? function).isSome = !(m.functionImport? function).isSome := by
  unfold code? functionImport? importedFunctions
  unfold importedFunctions at hfunction
  split
  · next himported => simp [himported]
  · next hlocal =>
      rw [Array.getElem?_eq_getElem (by omega), List.getElem?_eq_none (by omega)]
      rfl

/-- A function with a body is one of those defined. -/
theorem lt_of_code? (hsize : m.codes.size = m.functions.size) {code : Code}
    (hcode : m.code? function = some code) :
    function < m.importedFunctions + m.functions.size := by
  unfold code? at hcode
  split at hcode
  · cases hcode
  · have hlt := (Array.getElem?_eq_some_iff.mp hcode).1
    omega

end Module

end WasmVm
