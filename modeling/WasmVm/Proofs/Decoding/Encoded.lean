/-
Sections of encoded modules.  Each section is read back whole, against the sections
before it, and the sections together give the module back.  How offsets are evaluated
is left open.
-/
import WasmVm.Proofs.Decoding.Format

namespace WasmVm

open Leb128

/-! ### What bodies depend on -/

/-- Modules in which the same bodies can be read: bodies name signatures and functions.
-/
structure Module.SameFunctions (m m' : Module) : Prop where
  types : m'.types = m.types
  imports : m'.imports = m.imports
  functions : m'.functions = m.functions

namespace Module.SameFunctions

variable {m m' : Module}

theorem callTarget?_eq (h : m.SameFunctions m') (function : Nat) :
    m'.callTarget? function = m.callTarget? function := by
  simp only [callTarget?, functionTypeIndex?, functionImport?, importedFunctions,
    functionImports, h.types, h.imports, h.functions]

end Module.SameFunctions

/-- An instruction depends on its module in the signature of a scope and the callee of
a call. -/
theorem Item.Encodes.congr {m m' : Module} {item : Item} {bytes : List UInt8}
    (h : item.Encodes m bytes)
    (htypes : ∀ kind index, item = .openScope kind (.func index) →
      index < m.types.size →
      index < m'.types.size)
    (hcalls : ∀ function target, item = .plain (.call target) →
      m.callTarget? function = some target → m'.callTarget? function = some target) :
    item.Encodes m' bytes := by
  obtain ⟨hop, hoperands⟩ := h
  refine .mk hop ?_
  generalize Opcode.layout _ = layout at hoperands ⊢
  cases hoperands with
  | @scope kind type i bytes hi htype =>
      refine .scope hi ?_
      cases type with
      | func index => exact ⟨htype.1, htypes kind index rfl htype.2⟩
      | value t => cases t <;> exact htype
      | empty => exact htype
  | call hn htarget => exact .call hn (hcalls _ _ rfl htarget)
  | bare => exact .bare
  | index hn => exact .index hn
  | access halign hoffset => exact .access halign hoffset
  | memories => exact .memories
  | segment hn => exact .segment hn
  | branchTable hcount htargets hfallback =>
      exact .branchTable hcount htargets hfallback
  | callIndirect htype htable => exact .callIndirect htype htable
  | types hcount hkept => exact .types hcount hkept
  | const hv => exact .const hv

theorem Module.SameFunctions.item_encodes {m m' : Module}
    (h : m.SameFunctions m') {item : Item} {bytes : List UInt8}
    (hitem : item.Encodes m bytes) : item.Encodes m' bytes :=
  hitem.congr (fun _ _ _ hindex => h.types ▸ hindex)
    (fun function _ _ htarget => (h.callTarget?_eq function).trans htarget)

/-- Items that can be encoded in one way can be encoded in any other that allows as
much. -/
theorem Each.of_forall_mem {α : Type} {E F : α → List UInt8 → Prop} {as : List α}
    {bytes : List UInt8} (h : Each E as bytes)
    (hmem : ∀ a ∈ as, ∀ front, E a front → F a front) : Each F as bytes := by
  induction h with
  | nil => exact .nil
  | cons hfront _ ih =>
      obtain ⟨hfirst, hrest⟩ := List.forall_mem_cons.mp hmem
      exact .cons (hfirst _ hfront) (ih hrest)

theorem Each.mono {α : Type} {E F : α → List UInt8 → Prop}
    (hmono : ∀ a bytes, E a bytes → F a bytes) {as : List α} {bytes : List UInt8}
    (h : Each E as bytes) : Each F as bytes :=
  h.of_forall_mem fun a _ => hmono a

theorem Module.SameFunctions.body_encodes {m m' : Module} (h : m.SameFunctions m')
    {type : BlockType} {root : Node} {bytes : List UInt8}
    (hbody : BodyEncodes m type root bytes) :
    BodyEncodes m' type root bytes := by
  obtain ⟨items, nodes, hderives, heach, hroot⟩ := hbody
  exact ⟨items, nodes, hderives, heach.mono fun _ _ => h.item_encodes, hroot⟩

theorem ListEncodes.mono {α : Type} {E F : α → List UInt8 → Prop}
    (hmono : ∀ a bytes, E a bytes → F a bytes) {id : UInt8} {as : List α}
    {bytes : List UInt8}
    (h : ListEncodes id E as bytes) : ListEncodes id F as bytes := by
  rcases h with hnone | ⟨size, contents, hbytes, hsize, count, back,
    hcontents, hcount, heach⟩
  · exact .inl hnone
  · exact .inr ⟨size, contents, hbytes, hsize, count, back, hcontents, hcount,
      heach.mono hmono⟩

namespace Module.SameFunctions

variable {m m' : Module} {bytes : List UInt8}

theorem global_encodes (h : m.SameFunctions m') {g : Global} (hg : g.Encodes m bytes) :
    g.Encodes m' bytes :=
  ⟨hg.1, h.body_encodes hg.2⟩

theorem code_encodes (h : m.SameFunctions m') {typeIndex : Nat} {code : Code}
    (hcode : code.Encodes m typeIndex bytes) : code.Encodes m' typeIndex bytes := by
  obtain ⟨type, groups, size, declarations, body, hbytes, hsize, htype,
    hparams, hlocals, hmax, hgroups, hbody⟩ := hcode
  exact ⟨type, groups, size, declarations, body, hbytes, hsize, h.types ▸ htype,
    hparams, hlocals, hmax, hgroups, h.body_encodes hbody⟩

end Module.SameFunctions

theorem Import.Encodes.congr {m m' : Module} (htypes : m'.types = m.types) {i : Import}
    {bytes : List UInt8} (h : i.Encodes m bytes) : i.Encodes m' bytes := by
  obtain ⟨module, name, kind, hbytes, hmodule, hname, hkind⟩ := h
  refine ⟨module, name, kind, hbytes, hmodule, hname, ?_⟩
  generalize i.kind = kind at hkind ⊢
  cases hkind with
  | function hindex => exact .function ⟨hindex.1, htypes ▸ hindex.2⟩
  | table hlimits => exact .table hlimits
  | memory hlimits => exact .memory hlimits
  | global => exact .global
  | tag hindex => exact .tag ⟨hindex.1, htypes ▸ hindex.2⟩

/-! ### Sections -/

namespace Decoding

variable {evaluate : List UInt8 → Except Halt Value} {m m' r : Module}

/-- Entries are read one after the other; `s` is the module with some of them. -/
theorem forRange_accepts {α : Type} {E : α → List UInt8 → Prop} {as : List α}
    {add : Nat → Module → Decoding Module} {s : List α → Module}
    (hadd : ∀ before a bytes, before ++ [a] <+: as → E a bytes →
      Accepts (add before.length (s before)) (s (before ++ [a])) bytes)
    (before : List α) {after : List α} {bytes : List UInt8}
    (hafter : Each E after bytes) (has : before ++ after = as) :
    Accepts (forRange add after.length before.length (s before)) (s as) bytes := by
  induction hafter generalizing before with
  | nil =>
      rw [← has, List.append_nil]
      exact .pure _
  | @cons a after front back hfront _ ih =>
      rw [List.append_cons] at has
      refine (hadd before a front ⟨after, has⟩ hfront).bind ?_
      have hrest := ih _ has
      rwa [List.length_append] at hrest

/-- Bytes that are ahead are split off as they are. -/
theorem window_of_ahead {contents : List UInt8} {c : Cursor}
    (hahead : contents <+: c.rest) :
    Reading.window contents.length c =
      .ok ⟨contents.toArray, 0, c.offset⟩ (c.advance contents.length) := by
  have hbytes : Reading.bytes contents.length c = .ok contents.toArray
      (c.advance contents.length) :=
    (Reading.bytes_reads _).accepts ⟨rfl, rfl⟩ c hahead
  unfold Reading.window
  rw [EStateM.bind_of_ok (show Reading.offset c = .ok c.offset c from rfl),
    EStateM.bind_of_ok hbytes]
  rfl

/-- A window of its own for some bytes. -/
theorem window_bind_accepts {β : Type} {f : Cursor → Decoding β} {b : β}
    {contents : List UInt8}
    (hf : ∀ base, Accepts (f ⟨contents.toArray, 0, base⟩) b []) :
    Accepts (liftM (Reading.window contents.length) >>= f) b contents := by
  intro c hahead
  rw [EStateM.bind_of_ok (lift_of_ok (window_of_ahead hahead)), hf _ _ List.nil_prefix]
  rfl

theorem within_bind_accepts {α β : Type} {read : Decoding α}
    {inner after : Cursor} {a : α} {b : β} {f : α × Cursor → Decoding β}
    {bytes : List UInt8} (h : read inner = .ok a after)
    (hf : Accepts (f (a, after)) b bytes) :
    Accepts (within inner read >>= f) b bytes := by
  intro c hahead
  have hwithin : within inner read c = .ok (a, after) c := by rw [within, h]
  rw [EStateM.bind_of_ok hwithin, hf c hahead]

/-- A section that is read to its last byte. -/
theorem oneSection_accepts {id : UInt8} {read : Module → Decoding Module}
    (hreader : sectionReader evaluate id = some read) {size contents : List UInt8}
    (hsize : U32 contents.length size) (hread : Accepts (read m) m' contents) :
    Accepts (oneSection evaluate m) m' (id :: (size ++ contents)) := by
  refine Accepts.bind_cons (Reading.byte_reads.accepts rfl).lift ?_
  refine (Reading.u32_accepts hsize).lift.bind ?_
  refine Accepts.lift_offset_bind fun start => window_bind_accepts fun base => ?_
  rw [hreader]
  obtain ⟨after, hafter, hrest⟩ := hread.ok_of_rest (c := ⟨contents.toArray, 0, base⟩)
    (List.append_nil contents).symm
  refine within_bind_accepts hafter ?_
  dsimp only
  rw [if_pos (Cursor.isFinished_iff.mpr hrest)]
  exact .pure m'

/-- What some bytes do to a module: nothing if there are none, or what a section does.
-/
def Extends (evaluate : List UInt8 → Except Halt Value) (m m' : Module)
    (bytes : List UInt8) : Prop :=
  (m' = m ∧ bytes = []) ∨ Accepts (oneSection evaluate m) m' bytes

/-- Sections that lead from a module to another one, to the end of the input. -/
def Completes (evaluate : List UInt8 → Except Halt Value) (m r : Module)
    (bytes : List UInt8) : Prop :=
  ∀ c, c.rest = bytes → ∃ after, sections evaluate c.remaining m c = .ok r after

theorem completes_nil : Completes evaluate m m [] := by
  intro c hrest
  rw [← Cursor.length_rest, hrest]
  exact ⟨c, rfl⟩

/-- Sections are read one after the other. -/
theorem Extends.completes {front back : List UInt8} (h : Extends evaluate m m' front)
    (hback : Completes evaluate m' r back) :
    Completes evaluate m r (front ++ back) := by
  intro c hrest
  rcases h with ⟨rfl, rfl⟩ | hsection
  · exact hback c hrest
  obtain ⟨next, hnext, hrest'⟩ := hsection.ok_of_rest hrest
  rw [sections_of_ok hnext]
  exact hback next hrest'

/-- A list that is read entry by entry; `s` is the module with some of the entries. -/
theorem extends_of_entries {α : Type} {E : α → List UInt8 → Prop}
    {as : List α} {id : UInt8}
    {bytes : List UInt8} {add : Nat → Module → Decoding Module} {s : Array α → Module}
    (hreader : sectionReader evaluate id = some (entries add))
    (hadd : ∀ turn (before : List α) a bytes, a ∈ as → E a bytes →
      Accepts (add turn (s before.toArray)) (s (before.toArray.push a)) bytes)
    (h : ListEncodes id E as bytes) : Extends evaluate (s #[])
    (s as.toArray) bytes := by
  rcases h with ⟨rfl, rfl⟩ | ⟨size, contents, rfl, hsize, hcounted⟩
  · exact .inl ⟨rfl, rfl⟩
  obtain ⟨count, back, rfl, hcount, heach⟩ := hcounted
  refine .inr (oneSection_accepts hreader hsize
    ((Reading.u32_accepts hcount).lift.bind ?_))
  refine forRange_accepts (s := fun as => s as.toArray)
    (fun before a bytes hin ha => ?_) [] heach rfl
  rw [← List.push_toArray]
  exact hadd before.length before a bytes (hin.subset (by simp)) ha

/-! ### The sections one by one -/

variable {bytes : List UInt8}

theorem types_extends (h : ListEncodes 1 FuncType.Encodes m.types.toList bytes) :
    Extends evaluate { m with types := #[] } m bytes :=
  extends_of_entries (s := fun types => { m with types }) rfl
    (fun _ _ _ _ _ htype => (Reading.funcType_accepts htype).lift.bind_pure) h

theorem imports_extends (h : ListEncodes 2 (Import.Encodes m) m.imports.toList bytes) :
    Extends evaluate { m with imports := #[] } m bytes :=
  extends_of_entries (s := fun imports => { m with imports }) rfl
    (fun _ _ _ _ _ hi => (Reading.importEntry_accepts (hi.congr rfl)).lift.bind_pure) h

theorem functions_extends
    (h : ListEncodes 3 (TypeIndexEncodes m) m.functions.toList bytes) :
    Extends evaluate { m with functions := #[] } m bytes :=
  extends_of_entries (s := fun functions => { m with functions }) rfl
    (fun _ _ _ _ _ hindex => (Reading.typeIndex_accepts hindex).lift.bind_pure) h

theorem memories_extends (h : ListEncodes 5 MemoryEncodes m.memories.toList bytes) :
    Extends evaluate { m with memories := #[] } m bytes :=
  extends_of_entries (s := fun memories => { m with memories }) rfl
    (fun _ _ _ _ _ hlimits => (Reading.memoryLimits_accepts hlimits).lift.bind_pure) h

theorem tags_extends (h : ListEncodes 13 (TagEncodes m) m.tags.toList bytes) :
    Extends evaluate { m with tags := #[] } m bytes :=
  extends_of_entries (s := fun tags => { m with tags }) rfl
    (fun _ _ _ _ _ htag => (Reading.tag_accepts htag).lift.bind_pure) h

theorem globals_extends (h : ListEncodes 6 (Global.Encodes m) m.globals.toList bytes) :
    Extends evaluate { m with globals := #[] } m bytes := by
  refine extends_of_entries (s := fun globals => { m with globals }) rfl
    (fun _ _ _ _ _ hg => ?_) h
  have hsame (globals : Array Global) : m.SameFunctions { m with globals } :=
    ⟨rfl, rfl, rfl⟩
  exact (Reading.global_accepts ((hsame _).global_encodes hg)).lift.bind_pure

theorem exports_extends (h : ListEncodes 7 Export.Encodes m.exports.toList bytes) :
    Extends evaluate { m with exports := #[] } m bytes :=
  extends_of_entries (s := fun exports => { m with exports }) rfl
    (fun _ _ _ _ _ he => (Reading.exportEntry_accepts he).lift.bind_pure) h

theorem count_extends (h : CountEncodes m.segmentCount bytes) :
    Extends evaluate { m with segmentCount := none } m bytes := by
  cases hcount : m.segmentCount with
  | none =>
      rw [hcount] at h
      exact .inl ⟨by rw [← hcount], h⟩
  | some count =>
      rw [hcount] at h
      obtain ⟨size, contents, rfl, hsize, hnumber⟩ := h
      refine .inr (oneSection_accepts rfl hsize ?_)
      have hread := (Reading.u32_accepts hnumber).lift.bind_pure
        (g := fun count => { m with segmentCount := some count })
      rwa [← hcount] at hread

/-- A code entry is read against the signature of the function that has its number. -/
theorem code_eq {turn typeIndex : Nat} {type : FuncType}
    (hfunction : m.functions[turn]? = some typeIndex)
    (htype : m.types[typeIndex]? = some type) :
    Decoding.code turn m = (do
      let size ← Reading.u32
      let entry ← Reading.window size
      let (code, _) ← within entry
        (Reading.code m (m.importedFunctions + turn) typeIndex type)
      return { m with codes := m.codes.push code }) := by
  simp only [Decoding.code, hfunction, htype]

/-- An entry is added if its contents can be read wherever they lie. -/
theorem code_accepts_of_rest {turn typeIndex : Nat} {type : FuncType} {code : Code}
    {size entry : List UInt8} (hfunction : m.functions[turn]? = some typeIndex)
    (htype : m.types[typeIndex]? = some type) (hsize : U32 entry.length size)
    (hcode : ∀ c : Cursor, c.rest = entry → ∃ after,
      Reading.code m (m.importedFunctions + turn) typeIndex type c = .ok code after) :
    Accepts (Decoding.code turn m) { m with codes := m.codes.push code }
      (size ++ entry) := by
  rw [code_eq hfunction htype]
  refine (Reading.u32_accepts hsize).lift.bind (window_bind_accepts fun base => ?_)
  obtain ⟨after, hafter⟩ := hcode ⟨entry.toArray, 0, base⟩ rfl
  exact within_bind_accepts (lift_of_ok hafter) (.pure _)

/-- The code of a function that has been declared. -/
theorem code_accepts {turn typeIndex : Nat} {code : Code}
    (hfunction : m.functions[turn]? = some typeIndex)
    (h : code.Encodes m typeIndex bytes) :
    Accepts (Decoding.code turn m) { m with codes := m.codes.push code } bytes := by
  obtain ⟨type, groups, size, declarations, body, rfl, hsize, htype,
    hparams, hlocals, hmax, hgroups, hbody⟩ := h
  exact code_accepts_of_rest hfunction htype hsize fun _ hrest =>
    Reading.code_of_rest _ hparams hlocals (fun _ => hmax) hgroups hbody hrest

theorem codes_extends (hsize : m.codes.size = m.functions.size)
    (h : ListEncodes 10 (fun entry => Code.Encodes m entry.1 entry.2)
      (m.functions.toList.zip m.codes.toList) bytes) :
    Extends evaluate { m with codes := #[] } m bytes := by
  -- The state after some entries; each of them is a function's signature and its code.
  let state (entries : List (Nat × Code)) : Module :=
    { m with codes := (entries.map (·.2)).toArray }
  have hall : state (m.functions.toList.zip m.codes.toList) = m := by
    have hcodes : (m.functions.toList.zip m.codes.toList).map (·.2) = m.codes.toList :=
      List.map_snd_zip (by simp [hsize])
    simp only [state, hcodes]
  have hlength : (m.functions.toList.zip m.codes.toList).length = m.functions.size := by
    simp [hsize]
  rcases h with ⟨hnone, rfl⟩ | ⟨size, contents, rfl, hsize, count, back,
    rfl, hcount, heach⟩
  · rw [hnone] at hall
    exact .inl ⟨hall.symm, rfl⟩
  refine .inr (oneSection_accepts rfl hsize ((Reading.u32_accepts hcount).lift.bind ?_))
  rw [if_neg (fun hne => hne hlength)]
  suffices hread :
      Accepts (forRange code (m.functions.toList.zip m.codes.toList).length 0
        (state [])) (state (m.functions.toList.zip m.codes.toList)) back by
    rwa [hall] at hread
  refine forRange_accepts (s := state) (fun before entry bytes hbefore hentry =>
    ?_) [] heach rfl
  have hsame : m.SameFunctions (state before) := ⟨rfl, rfl, rfl⟩
  have hfunction : (state before).functions[before.length]? = some entry.1 := by
    have hzip : (m.functions.toList.zip m.codes.toList)[before.length]? =
        some entry := by
      obtain ⟨after, hafter⟩ := hbefore
      rw [← hafter, List.append_assoc, List.getElem?_append_right (Nat.le_refl _),
        Nat.sub_self]
      rfl
    rw [← Array.getElem?_toList]
    exact (List.getElem?_zip_eq_some.mp hzip).1
  have hcode := code_accepts hfunction (hsame.code_encodes hentry)
  have hpush : (state before).codes.push entry.2 =
      ((before ++ [entry]).map (·.2)).toArray := by
    simp [state]
  rwa [hpush] at hcode

end Decoding

/-! ### Offsets -/

/-- The bytes of an `i32.const` and an `end` are a body of any type. -/
theorem bodyEncodes_const (m : Module) (type : BlockType) {i : Int}
    {number : List UInt8}
    (hnumber : Signed 5 i number) (hrange : -2 ^ 31 ≤ i ∧ i < 2 ^ 31) :
    BodyEncodes m type
      (.scope 0 .block type [.plain 1 (.const (.i32 (BitVec.ofInt 32 i)))] none)
      (0x41 :: (number ++ [0x0b])) := by
  have hconst : Item.Encodes m (.plain (.const (.i32 (BitVec.ofInt 32 i))))
      ([0x41] ++ number) := by
    have hop : (Opcode.const .i32).Encodes [0x41] := .single rfl
    exact .mk hop (.const (v := .i32 _) ⟨i, hnumber, hrange, rfl⟩)
  have hend : Item.Encodes m .close ([0x0b] ++ []) := by
    have hop : Opcode.endScope.Encodes [0x0b] := .single rfl
    exact .mk hop .bare
  refine ⟨[.plain (.const (.i32 (BitVec.ofInt 32 i)))], _,
    .single (.plain rfl), ?_, rfl⟩
  exact .cons hconst (.cons hend .nil)

/-- An evaluator that knows the constants. -/
def EvaluatesConstants (evaluate : List UInt8 → Except Halt Value) : Prop :=
  ∀ i number, Signed 5 i number → -2 ^ 31 ≤ i ∧ i < 2 ^ 31 →
    evaluate (0x41 :: (number ++ [0x0b])) = .ok (.i32 (BitVec.ofInt 32 i))

namespace Decoding

variable {evaluate : List UInt8 → Except Halt Value} {m : Module} {bytes : List UInt8}

theorem activeOffset_accepts (hevaluate : EvaluatesConstants evaluate)
    {segment offset : Nat}
    (h : OffsetEncodes offset bytes) :
    Accepts (activeOffset evaluate m segment) offset bytes := by
  obtain ⟨i, number, rfl, hnumber, hrange, rfl⟩ := h
  intro c hahead
  have hbody (owner : String) := (Reading.body_reads m owner (.value .i32)).accepts
    (bodyEncodes_const m (.value .i32) hnumber hrange) c hahead
  unfold activeOffset
  rw [EStateM.get_bind, EStateM.bind_of_ok (lift_of_ok (hbody _)), EStateM.get_bind,
    Cursor.since_advance hahead, hevaluate i number hnumber hrange]
  rfl

theorem dataMode_accepts (hevaluate : EvaluatesConstants evaluate) {segment : Nat}
    {mode : DataMode} (h : mode.Encodes bytes) :
    Accepts (dataMode evaluate m segment) mode bytes := by
  cases h with
  | first hflags hoffset =>
      exact (Reading.u32_accepts hflags).lift.bind
        (activeOffset_accepts hevaluate hoffset).bind_pure
  | passive hflags => exact (Reading.u32_accepts hflags).lift.bind_empty (.pure _)
  | named hflags hmemory hoffset =>
      refine (Reading.u32_accepts hflags).lift.bind
        ((Reading.u32_accepts hmemory).lift.bind ?_)
      exact (activeOffset_accepts hevaluate hoffset).bind_pure

theorem segments_extends (hevaluate : m.segments ≠ #[] → EvaluatesConstants evaluate)
    (h : ListEncodes 11 DataSegment.Encodes m.segments.toList bytes) :
    Extends evaluate { m with segments := #[] } m bytes := by
  refine extends_of_entries (s := fun segments => { m with segments }) rfl
    (fun turn before segment bytes hmem hsegment => ?_) h
  have hsome : m.segments ≠ #[] := by
    intro hnone
    have hin : segment ∈ m.segments.toList := hmem
    simp [hnone] at hin
  obtain ⟨mode, size, rfl, hmode, hsize⟩ := hsegment
  refine (dataMode_accepts (hevaluate hsome) hmode).bind
    ((Reading.u32_accepts hsize).lift.bind ?_)
  have hbytes : Accepts (Reading.bytes segment.bytes.length) segment.bytes.toArray
      segment.bytes :=
    (Reading.bytes_reads _).accepts ⟨rfl, rfl⟩
  exact hbytes.lift.bind_pure

theorem header_accepts : Accepts Reading.header ()
    [0x00, 0x61, 0x73, 0x6d, 1, 0, 0, 0] := by
  intro c hahead
  have hmagic : Accepts (Reading.bytes 4) #[0x00, 0x61, 0x73, 0x6d]
      [0x00, 0x61, 0x73, 0x6d] :=
    (Reading.bytes_reads 4).accepts ⟨rfl, rfl⟩
  have hversion : Accepts (Reading.bytes 4) #[1, 0, 0, 0] [1, 0, 0, 0] :=
    (Reading.bytes_reads 4).accepts ⟨rfl, rfl⟩
  obtain ⟨hfirst, hsecond⟩ := Cursor.prefix_rest_append.mp
    (show [0x00, 0x61, 0x73, 0x6d] ++ [1, 0, 0, 0] <+: c.rest from hahead)
  unfold Reading.header
  rw [hmagic c hfirst]
  dsimp only
  rw [if_neg (fun hne => hne rfl), hversion _ hsecond]
  rfl

end Decoding

/-- An encoded module is decoded, whatever evaluates its offsets. -/
theorem Module.decodeWith_of_encodes {evaluate : List UInt8 → Except Halt Value}
    {m : Module} {bytes : List UInt8} (h : m.Encodes bytes)
    (hevaluate : m.segments ≠ #[] → EvaluatesConstants evaluate) :
    decodeWith evaluate bytes.toArray = .ok m := by
  obtain ⟨types, imports, functions, memories, tags, globals, exports, count,
    codes, segments, h, rfl⟩ := h
  -- The module as it stands before each section, from the last one back.
  let m₉ : Module := { m with segments := #[] }
  let m₈ : Module := { m₉ with codes := #[] }
  let m₇ : Module := { m₈ with segmentCount := none }
  let m₆ : Module := { m₇ with exports := #[] }
  let m₅ : Module := { m₆ with globals := #[] }
  let m₄ : Module := { m₅ with tags := #[] }
  let m₃ : Module := { m₄ with memories := #[] }
  let m₂ : Module := { m₃ with functions := #[] }
  let m₁ : Module := { m₂ with imports := #[] }
  have hsections : Decoding.Completes evaluate { m₁ with types := #[] } m
      (types ++ (imports ++ (functions ++ (memories ++ (tags ++
        (globals ++ (exports ++ (count ++ (codes ++ (segments ++ [])))))))))) := by
    have hsame₆ : m.SameFunctions m₆ := ⟨rfl, rfl, rfl⟩
    have hsame₉ : m.SameFunctions m₉ := ⟨rfl, rfl, rfl⟩
    have himports := h.imports.mono fun _ _ hi =>
      hi.congr (show m₂.types = m.types from rfl)
    have hglobals := h.globals.mono fun _ _ => hsame₆.global_encodes
    have hcodes := h.codes.mono fun _ _ => hsame₉.code_encodes
    exact (Decoding.types_extends (m := m₁) h.types).completes <|
      (Decoding.imports_extends (m := m₂) himports).completes <|
      (Decoding.functions_extends (m := m₃) h.functions).completes <|
      (Decoding.memories_extends (m := m₄) h.memories).completes <|
      (Decoding.tags_extends (m := m₅) h.tags).completes <|
      (Decoding.globals_extends (m := m₆) hglobals).completes <|
      (Decoding.exports_extends (m := m₇) h.exports).completes <|
      (Decoding.count_extends (m := m₈) h.count).completes <|
      (Decoding.codes_extends (m := m₉) h.size hcodes).completes <|
      (Decoding.segments_extends hevaluate h.segments).completes Decoding.completes_nil
  have hstart : { m₁ with types := #[] } = ({} : Module) := by
    simp only [m₁, m₂, m₃, m₄, m₅, m₆, m₇, m₈, m₉, h.names]
  rw [hstart, List.append_nil] at hsections
  obtain ⟨c, hheader, hrest⟩ := Decoding.header_accepts.lift.ok_of_rest
    (show (Cursor.ofBytes _).rest = _ from rfl)
  obtain ⟨after, hafter⟩ := hsections c hrest
  unfold decodeWith Decoding.wholeModule
  rw [EStateM.bind_of_ok hheader, EStateM.get_bind,
    EStateM.bind_of_ok hafter, if_pos h.size]
  rfl

end WasmVm
