/-
The binary format.  What a module declares is encoded entry by entry; numbers may be
padded as far as their width allows.  Every encoding of an entry is read back as the
entry.
-/
import WasmVm.Proofs.Body.Structuring
import WasmVm.Proofs.Decoding.Indices
import WasmVm.Proofs.Text.Utf8

namespace WasmVm

open Leb128

/-! ### Entries -/

/-- The encodings of a list behind its length. -/
def Counted {α : Type} (E : α → List UInt8 → Prop) (as : List α) (bytes : List UInt8) :
    Prop :=
  ∃ front back, bytes = front ++ back ∧ U32 as.length front ∧ Each E as back

/-- The bytes of a text. -/
def utf8 (s : String) : List UInt8 :=
  s.toUTF8.data.toList

/-- The encodings of a name: its length in bytes, then the bytes. -/
def NameEncodes (s : String) (bytes : List UInt8) : Prop :=
  ∃ front, bytes = front ++ utf8 s ∧ U32 (utf8 s).length front

/-- The encoding of a value type. -/
def ValType.Encodes (t : ValType) (bytes : List UInt8) : Prop :=
  bytes = [t.toByte]

/-- The encodings of a signature. -/
def FuncType.Encodes (type : FuncType) (bytes : List UInt8) : Prop :=
  ∃ params results, bytes = 0x60 :: (params ++ results) ∧
    Counted ValType.Encodes type.params params ∧
    Counted ValType.Encodes type.results results

/-- The encodings of the index of a signature. -/
def TypeIndexEncodes (m : Module) (index : Nat) (bytes : List UInt8) : Prop :=
  U32 index bytes ∧ index < m.types.size

/-- The encodings of limits.  A second bit of the flags is allowed and ignored. -/
inductive Limits.Encodes : Limits → List UInt8 → Prop
  | unbounded {flags min bytes} (hflags : flags = 0 ∨ flags = 2)
      (hmin : U32 min bytes) :
      Encodes ⟨min, none⟩ (flags :: bytes)
  | bounded {flags min max front back} (hflags : flags = 1 ∨ flags = 3)
      (hmin : U32 min front)
      (hmax : U32 max back) : Encodes ⟨min, some max⟩ (flags :: (front ++ back))

/-- The encodings of the size of a memory. -/
def MemoryEncodes (l : Limits) (bytes : List UInt8) : Prop :=
  l.Encodes bytes ∧ l.Valid

/-- The byte that tells whether a global may be set. -/
def mutabilityByte (isMutable : Bool) : UInt8 :=
  if isMutable then 1 else 0

/-- The encodings of what an import provides. -/
inductive ImportKind.Encodes (m : Module) : ImportKind → List UInt8 → Prop
  | function {index bytes} (hindex : TypeIndexEncodes m index bytes) :
      Encodes m (.function index) (0 :: bytes)
  | table {limits elements bytes} (hlimits : Limits.Encodes limits bytes) :
      Encodes m (.table limits) (1 :: elements :: bytes)
  | memory {limits bytes} (hlimits : MemoryEncodes limits bytes) :
      Encodes m (.memory limits) (2 :: bytes)
  | global {type isMutable} :
      Encodes m (.global type isMutable) [3, type.toByte, mutabilityByte isMutable]
  | tag {index mark bytes} (hindex : TypeIndexEncodes m index bytes) :
      Encodes m (.tag index) (4 :: mark :: bytes)

/-- The encodings of an import. -/
def Import.Encodes (m : Module) (i : Import) (bytes : List UInt8) : Prop :=
  ∃ module name kind, bytes = module ++ (name ++ kind) ∧ NameEncodes i.module module ∧
    NameEncodes i.name name ∧ i.kind.Encodes m kind

/-- The encodings of a tag: a mark that is ignored, then a signature. -/
def TagEncodes (m : Module) (index : Nat) (bytes : List UInt8) : Prop :=
  ∃ mark back, bytes = mark :: back ∧ TypeIndexEncodes m index back

/-- The byte of an export's kind. -/
def ExportKind.toByte : ExportKind → UInt8
  | function => 0
  | table => 1
  | memory => 2
  | global => 3
  | tag => 4

/-- The encodings of an export. -/
def Export.Encodes (e : Export) (bytes : List UInt8) : Prop :=
  ∃ name index, bytes = name ++ (e.kind.toByte :: index) ∧ NameEncodes e.name name ∧
    U32 e.index index

/-- The encoding of a global, which keeps the bytes of its initializer. -/
def Global.Encodes (m : Module) (g : Global) (bytes : List UInt8) : Prop :=
  bytes = g.type.toByte :: mutabilityByte g.isMutable :: g.init ∧
    BodyEncodes m (.value g.type) g.body g.init

/-- The encodings of a run of locals of one type. -/
def LocalsEncode (group : Nat × ValType) (bytes : List UInt8) : Prop :=
  ∃ front, bytes = front ++ [group.2.toByte] ∧ U32 group.1 front

/-- The locals that groups declare. -/
def expandLocals (groups : List (Nat × ValType)) : List ValType :=
  groups.flatMap fun group => List.replicate group.1 group.2

theorem expandLocals_cons (group : Nat × ValType) (groups : List (Nat × ValType)) :
    expandLocals (group :: groups) = List.replicate group.1 group.2 ++
      expandLocals groups :=
  List.flatMap_cons

/-- The encodings of the code of a function with a signature, behind their size. -/
def Code.Encodes (m : Module) (typeIndex : Nat) (code : Code) (bytes : List UInt8) :
    Prop :=
  ∃ type groups size declarations body,
    bytes = size ++ (declarations ++ body) ∧ U32 (declarations ++ body).length size ∧
    m.types[typeIndex]? = some type ∧ code.params = type.params.length ∧
    code.locals.toList = type.params ++ expandLocals groups ∧
    code.locals.size ≤ maxLocals ∧
    Counted LocalsEncode groups declarations ∧
    BodyEncodes m (.func typeIndex) code.body body

/-- The encodings of a constant offset: an `i32.const` and an `end`. -/
def OffsetEncodes (offset : Nat) (bytes : List UInt8) : Prop :=
  ∃ i number, bytes = 0x41 :: (number ++ [0x0b]) ∧ Signed 5 i number ∧
    (-2 ^ 31 ≤ i ∧ i < 2 ^ 31) ∧ offset = (BitVec.ofInt 32 i).toNat

/-- The encodings of how a segment gets into memory.  The first memory need not be
named. -/
inductive DataMode.Encodes : DataMode → List UInt8 → Prop
  | first {offset flags expr} (hflags : U32 0 flags)
      (hoffset : OffsetEncodes offset expr) :
      Encodes (.active 0 offset) (flags ++ expr)
  | passive {flags} (hflags : U32 1 flags) : Encodes .passive flags
  | named {memory offset flags index expr} (hflags : U32 2 flags)
      (hmemory : U32 memory index) (hoffset : OffsetEncodes offset expr) :
      Encodes (.active memory offset) (flags ++ (index ++ expr))

/-- The encodings of a data segment. -/
def DataSegment.Encodes (segment : DataSegment) (bytes : List UInt8) : Prop :=
  ∃ mode size, bytes = mode ++ (size ++ segment.bytes) ∧ segment.mode.Encodes mode ∧
    U32 segment.bytes.length size

/-! ### Sections -/

/-- The encodings of a section with some contents. -/
def SectionEncodes (id : UInt8) (P : List UInt8 → Prop) (bytes : List UInt8) : Prop :=
  ∃ size contents, bytes = id :: (size ++ contents) ∧
    U32 contents.length size ∧ P contents

/-- The encodings of a list as a section, which may be left out if the list is empty. -/
def ListEncodes {α : Type} (id : UInt8) (E : α → List UInt8 → Prop) (as : List α)
    (bytes : List UInt8) : Prop :=
  (as = [] ∧ bytes = []) ∨ SectionEncodes id (Counted E as) bytes

/-- The encodings of the number of segments, if it is given. -/
def CountEncodes : Option Nat → List UInt8 → Prop
  | none, bytes => bytes = []
  | some count, bytes => SectionEncodes 12 (U32 count) bytes

/-- The encodings of a module: the header, then the sections in their order.  Each
function that is declared has code. -/
structure Module.EncodedBy (m : Module)
    (types imports functions memories tags globals exports
    count codes segments : List UInt8) : Prop where
  types : ListEncodes 1 FuncType.Encodes m.types.toList types
  imports : ListEncodes 2 (Import.Encodes m) m.imports.toList imports
  functions : ListEncodes 3 (TypeIndexEncodes m) m.functions.toList functions
  memories : ListEncodes 5 MemoryEncodes m.memories.toList memories
  tags : ListEncodes 13 (TagEncodes m) m.tags.toList tags
  globals : ListEncodes 6 (Global.Encodes m) m.globals.toList globals
  exports : ListEncodes 7 Export.Encodes m.exports.toList exports
  count : CountEncodes m.segmentCount count
  size : m.codes.size = m.functions.size
  codes : ListEncodes 10 (fun entry => Code.Encodes m entry.1 entry.2)
    (m.functions.toList.zip m.codes.toList) codes
  segments : ListEncodes 11 DataSegment.Encodes m.segments.toList segments
  names : m.names = ∅

/-- The encodings of a module. -/
def Module.Encodes (m : Module) (bytes : List UInt8) : Prop :=
  ∃ types imports functions memories tags globals exports count codes segments,
    m.EncodedBy types imports functions memories tags globals exports count
      codes segments ∧
    bytes = [0x00, 0x61, 0x73, 0x6d, 1, 0, 0, 0] ++
      (types ++ (imports ++ (functions ++ (memories ++ (tags ++
        (globals ++ (exports ++ (count ++ (codes ++ segments)))))))))

/-! ### Reading entries back -/

/-- The bytes read since a position are those that were ahead there. -/
theorem Cursor.since_advance {c : Cursor} {bytes : List UInt8} (h : bytes <+: c.rest) :
    (c.advance bytes.length).since c.pos = bytes := by
  rw [since, bytes_advance, pos_advance, Array.toList_extract,
    List.extract_eq_take_drop, Nat.add_sub_cancel_left]
  exact (List.prefix_iff_eq_take.mp h).symm

/-- An input that begins with these bytes is read to their end, with this result. -/
def Accepts {ε α : Type} (x : EStateM ε Cursor α) (a : α) (bytes : List UInt8) : Prop :=
  ∀ c, bytes <+: c.rest → x c = .ok a (c.advance bytes.length)

theorem Reads.accepts {α : Type} {r : Reading α}
    {E : α → List UInt8 → Prop} (h : Reads r E)
    {a : α} {bytes : List UInt8} (ha : E a bytes) : Accepts r a bytes :=
  fun c hahead => (h c a _).mpr ⟨bytes, ha, hahead, rfl⟩

namespace Accepts

variable {ε α β : Type} {x : EStateM ε Cursor α}
  {f : α → EStateM ε Cursor β} {a : α} {b : β}
  {front back bytes : List UInt8}

theorem pure (a : α) : Accepts (Pure.pure a : EStateM ε Cursor α) a [] :=
  fun _ _ => rfl

/-- One read after the other. -/
theorem bind (hx : Accepts x a front) (hf : Accepts (f a) b back) :
    Accepts (x >>= f) b (front ++ back) := by
  intro c hahead
  obtain ⟨hfront, hback⟩ := Cursor.prefix_rest_append.mp hahead
  rw [EStateM.bind_of_ok (hx c hfront), hf _ hback, Cursor.advance_advance,
    List.length_append]

/-- One read after the other, where the second takes no bytes. -/
theorem bind_empty (hx : Accepts x a bytes) (hf : Accepts (f a) b []) :
    Accepts (x >>= f) b bytes := by
  rw [← List.append_nil bytes]
  exact hx.bind hf

theorem bind_pure {g : α → β} (hx : Accepts x a bytes) :
    Accepts (x >>= fun a => Pure.pure (g a)) (g a) bytes :=
  hx.bind_empty (.pure (g a))

/-- One read after the other, where the first takes a byte. -/
theorem bind_cons {first : UInt8} (hx : Accepts x a [first])
    (hf : Accepts (f a) b bytes) :
    Accepts (x >>= f) b (first :: bytes) :=
  hx.bind hf

theorem byte_bind {first : UInt8} {f : UInt8 → Reading β}
    (hf : Accepts (f first) b bytes) :
    Accepts (Reading.byte >>= f) b (first :: bytes) :=
  (Reading.byte_reads.accepts rfl).bind_cons hf

theorem offset_bind {f : Nat → Reading β} (h : ∀ start, Accepts (f start) b bytes) :
    Accepts (Reading.offset >>= f) b bytes :=
  fun c hahead => h c.offset c hahead

/-- A read leaves what follows. -/
theorem ok_of_rest (h : Accepts x a bytes) {c : Cursor}
    (hrest : c.rest = bytes ++ back) :
    ∃ after, x c = .ok a after ∧ after.rest = back := by
  refine ⟨c.advance bytes.length, h c ?_, ?_⟩
  · rw [hrest]
    exact List.prefix_append _ _
  · rw [Cursor.rest_advance, hrest, List.drop_left]

theorem lift {r : Reading α} (h : Accepts r a bytes) :
    Accepts (liftM r : Decoding α) a bytes :=
  fun c hahead => Decoding.lift_of_ok (h c hahead)

theorem lift_offset_bind {f : Nat → Decoding β}
    (h : ∀ start, Accepts (f start) b bytes) :
    Accepts (liftM Reading.offset >>= f) b bytes :=
  fun c hahead => h c.offset c hahead

end Accepts

namespace Reading

variable {m : Module} {bytes : List UInt8}

theorem u32_accepts {n : Nat} (h : U32 n bytes) : Accepts u32 n bytes :=
  u32_reads.accepts h

theorem valTypes_accepts {types : List ValType}
    (h : Counted ValType.Encodes types bytes) :
    Accepts valTypes types bytes := by
  obtain ⟨front, back, rfl, hcount, heach⟩ := h
  have hmany : Accepts (many valType types.length) types.toArray back :=
    (many_reads valType_reads _).accepts ⟨heach, rfl⟩
  exact (u32_accepts hcount).bind hmany.bind_pure

theorem funcType_accepts {type : FuncType} (h : type.Encodes bytes) :
    Accepts funcType type bytes := by
  obtain ⟨params, results, rfl, hparams, hresults⟩ := h
  refine .byte_bind ?_
  rw [if_pos rfl]
  exact (valTypes_accepts hparams).bind (valTypes_accepts hresults).bind_pure

theorem typeIndex_accepts {index : Nat} (h : TypeIndexEncodes m index bytes) :
    Accepts (typeIndex m) index bytes := by
  refine .offset_bind fun start => (u32_accepts h.1).bind_empty ?_
  rw [if_pos h.2]
  exact .pure index

theorem limits_accepts {l : Limits} (h : l.Encodes bytes) : Accepts limits l bytes := by
  cases h with
  | unbounded hflags hmin =>
      refine .byte_bind ((u32_accepts hmin).bind_empty ?_)
      rw [if_pos hflags]
      exact .pure _
  | bounded hflags hmin hmax =>
      refine .byte_bind ((u32_accepts hmin).bind ?_)
      rw [if_neg (by rcases hflags with rfl | rfl <;> decide), if_pos hflags]
      exact (u32_accepts hmax).bind_pure

theorem memoryLimits_accepts {l : Limits} (h : MemoryEncodes l bytes) :
    Accepts memoryLimits l bytes := by
  obtain ⟨hlimits, hmin, hmax⟩ := h
  refine (limits_accepts hlimits).bind_empty ?_
  have hsize : ¬ (maxPages < l.min ∨ l.max.any (maxPages < ·) = true) := by
    cases hl : l.max with
    | none => simpa using hmin
    | some max => simpa using ⟨hmin, (hmax max hl).2⟩
  have horder : ¬ l.max.any (· < l.min) = true := by
    cases hl : l.max with
    | none => simp
    | some max => simpa using (hmax max hl).1
  rw [if_neg hsize, if_neg horder]
  exact .pure l

theorem mutability_accepts (isMutable : Bool) :
    Accepts mutability isMutable [mutabilityByte isMutable] := by
  refine .byte_bind ?_
  cases isMutable <;> exact .pure _

theorem name_accepts {s : String} (h : NameEncodes s bytes) : Accepts name s bytes := by
  obtain ⟨front, rfl, hlength⟩ := h
  refine (u32_accepts hlength).bind ?_
  have hs : Text.ofUtf8 (utf8 s).toArray.toList = s := Text.ofUtf8_toUTF8 s
  have hbytes : Accepts (Reading.bytes (utf8 s).length) (utf8 s).toArray (utf8 s) :=
    (bytes_reads _).accepts ⟨rfl, rfl⟩
  have h := hbytes.bind_pure (g := fun found => Text.ofUtf8 found.toList)
  rwa [hs] at h

theorem importEntry_accepts {i : Import} (h : i.Encodes m bytes) :
    Accepts (importEntry m) i bytes := by
  obtain ⟨module, name, kind, rfl, hmodule, hname, hkind⟩ := h
  refine (name_accepts hmodule).bind ((name_accepts hname).bind ?_)
  obtain ⟨moduleName, importName, kind⟩ := i
  dsimp only at hkind ⊢
  cases hkind with
  | function hindex => exact .byte_bind (typeIndex_accepts hindex).bind_pure
  | table hlimits => exact .byte_bind (.byte_bind (limits_accepts hlimits).bind_pure)
  | memory hlimits => exact .byte_bind (memoryLimits_accepts hlimits).bind_pure
  | @global type isMutable =>
      refine .byte_bind ((valType_reads.accepts rfl).bind_cons ?_)
      exact (mutability_accepts isMutable).bind_pure
  | tag hindex => exact .byte_bind (.byte_bind (typeIndex_accepts hindex).bind_pure)

theorem tag_accepts {index : Nat} (h : TagEncodes m index bytes) :
    Accepts (tag m) index bytes := by
  obtain ⟨mark, back, rfl, hindex⟩ := h
  exact .byte_bind (typeIndex_accepts hindex)

theorem exportKind_accepts (name : String) (kind : ExportKind) :
    Accepts (exportKind name) kind [kind.toByte] := by
  refine .byte_bind ?_
  cases kind <;> exact .pure _

theorem exportEntry_accepts {e : Export} (h : e.Encodes bytes) :
    Accepts exportEntry e bytes := by
  obtain ⟨name, index, rfl, hname, hindex⟩ := h
  refine (name_accepts hname).bind ?_
  exact (exportKind_accepts e.name e.kind).bind (u32_accepts hindex).bind_pure

/-- A read together with the bytes that it has taken. -/
theorem since_accepts {α β : Type} {r : Reading α} {a : α} {k : List UInt8 → α → β}
    (hr : Accepts r a bytes) :
    Accepts (get >>= fun start : Cursor => r >>= fun a => get >>= fun after : Cursor =>
      pure (k (after.since start.pos) a) : Reading β) (k bytes a) bytes := by
  intro c hahead
  change (r >>= fun a => get >>= fun after : Cursor =>
    pure (k (after.since c.pos) a)) c = _
  rw [EStateM.bind_of_ok (hr c hahead)]
  change EStateM.Result.ok (k ((c.advance bytes.length).since c.pos) a) _ = _
  rw [Cursor.since_advance hahead]

theorem global_accepts {g : Global} (h : g.Encodes m bytes) :
    Accepts (global m) g bytes := by
  obtain ⟨rfl, hbody⟩ := h
  refine (valType_reads.accepts rfl).bind_cons ((mutability_accepts _).bind_cons ?_)
  exact since_accepts (k := fun init body =>
    (⟨g.type, g.isMutable, init, body⟩ : Global)) ((body_reads m _ _).accepts hbody)

theorem localGroup_accepts {function : Nat} {group : Nat × ValType}
    {locals : Array ValType}
    (h : LocalsEncode group bytes) (hsize : locals.size + group.1 ≤ maxLocals) :
    Accepts (localGroup function locals) (locals ++ Array.replicate group.1 group.2)
      bytes := by
  obtain ⟨front, rfl, hcount⟩ := h
  refine (u32_accepts hcount).bind
    (Accepts.bind_empty (a := group.2) (valType_reads.accepts rfl) ?_)
  rw [if_neg (Nat.not_lt.mpr hsize)]
  exact .pure _

/-- Runs of locals are expanded behind the locals that there are.  Without runs the
limit does not matter. -/
theorem localGroups_accepts {function : Nat} {groups : List (Nat × ValType)}
    {locals : Array ValType} (h : Each LocalsEncode groups bytes)
    (hsize : groups ≠ [] → locals.size + (expandLocals groups).length ≤ maxLocals)
    (turn : Nat) :
    Accepts (forRange (fun _ => localGroup function) groups.length turn locals)
      (locals ++ (expandLocals groups).toArray) bytes := by
  induction h generalizing locals turn with
  | nil =>
      have hnone : locals ++ (expandLocals []).toArray = locals := by
        simp [expandLocals]
      rw [hnone]
      exact .pure locals
  | @cons group groups front back hgroup hgroups ih =>
      have hlocals : locals ++ (expandLocals (group :: groups)).toArray =
          locals ++ Array.replicate group.1 group.2 ++
            (expandLocals groups).toArray := by
        apply Array.toList_inj.mp
        simp [expandLocals_cons]
      have hall := hsize (List.cons_ne_nil _ _)
      rw [expandLocals_cons, List.length_append, List.length_replicate] at hall
      rw [hlocals]
      refine (localGroup_accepts hgroup (by omega)).bind (ih (fun _ => ?_) (turn + 1))
      rw [Array.size_append, Array.size_replicate]
      omega

/-- The contents of a code entry are read to the last byte. -/
theorem code_of_rest (function : Nat) {typeIndex : Nat} {type : FuncType} {code : Code}
    {groups : List (Nat × ValType)} {declarations body : List UInt8}
    (hparams : code.params = type.params.length)
    (hlocals : code.locals.toList = type.params ++ expandLocals groups)
    (hsize : groups ≠ [] → code.locals.size ≤ maxLocals)
    (hgroups : Counted LocalsEncode groups declarations)
    (hbody : BodyEncodes m (.func typeIndex) code.body body) {c : Cursor}
    (hrest : c.rest = declarations ++ body) :
    ∃ after, Reading.code m function typeIndex type c = .ok code after := by
  obtain ⟨count, back, rfl, hcount, heach⟩ := hgroups
  have hlength := congrArg List.length hlocals
  rw [Array.length_toList, List.length_append] at hlength
  have hexpanded : code.locals = type.params.toArray ++
      (expandLocals groups).toArray := by
    apply Array.toList_inj.mp
    simp [hlocals]
  have hdeclared : Accepts (forRange (fun _ => localGroup function) groups.length 0
      type.params.toArray) code.locals back := by
    rw [hexpanded]
    refine localGroups_accepts heach (fun hsome => ?_) 0
    rw [List.size_toArray, ← hlength]
    exact hsize hsome
  obtain ⟨c₁, hc₁, hrest₁⟩ :=
    (u32_accepts hcount).ok_of_rest (hrest.trans (List.append_assoc ..))
  obtain ⟨c₂, hc₂, hrest₂⟩ := hdeclared.ok_of_rest hrest₁
  have hc₃ (owner : String) :
      Reading.body m owner (.func typeIndex) c₂ = .ok code.body
        (c₂.advance body.length) :=
    (body_reads m owner _).accepts hbody c₂ (hrest₂ ▸ List.prefix_refl _)
  have hfinished : (c₂.advance body.length).isFinished = true := by
    rw [Cursor.isFinished_iff, Cursor.rest_advance, hrest₂, List.drop_length]
  refine ⟨c₂.advance body.length, ?_⟩
  unfold Reading.code
  rw [EStateM.bind_of_ok hc₁, EStateM.bind_of_ok hc₂, EStateM.bind_of_ok (hc₃ _)]
  change (if (c₂.advance body.length).isFinished = true then _
    else _ : Reading Code) _ = _
  rw [if_pos hfinished, ← hparams]
  rfl

end Reading

end WasmVm
