/-
Decoding undoes encoding.  The sections of an encoded module are read back, and the
offsets of its active segments evaluate to their constants.
-/
import WasmVm.Proofs.Decoding.Constants

namespace WasmVm

open Leb128

/-- Decoding undoes encoding: every encoding of a module is decoded to that module,
with all its lists in order.  A run of three steps is enough for the offsets. -/
theorem decode_of_encodes {m : Module} {bytes : List UInt8} {fuel : Nat}
    (h : m.Encodes bytes) (hfuel : 3 ≤ fuel) :
    Module.decode fuel bytes.toArray = .ok m :=
  Module.decodeWith_of_encodes h fun _ => ConstExpr.evaluate_const hfuel

namespace RoundTripWitness

/-- A module with an import, a function that calls it, and most of what else there is.
-/
def sample : Module where
  types := #[⟨[.i32], []⟩]
  imports := #[⟨"m", "é", .function 0⟩]
  functions := #[0]
  memories := #[⟨1, some 2⟩]
  tags := #[0]
  globals := #[⟨.i32, true, [0x41, 0x7f, 0x0b],
    .scope 0 .block (.value .i32) [.plain 1 (.const (.i32 0xffffffff))] none⟩]
  exports := #[⟨"f", .function, 1⟩]
  codes := #[⟨#[.i32, .i64, .i64], 1, .scope 0 .block (.func 0)
    [.plain 1 (.localGet 0), .plain 2 (.call ⟨0, 0, 1, 0, some ⟨"m", "é"⟩⟩)] none⟩]
  segments := #[⟨.active 0 8, [1, 2]⟩, ⟨.passive, [3]⟩]
  segmentCount := some 2

/-- Its sections.  The size of the first and the last number are padded. -/
def typeBytes : List UInt8 := [0x01, 0x85, 0x00, 0x01, 0x60, 0x01, 0x7f, 0x00]
def importBytes :
    List UInt8 := [0x02, 0x08, 0x01, 0x01, 0x6d, 0x02, 0xc3, 0xa9, 0x00, 0x00]
def functionBytes : List UInt8 := [0x03, 0x02, 0x01, 0x00]
def memoryBytes : List UInt8 := [0x05, 0x04, 0x01, 0x01, 0x01, 0x02]
def tagBytes : List UInt8 := [0x0d, 0x03, 0x01, 0x00, 0x00]
def globalBytes : List UInt8 := [0x06, 0x06, 0x01, 0x7f, 0x01, 0x41, 0x7f, 0x0b]
def exportBytes : List UInt8 := [0x07, 0x05, 0x01, 0x01, 0x66, 0x00, 0x01]
def countBytes : List UInt8 := [0x0c, 0x01, 0x02]
def codeBytes : List UInt8 :=
  [0x0a, 0x0a, 0x01, 0x08, 0x01, 0x02, 0x7e, 0x20, 0x00, 0x10, 0x00, 0x0b]
def segmentBytes : List UInt8 :=
  [0x0b, 0x0d, 0x02, 0x00, 0x41, 0x88, 0x00, 0x0b, 0x02, 0x01, 0x02, 0x01,
    0x81, 0x00, 0x03]

theorem encodes_types :
    ListEncodes 1 FuncType.Encodes sample.types.toList typeBytes := by
  have hparams : Counted ValType.Encodes [.i32] [1, 0x7f] :=
    ⟨[1], [0x7f], rfl, u32_singleton (by decide),
      .cons (show ValType.Encodes _ _ from rfl) .nil⟩
  have htype : FuncType.Encodes ⟨[.i32], []⟩ [0x60, 0x01, 0x7f, 0x00] :=
    ⟨[1, 0x7f], [0], rfl, hparams, [0], [], rfl, u32_singleton (by decide), .nil⟩
  have hsize : U32 5 [0x85, 0x00] :=
    ⟨.more (by decide) (.last (by decide)), by decide, by decide, by decide⟩
  exact .inr ⟨[0x85, 0x00], _, rfl, hsize, [1], _, rfl, u32_singleton (by decide),
    .cons htype .nil⟩

theorem encodes_imports :
    ListEncodes 2 (Import.Encodes sample) sample.imports.toList importBytes := by
  have hmodule : NameEncodes "m" [0x01, 0x6d] :=
    ⟨[1], by decide, u32_singleton (by decide)⟩
  have hname : NameEncodes "é" [0x02, 0xc3, 0xa9] :=
    ⟨[2], by decide, u32_singleton (by decide)⟩
  have hkind : (ImportKind.function 0).Encodes sample [0x00, 0x00] :=
    .function ⟨u32_singleton (by decide), by decide⟩
  have himport : Import.Encodes sample ⟨"m", "é", .function 0⟩
      [0x01, 0x6d, 0x02, 0xc3, 0xa9, 0x00, 0x00] :=
    ⟨[0x01, 0x6d], [0x02, 0xc3, 0xa9], [0x00, 0x00], rfl, hmodule, hname, hkind⟩
  exact .inr ⟨[8], _, rfl, u32_singleton (by decide), [1], _, rfl,
    u32_singleton (by decide),
    .cons himport .nil⟩

theorem encodes_functions :
    ListEncodes 3 (TypeIndexEncodes sample) sample.functions.toList functionBytes := by
  have hindex : TypeIndexEncodes sample 0 [0] := ⟨u32_singleton (by decide), by decide⟩
  exact .inr ⟨[2], _, rfl, u32_singleton (by decide), [1], _, rfl,
    u32_singleton (by decide),
    .cons hindex .nil⟩

theorem encodes_memories :
    ListEncodes 5 MemoryEncodes sample.memories.toList memoryBytes := by
  have hlimits : MemoryEncodes ⟨1, some 2⟩ [0x01, 0x01, 0x02] := by
    have hmin : U32 1 [1] := u32_singleton (by decide)
    refine ⟨.bounded (.inl rfl) hmin (u32_singleton (by decide)), by decide, ?_⟩
    rintro max ⟨⟩
    decide
  exact .inr ⟨[4], _, rfl, u32_singleton (by decide), [1], _, rfl,
    u32_singleton (by decide),
    .cons hlimits .nil⟩

theorem encodes_tags :
    ListEncodes 13 (TagEncodes sample) sample.tags.toList tagBytes := by
  have htag : TagEncodes sample 0 [0x00, 0x00] :=
    ⟨0, [0], rfl, u32_singleton (by decide), by decide⟩
  exact .inr ⟨[3], _, rfl, u32_singleton (by decide), [1], _, rfl,
    u32_singleton (by decide),
    .cons htag .nil⟩

/-- The signed number of one byte. -/
theorem signed_singleton {b : UInt8} (hb : b < 0x80) : Signed 5 (signed [b]) [b] :=
  ⟨.last hb, by simp, rfl⟩

theorem encodes_globals :
    ListEncodes 6 (Global.Encodes sample) sample.globals.toList globalBytes := by
  have hbody : BodyEncodes sample (.value .i32) (.scope 0 .block (.value .i32)
      [.plain 1 (.const (.i32 0xffffffff))] none) [0x41, 0x7f, 0x0b] :=
    bodyEncodes_const sample (.value .i32) (signed_singleton (by decide)) (by decide)
  have hglobal : Global.Encodes sample ⟨.i32, true, [0x41, 0x7f, 0x0b],
      .scope 0 .block (.value .i32) [.plain 1 (.const (.i32 0xffffffff))] none⟩
      [0x7f, 0x01, 0x41, 0x7f, 0x0b] := ⟨rfl, hbody⟩
  exact .inr ⟨[6], _, rfl, u32_singleton (by decide), [1], _, rfl,
    u32_singleton (by decide),
    .cons hglobal .nil⟩

theorem encodes_exports :
    ListEncodes 7 Export.Encodes sample.exports.toList exportBytes := by
  have hname : NameEncodes "f" [0x01, 0x66] :=
    ⟨[1], by decide, u32_singleton (by decide)⟩
  have hexport : Export.Encodes ⟨"f", .function, 1⟩ [0x01, 0x66, 0x00, 0x01] :=
    ⟨[0x01, 0x66], [1], rfl, hname, u32_singleton (by decide)⟩
  exact .inr ⟨[5], _, rfl, u32_singleton (by decide), [1], _, rfl,
    u32_singleton (by decide),
    .cons hexport .nil⟩

theorem encodes_body : BodyEncodes sample (.func 0) sample.codes[0].body
    [0x20, 0x00, 0x10, 0x00, 0x0b] := by
  have hzero : U32 0 [0] := u32_singleton (by decide)
  have hlocal : Item.Encodes sample (.plain (.localGet 0)) ([0x20] ++ [0x00]) := by
    have hop : Opcode.localGet.Encodes [0x20] := .single rfl
    have hoperand : Operands sample Opcode.localGet.layout
        (.plain (.localGet 0)) [0x00] :=
      .index hzero
    exact .mk hop hoperand
  have hcall : Item.Encodes sample (.plain (.call ⟨0, 0, 1, 0, some ⟨"m", "é"⟩⟩))
      ([0x10] ++ [0x00]) := by
    have hop : Opcode.call.Encodes [0x10] := .single rfl
    exact .mk hop (.call hzero rfl)
  have hend : Item.Encodes sample .close ([0x0b] ++ []) := by
    have hop : Opcode.endScope.Encodes [0x0b] := .single rfl
    exact .mk hop .bare
  refine ⟨[.plain (.localGet 0), .plain (.call ⟨0, 0, 1, 0, some ⟨"m", "é"⟩⟩)], _,
    .cons (.plain rfl) (.single (.plain rfl)), ?_, rfl⟩
  exact .cons hlocal (.cons hcall (.cons hend .nil))

theorem encodes_codes :
    ListEncodes 10 (fun entry => Code.Encodes sample entry.1 entry.2)
    (sample.functions.toList.zip sample.codes.toList) codeBytes := by
  have hgroup : LocalsEncode (2, .i64) [0x02, 0x7e] :=
    ⟨[2], rfl, u32_singleton (by decide)⟩
  have hgroups : Counted LocalsEncode [(2, .i64)] [0x01, 0x02, 0x7e] :=
    ⟨[1], _, rfl, u32_singleton (by decide), .cons hgroup .nil⟩
  have hcode : Code.Encodes sample 0 sample.codes[0]
      [0x08, 0x01, 0x02, 0x7e, 0x20, 0x00, 0x10, 0x00, 0x0b] :=
    ⟨⟨[.i32], []⟩, [(2, .i64)], [8], [0x01, 0x02, 0x7e],
      [0x20, 0x00, 0x10, 0x00, 0x0b], rfl, u32_singleton (by decide), rfl, rfl,
        rfl, by decide, hgroups, encodes_body⟩
  have heach : Each (fun entry : Nat × Code => Code.Encodes sample entry.1 entry.2)
      [(0, sample.codes[0])]
      ([0x08, 0x01, 0x02, 0x7e, 0x20, 0x00, 0x10, 0x00, 0x0b] ++ []) :=
    .cons hcode .nil
  exact .inr ⟨[0x0a], _, rfl, u32_singleton (by decide), [1], _, rfl,
    u32_singleton (by decide), heach⟩

theorem encodes_segments :
    ListEncodes 11 DataSegment.Encodes sample.segments.toList segmentBytes := by
  have hgroup (b : UInt8) (hb : ¬ b < 0x80) : IsGroup [b, 0x00] :=
    .more hb (.last (by decide))
  have hoffset : OffsetEncodes 8 [0x41, 0x88, 0x00, 0x0b] :=
    ⟨8, [0x88, 0x00], rfl, ⟨hgroup _ (by decide), by decide, by decide⟩,
      by decide, by decide⟩
  have hflags : U32 0 [0] := u32_singleton (by decide)
  have hactive : DataSegment.Encodes ⟨.active 0 8, [1, 2]⟩
      [0x00, 0x41, 0x88, 0x00, 0x0b, 0x02, 0x01, 0x02] :=
    ⟨[0x00, 0x41, 0x88, 0x00, 0x0b], [2], rfl, .first hflags hoffset,
      u32_singleton (by decide)⟩
  have hpassive : DataSegment.Encodes ⟨.passive, [3]⟩ [0x01, 0x81, 0x00, 0x03] :=
    ⟨[1], [0x81, 0x00], rfl, .passive (u32_singleton (by decide)),
      hgroup _ (by decide), by decide, by decide, by decide⟩
  exact .inr ⟨[0x0d], _, rfl, u32_singleton (by decide), [2], _, rfl,
    u32_singleton (by decide), .cons hactive (.cons hpassive .nil)⟩

theorem encodes_sample : sample.Encodes ([0x00, 0x61, 0x73, 0x6d, 1, 0, 0, 0] ++
    (typeBytes ++ (importBytes ++ (functionBytes ++ (memoryBytes ++ (tagBytes ++
      (globalBytes ++ (exportBytes ++
        (countBytes ++ (codeBytes ++ segmentBytes)))))))))) := by
  refine ⟨typeBytes, importBytes, functionBytes, memoryBytes, tagBytes,
    globalBytes, exportBytes, countBytes, codeBytes, segmentBytes, ?_, rfl⟩
  exact {
    types := encodes_types
    imports := encodes_imports
    functions := encodes_functions
    memories := encodes_memories
    tags := encodes_tags
    globals := encodes_globals
    exports := encodes_exports
    count := ⟨[1], [2], rfl, u32_singleton (by decide), u32_singleton (by decide)⟩
    size := rfl
    codes := encodes_codes
    segments := encodes_segments
    names := rfl }

theorem decode_sample :
    Module.decode 3 ([0x00, 0x61, 0x73, 0x6d, 1, 0, 0, 0] ++
      (typeBytes ++ (importBytes ++ (functionBytes ++ (memoryBytes ++
        (tagBytes ++ (globalBytes ++ (exportBytes ++
          (countBytes ++ (codeBytes ++ segmentBytes)))))))))).toArray = .ok sample :=
  decode_of_encodes encodes_sample (by decide)

end RoundTripWitness

end WasmVm
