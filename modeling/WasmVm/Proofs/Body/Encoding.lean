/-
The encodings of single instructions.  An opcode fixes what follows it; the
instruction is read back from exactly these bytes.
-/
import WasmVm.Body.Item
import WasmVm.Proofs.Reading.Numbers

namespace WasmVm

open Leb128

section Enumerations

@[simp] theorem ValType.mem_all (t : ValType) : t ∈ all := by
  cases t <;> decide

@[simp] theorem Width.mem_all (w : Width) : w ∈ all := by
  cases w <;> decide

@[simp] theorem Sign.mem_all (s : Sign) : s ∈ all := by
  cases s <;> decide

@[simp] theorem Part32.mem_all (p : Part32) : p ∈ all := by
  cases p <;> decide

@[simp] theorem Part64.mem_all (p : Part64) : p ∈ all := by
  cases p <;> decide

@[simp] theorem IntCompare.mem_all (op : IntCompare) : op ∈ all := by
  cases op <;> simp [all]

@[simp] theorem IntUnary.mem_all (op : IntUnary) : op ∈ all := by
  cases op <;> decide

@[simp] theorem IntBinary.mem_all (op : IntBinary) : op ∈ all := by
  cases op <;> simp [all]

@[simp] theorem FloatCompare.mem_all (op : FloatCompare) : op ∈ all := by
  cases op <;> decide

@[simp] theorem FloatUnary.mem_all (op : FloatUnary) : op ∈ all := by
  cases op <;> decide

@[simp] theorem FloatBinary.mem_all (op : FloatBinary) : op ∈ all := by
  cases op <;> decide

@[simp] theorem LoadOp.mem_all (op : LoadOp) : op ∈ all := by
  cases op <;> simp [all]

@[simp] theorem StoreOp.mem_all (op : StoreOp) : op ∈ all := by
  cases op <;> simp [all]

theorem NumOp.mem_conversions (make : Width → Sign → NumOp) (w : Width) (s : Sign) :
    make w s ∈ conversions make :=
  List.mem_flatMap.mpr ⟨w, w.mem_all, List.mem_map.mpr ⟨s, s.mem_all, rfl⟩⟩

@[simp] theorem NumOp.mem_all (op : NumOp) : op ∈ all := by
  unfold all
  cases op with
  | truncate target source s =>
      have hmem := mem_conversions (truncate target) source s
      cases target <;> simp [hmem]
  | truncateSat target source s =>
      have hmem := mem_conversions (truncateSat target) source s
      cases target <;> simp [hmem]
  | convert target source s =>
      have hmem := mem_conversions (convert target) source s
      cases target <;> simp [hmem]
  | _ => simp

/-- No opcode is missing from the list of all. -/
theorem Opcode.mem_all (op : Opcode) : op ∈ all := by
  unfold all
  cases op <;> simp

end Enumerations

namespace Opcode

theorem ofCode?_code (op : Opcode) : ofCode? op.code = some op := by
  have hall : ∀ op ∈ all, ofCode? op.code = some op := by decide +kernel
  exact hall op op.mem_all

/-- Numbers name opcodes one to one. -/
theorem ofCode?_eq_some {n : Nat} {op : Opcode} :
    ofCode? n = some op ↔ op.code = n := by
  constructor
  · intro h
    obtain ⟨⟨code, op'⟩, hfind, rfl⟩ := Option.map_eq_some_iff.mp h
    have hmem := List.mem_of_find?_eq_some hfind
    have hn := List.find?_some hfind
    obtain ⟨op'', -, hpair⟩ := List.mem_map.mp hmem
    cases hpair
    exact beq_iff_eq.mp hn
  · rintro rfl
    exact ofCode?_code op

/-- The extension byte is no opcode, and behind it there are numbers of one byte. -/
theorem code_bounds (op : Opcode) : op.code ≠ 0xfc ∧ op.code < 0xfd00 := by
  have hall : ∀ op ∈ all, op.code ≠ 0xfc ∧ op.code < 0xfd00 := by decide +kernel
  exact hall op op.mem_all

/-- The encodings of an opcode. -/
inductive Encodes (op : Opcode) : List UInt8 → Prop
  | single {b : UInt8} (hcode : op.code = b.toNat) : Encodes op [b]
  | extended {n bytes} (hcode : op.code = 0xfc00 + n) (hn : U32 n bytes) :
      Encodes op (0xfc :: bytes)

theorem Encodes.ne_nil {op : Opcode} {bytes : List UInt8} (h : op.Encodes bytes) :
    bytes ≠ [] := by
  cases h <;> simp

end Opcode

/-- What follows an opcode, and the instruction that it makes. -/
inductive Layout where
  /-- Nothing follows. -/
  | bare (item : Item)
  /-- One unsigned number. -/
  | index (make : Nat → Item)
  /-- The type of a scope. -/
  | scope (kind : ScopeKind)
  /-- Alignment and constant offset. -/
  | access (make : MemArg → Instr)
  /-- Memories, each named by a zero. -/
  | memories (count : Nat) (instr : Instr)
  /-- A data segment, then a memory. -/
  | segment
  /-- The targets behind their number, then the fallback. -/
  | branchTable
  /-- A function of the module. -/
  | call
  /-- A signature, then a table. -/
  | callIndirect
  /-- Value types behind their number, which are not kept. -/
  | types
  | const (t : ValType)

/-- The table of opcodes and their operands. -/
def Opcode.layout : Opcode → Layout
  | nop => .bare .nop
  | elseThen => .bare .otherwise
  | endScope => .bare .close
  | catchAll => .bare .catchAll
  | unreachable => .bare (.plain .unreachable)
  | returnOp => .bare (.plain .returnOp)
  | drop => .bare (.plain .drop)
  | select => .bare (.plain .select)
  | numeric op => .bare (.plain (.numeric op))
  | block => .scope .block
  | loop => .scope .loop
  | ifThen => .scope .ifThen
  | tryBlock => .scope .tryBlock
  | catchTag => .index .catchTag
  | delegate => .index .delegate
  | throwTag => .index fun n => .plain (.throwTag n)
  | rethrow => .index fun n => .plain (.rethrow n)
  | br => .index fun n => .plain (.br n)
  | brIf => .index fun n => .plain (.brIf n)
  | localGet => .index fun n => .plain (.localGet n)
  | localSet => .index fun n => .plain (.localSet n)
  | localTee => .index fun n => .plain (.localTee n)
  | globalGet => .index fun n => .plain (.globalGet n)
  | globalSet => .index fun n => .plain (.globalSet n)
  | dataDrop => .index fun n => .plain (.dataDrop n)
  | brTable => .branchTable
  | call => .call
  | callIndirect => .callIndirect
  | selectTyped => .types
  | load op => .access (.load op)
  | store op => .access (.store op)
  | memorySize => .memories 1 .memorySize
  | memoryGrow => .memories 1 .memoryGrow
  | memoryFill => .memories 1 .memoryFill
  | memoryCopy => .memories 2 .memoryCopy
  | memoryInit => .segment
  | const t => .const t

/-- The signed number that stands for the type of a scope. -/
def BlockType.Number (m : Module) : BlockType → Int → Prop
  | empty, i => i = -64
  | value .i32, i => i = -1
  | value .i64, i => i = -2
  | value .f32, i => i = -3
  | value .f64, i => i = -4
  | func index, i => i = index ∧ index < m.types.size

/-- A number stands for one type at most. -/
theorem BlockType.Number.unique {m : Module} {type other : BlockType} {i : Int}
    (htype : Number m type i) (hother : Number m other i) : other = type := by
  rcases type with _ | (_ | _ | _ | _) | index <;>
    rcases other with _ | (_ | _ | _ | _) | index' <;>
    simp only [Number, reduceCtorEq, func.injEq] at htype hother ⊢ <;> omega

/-- The encodings of a constant.  Integers of 64 bits are taken modulo `2 ^ 64`. -/
def Value.Encodes : Value → List UInt8 → Prop
  | i32 v, bytes => ∃ i, Signed 5 i bytes ∧ (-2 ^ 31 ≤ i ∧ i < 2 ^ 31) ∧
      v = BitVec.ofInt 32 i
  | i64 v, bytes => ∃ i, Signed 10 i bytes ∧ v = BitVec.ofInt 64 i
  | f32 v, bytes => bytes.length = 4 ∧ v = BitVec.ofNat 32 (ofLittleEndian bytes)
  | f64 v, bytes => bytes.length = 8 ∧ v = BitVec.ofNat 64 (ofLittleEndian bytes)

/-- The encodings of operands. -/
inductive Operands (m : Module) : Layout → Item → List UInt8 → Prop
  | bare {item} : Operands m (.bare item) item []
  | index {make n bytes} (hn : U32 n bytes) : Operands m (.index make) (make n) bytes
  | scope {kind type i bytes} (hi : Signed 5 i bytes)
      (htype : BlockType.Number m type i) :
      Operands m (.scope kind) (.openScope kind type) bytes
  | access {make align offset front back} (halign : U32 align front)
      (hoffset : U32 offset back) :
      Operands m (.access make) (.plain (make ⟨align, offset⟩)) (front ++ back)
  | memories {count instr} : Operands m (.memories count instr) (.plain instr)
      (List.replicate count 0)
  | segment {n bytes} (hn : U32 n bytes) :
      Operands m .segment (.plain (.memoryInit n)) (bytes ++ [0])
  | branchTable {targets fallback first middle last} (hcount : U32 targets.length first)
      (htargets : Each U32 targets middle) (hfallback : U32 fallback last) :
      Operands m .branchTable (.plain (.brTable targets fallback))
        (first ++ (middle ++ last))
  | call {n target bytes} (hn : U32 n bytes) (htarget : m.callTarget? n = some target) :
      Operands m .call (.plain (.call target)) bytes
  | callIndirect {typeIndex table front back} (htype : U32 typeIndex front)
      (htable : U32 table back) :
      Operands m .callIndirect (.plain (.callIndirect typeIndex table)) (front ++ back)
  | types {types : List ValType} {front back} (hcount : U32 types.length front)
      (htypes : Each (fun t bytes => bytes = [ValType.toByte t]) types back) :
      Operands m .types (.plain .select) (front ++ back)
  | const {v bytes} (hv : Value.Encodes v bytes) :
      Operands m (.const v.type) (.plain (.const v)) bytes

/-- The encodings of an instruction. -/
inductive Item.Encodes (m : Module) : Item → List UInt8 → Prop
  | mk {op item front back} (hop : Opcode.Encodes op front)
      (hoperands : Operands m op.layout item back) : Encodes m item (front ++ back)

namespace Reading

variable {m : Module} {owner : String}

theorem opcodeNumber_reads :
    Reads (opcodeNumber owner) fun n bytes =>
      (∃ b : UInt8, b ≠ 0xfc ∧ bytes = [b] ∧ n = b.toNat) ∨
        ∃ k group, bytes = 0xfc :: group ∧ U32 k group ∧ k ≤ 0xff ∧ n = 0xfc00 + k := by
  apply Reads.offset_bind
  intro start
  have hextended : Reads (u32 >>= fun k =>
      if 0xff < k then fail (.extendedOpcode owner k start)
      else pure (0xfc00 + k) : Reading Nat)
      fun n bytes => ∃ k, U32 k bytes ∧ k ≤ 0xff ∧ n = 0xfc00 + k := by
    have hswap : ∀ k : Nat, (if 0xff < k then fail (.extendedOpcode owner k start)
        else pure (0xfc00 + k) : Reading Nat) =
        if k ≤ 0xff then pure (0xfc00 + k)
        else fail (.extendedOpcode owner k start) := by
      intro k
      by_cases hk : k ≤ 0xff
      · rw [if_neg (Nat.not_lt.mpr hk), if_pos hk]
      · rw [if_pos (Nat.not_le.mp hk), if_neg hk]
    simp only [hswap]
    exact u32_reads.bind_ite
  have hfirst : ∀ b : UInt8, Reads (if b = 0xfc then u32 >>= fun k =>
      if 0xff < k then fail (.extendedOpcode owner k start) else pure (0xfc00 + k)
      else pure b.toNat : Reading Nat) fun n bytes =>
        (b ≠ 0xfc ∧ bytes = [] ∧ n = b.toNat) ∨
          (b = 0xfc ∧ ∃ k, U32 k bytes ∧ k ≤ 0xff ∧ n = 0xfc00 + k) := by
    intro b
    by_cases hb : b = 0xfc
    · rw [if_pos hb]
      apply hextended.congr
      intro n bytes
      simp [hb]
    · rw [if_neg hb]
      apply (Reads.pure b.toNat).congr
      intro n bytes
      simp [hb, and_comm]
  apply (byte_reads.bind hfirst).congr
  intro n bytes
  constructor
  · intro henc
    rcases henc with ⟨b, _, back, rfl, rfl, ⟨hb, rfl, rfl⟩ | ⟨rfl, k, hk, hle, rfl⟩⟩
    · exact .inl ⟨b, hb, rfl, rfl⟩
    · exact .inr ⟨k, back, rfl, hk, hle, rfl⟩
  · intro henc
    rcases henc with ⟨b, hb, rfl, rfl⟩ | ⟨k, group, rfl, hk, hle, rfl⟩
    · exact ⟨b, [b], [], rfl, rfl, .inl ⟨hb, rfl, rfl⟩⟩
    · exact ⟨0xfc, [0xfc], group, rfl, rfl, .inr ⟨rfl, k, hk, hle, rfl⟩⟩

theorem opcode_reads : Reads (opcode owner) Opcode.Encodes := by
  apply Reads.offset_bind
  intro start
  have hnumber : Reads (opcodeNumber owner) _ := opcodeNumber_reads
  refine Reads.congr
    (hnumber.bind_lookup Opcode.ofCode? (fun n => .opcode owner n start) ?_ ?_) ?_
  · intro n op hn
    rw [hn]
  · intro n hn
    rw [hn]
  · intro op bytes
    have hbounds := op.code_bounds
    constructor
    · intro henc
      rcases henc with ⟨_, ⟨b, -, rfl, rfl⟩ | ⟨k, group, rfl, hk, -, rfl⟩, hop⟩
      · exact .single (Opcode.ofCode?_eq_some.mp hop)
      · exact .extended (Opcode.ofCode?_eq_some.mp hop) hk
    · intro hop
      refine ⟨op.code, ?_, op.ofCode?_code⟩
      cases hop with
      | @single b hcode =>
          refine .inl ⟨b, ?_, rfl, hcode⟩
          rintro rfl
          exact hbounds.1 hcode
      | @extended n bytes hcode hn => exact .inr ⟨n, bytes, rfl, hn, by omega, hcode⟩

theorem blockType_reads :
    Reads (blockType m) fun type bytes => ∃ i, Signed 5 i bytes ∧
    BlockType.Number m type i := by
  apply Reads.offset_bind
  intro start
  apply s33_reads.bind_empty
  intro i
  have hpure : ∀ found, BlockType.Number m found i →
    Reads (pure found : Reading BlockType)
      fun type bytes => BlockType.Number m type i ∧ bytes = [] := by
    intro found hfound
    refine (Reads.pure found).congr fun type bytes => and_congr_left' ?_
    exact ⟨fun h => h ▸ hfound, fun h => hfound.unique h⟩
  split
  · next hi => exact hpure .empty hi
  split
  · next hi => exact hpure (.value .i32) hi
  split
  · next hi => exact hpure (.value .i64) hi
  split
  · next hi => exact hpure (.value .f32) hi
  split
  · next hi => exact hpure (.value .f64) hi
  split
  · next hi => exact hpure (.func i.toNat) ⟨by omega, by omega⟩
  refine (Reads.fail _).congr fun type bytes => iff_of_false id ?_
  intro henc
  obtain ⟨htype, -⟩ := henc
  rcases type with _ | (_ | _ | _ | _) | index <;>
    simp only [BlockType.Number] at htype <;> omega

theorem memoryIndex_reads : Reads (memoryIndex owner) fun _ bytes => bytes = [0] := by
  apply Reads.offset_bind
  intro start
  apply byte_reads.bind_ite.congr
  intro _ bytes
  constructor
  · intro henc
    obtain ⟨b, rfl, rfl, -⟩ := henc
    rfl
  · rintro rfl
    exact ⟨0, rfl, rfl, rfl⟩

/-- Cutting a number to 64 bits does not change its low bits. -/
theorem ofInt_bmod (i : Int) :
    BitVec.ofInt 64 (i.bmod (2 ^ 64)) = BitVec.ofInt 64 i := by
  apply BitVec.eq_of_toInt_eq
  rw [BitVec.toInt_ofInt, BitVec.toInt_ofInt, Int.bmod_bmod]

theorem constant_reads (t : ValType) :
    Reads (constant t) fun v bytes => v.type = t ∧ v.Encodes bytes := by
  cases t with
  | i32 =>
      apply s32_reads.bind_pure.congr
      intro v bytes
      cases v <;> simp [Value.Encodes, Value.type, and_assoc]
  | i64 =>
      apply (wide_reads 64).bind_pure.congr
      intro v bytes
      constructor
      · intro henc
        obtain ⟨_, ⟨whole, hwhole, rfl⟩, rfl⟩ := henc
        exact ⟨rfl, whole, hwhole, ofInt_bmod whole⟩
      · intro henc
        obtain ⟨htype, hv⟩ := henc
        cases v with
        | i64 v =>
            obtain ⟨whole, hwhole, rfl⟩ := hv
            exact ⟨_, ⟨whole, hwhole, rfl⟩, congrArg Value.i64 (ofInt_bmod whole).symm⟩
        | _ => cases htype
  | f32 =>
      apply (bytes_reads 4).bind_pure.bind_pure.congr
      intro v bytes
      constructor
      · intro henc
        obtain ⟨_, ⟨_, ⟨rfl, hlength⟩, rfl⟩, rfl⟩ := henc
        exact ⟨rfl, hlength, rfl⟩
      · intro henc
        obtain ⟨htype, hv⟩ := henc
        cases v with
        | f32 v => exact ⟨v, ⟨bytes.toArray, ⟨rfl, hv.1⟩, hv.2⟩, rfl⟩
        | _ => cases htype
  | f64 =>
      apply (bytes_reads 8).bind_pure.bind_pure.congr
      intro v bytes
      constructor
      · intro henc
        obtain ⟨_, ⟨_, ⟨rfl, hlength⟩, rfl⟩, rfl⟩ := henc
        exact ⟨rfl, hlength, rfl⟩
      · intro henc
        obtain ⟨htype, hv⟩ := henc
        cases v with
        | f64 v => exact ⟨v, ⟨bytes.toArray, ⟨rfl, hv.1⟩, hv.2⟩, rfl⟩
        | _ => cases htype

theorem callTarget_reads :
    Reads (callTarget m owner) fun target bytes =>
      ∃ n, U32 n bytes ∧ m.callTarget? n = some target := by
  apply Reads.offset_bind
  intro start
  apply u32_reads.bind_lookup m.callTarget? fun n => .callee owner n start
  · intro n target hn
    rw [hn]
  · intro n hn
    rw [hn]

section Layouts

theorem bare_reads (item : Item) : Reads (pure item) (Operands m (.bare item)) := by
  apply (Reads.pure item).congr
  intro result bytes
  constructor
  · intro henc
    obtain ⟨rfl, rfl⟩ := henc
    exact .bare
  · rintro ⟨⟩
    exact ⟨rfl, rfl⟩

theorem index_reads (make : Nat → Item) :
    Reads (u32 >>= fun n => pure (make n)) (Operands m (.index make)) := by
  apply u32_reads.bind_pure.congr
  intro item bytes
  constructor
  · intro henc
    obtain ⟨n, hn, rfl⟩ := henc
    exact .index hn
  · intro h
    cases h with
    | index hn => exact ⟨_, hn, rfl⟩

theorem scope_reads (kind : ScopeKind) :
    Reads (blockType m >>= fun type => pure (.openScope kind type))
      (Operands m (.scope kind)) := by
  apply blockType_reads.bind_pure.congr
  intro item bytes
  constructor
  · intro henc
    obtain ⟨type, ⟨i, hi, htype⟩, rfl⟩ := henc
    exact .scope hi htype
  · intro h
    cases h with
    | scope hi htype => exact ⟨_, ⟨_, hi, htype⟩, rfl⟩

theorem access_reads (make : MemArg → Instr) :
    Reads (memArg >>= fun arg => pure (.plain (make arg)))
      (Operands m (.access make)) := by
  have hmemArg : Reads memArg fun arg bytes =>
      ∃ front back, bytes = front ++ back ∧ U32 arg.align front ∧
        U32 arg.offset back := by
    apply (u32_reads.bind fun align => u32_reads.bind_pure).congr
    intro arg bytes
    constructor
    · intro henc
      obtain ⟨align, front, back, rfl, halign, offset, hoffset, rfl⟩ := henc
      exact ⟨front, back, rfl, halign, hoffset⟩
    · intro henc
      obtain ⟨front, back, rfl, halign, hoffset⟩ := henc
      exact ⟨arg.align, front, back, rfl, halign, arg.offset, hoffset, rfl⟩
  apply hmemArg.bind_pure.congr
  intro item bytes
  constructor
  · intro henc
    obtain ⟨arg, ⟨front, back, rfl, halign, hoffset⟩, rfl⟩ := henc
    exact .access halign hoffset
  · intro h
    cases h with
    | access halign hoffset => exact ⟨_, ⟨_, _, rfl, halign, hoffset⟩, rfl⟩

theorem memory_reads (instr : Instr) :
    Reads (memoryIndex owner >>= fun _ => pure (.plain instr))
      (Operands m (.memories 1 instr)) := by
  apply memoryIndex_reads.bind_pure.congr
  intro item bytes
  constructor
  · intro henc
    obtain ⟨_, rfl, rfl⟩ := henc
    exact .memories
  · rintro ⟨⟩
    exact ⟨(), rfl, rfl⟩

theorem memories_reads (instr : Instr) :
    Reads (memoryIndex owner >>= fun _ => memoryIndex owner >>= fun _ =>
      pure (.plain instr)) (Operands m (.memories 2 instr)) := by
  apply (memoryIndex_reads.bind fun _ => memoryIndex_reads.bind_pure).congr
  intro item bytes
  constructor
  · intro henc
    obtain ⟨_, _, _, rfl, rfl, _, rfl, rfl⟩ := henc
    exact .memories
  · rintro ⟨⟩
    exact ⟨(), [0], [0], rfl, rfl, (), rfl, rfl⟩

theorem segment_reads :
    Reads (u32 >>= fun n => memoryIndex owner >>= fun _ =>
      pure (.plain (.memoryInit n)))
      (Operands m .segment) := by
  apply (u32_reads.bind fun n => memoryIndex_reads.bind_pure).congr
  intro item bytes
  constructor
  · intro henc
    obtain ⟨n, front, _, rfl, hn, _, rfl, rfl⟩ := henc
    exact .segment hn
  · intro h
    cases h with
    | segment hn => exact ⟨_, _, _, rfl, hn, (), rfl, rfl⟩

theorem branchTable_reads :
    Reads (u32 >>= fun count => many u32 count >>= fun targets =>
      u32 >>= fun fallback =>
        pure (.plain (.brTable targets.toList fallback)))
          (Operands m .branchTable) := by
  refine (u32_reads.bind fun count => (many_reads u32_reads count).bind fun targets =>
    u32_reads.bind_pure).congr fun item bytes => ?_
  constructor
  · rintro ⟨_, first, _, rfl, hcount, targets, middle, last, rfl,
      ⟨htargets, rfl⟩, fallback, hfallback, rfl⟩
    exact .branchTable hcount htargets hfallback
  · intro h
    cases h with
    | @branchTable targets fallback first middle last hcount htargets hfallback =>
        exact ⟨_, first, _, rfl, hcount, targets.toArray, middle, last, rfl,
          ⟨htargets, rfl⟩, fallback, hfallback, rfl⟩

theorem call_reads :
    Reads (callTarget m owner >>= fun target => pure (.plain (.call target)))
      (Operands m .call) := by
  apply callTarget_reads.bind_pure.congr
  intro item bytes
  constructor
  · intro henc
    obtain ⟨target, ⟨n, hn, htarget⟩, rfl⟩ := henc
    exact .call hn htarget
  · intro h
    cases h with
    | call hn htarget => exact ⟨_, ⟨_, hn, htarget⟩, rfl⟩

theorem callIndirect_reads :
    Reads (u32 >>= fun typeIndex => u32 >>= fun table =>
        pure (.plain (.callIndirect typeIndex table))) (Operands m .callIndirect) := by
  apply (u32_reads.bind fun typeIndex => u32_reads.bind_pure).congr
  intro item bytes
  constructor
  · intro henc
    obtain ⟨typeIndex, front, back, rfl, htype, table, htable, rfl⟩ := henc
    exact .callIndirect htype htable
  · intro h
    cases h with
    | callIndirect htype htable => exact ⟨_, _, _, rfl, htype, _, htable, rfl⟩

theorem types_reads :
    Reads (u32 >>= fun count => many valType count >>= fun _ => pure (.plain .select))
      (Operands m .types) := by
  refine (u32_reads.bind fun count => (many_reads valType_reads count).bind_pure).congr
    fun item bytes => ?_
  constructor
  · intro henc
    obtain ⟨_, front, back, rfl, hcount, types, ⟨htypes, rfl⟩, rfl⟩ := henc
    exact .types hcount htypes
  · intro h
    cases h with
    | @types types front back hcount htypes =>
        exact ⟨_, front, back, rfl, hcount, types.toArray, ⟨htypes, rfl⟩, rfl⟩

theorem const_reads (t : ValType) :
    Reads (constant t >>= fun v => pure (.plain (.const v)))
      (Operands m (.const t)) := by
  apply (constant_reads t).bind_pure.congr
  intro item bytes
  constructor
  · intro henc
    obtain ⟨v, ⟨rfl, hv⟩, rfl⟩ := henc
    exact .const hv
  · intro h
    cases h with
    | const hv => exact ⟨_, ⟨rfl, hv⟩, rfl⟩

end Layouts

/-- Operands are read as the table of opcodes lays them out. -/
theorem operands_reads (op : Opcode) :
    Reads (operands m owner op) (Operands m op.layout) := by
  cases op with
  | nop | elseThen | endScope | catchAll | unreachable | returnOp | drop |
      select | numeric =>
      exact bare_reads _
  | block | loop | ifThen | tryBlock => exact scope_reads _
  | catchTag | delegate | throwTag | rethrow | br | brIf | localGet |
      localSet | localTee
  | globalGet | globalSet | dataDrop => exact index_reads _
  | load | store => exact access_reads _
  | memorySize | memoryGrow | memoryFill => exact memory_reads _
  | memoryCopy => exact memories_reads _
  | memoryInit => exact segment_reads
  | brTable => exact branchTable_reads
  | call => exact call_reads
  | callIndirect => exact callIndirect_reads
  | selectTyped => exact types_reads
  | const => exact const_reads _

theorem item_reads : Reads (item m owner) (Item.Encodes m) := by
  apply (opcode_reads.bind fun op => operands_reads op).congr
  intro item bytes
  constructor
  · intro henc
    obtain ⟨op, front, back, rfl, hop, hoperands⟩ := henc
    exact .mk hop hoperands
  · intro h
    cases h with
    | mk hop hoperands => exact ⟨_, _, _, rfl, hop, hoperands⟩

end Reading

/-- An instruction takes a byte at least. -/
theorem Item.Encodes.length_pos {m : Module} {item : Item} {bytes : List UInt8}
    (h : Encodes m item bytes) : 0 < bytes.length := by
  cases h with
  | mk hop hoperands =>
      have hfront := List.length_pos_iff.mpr hop.ne_nil
      rw [List.length_append]
      omega

/-- The marks of handlers are instructions of their own, never plain ones. -/
theorem Item.Encodes.isHandler_eq_false {m : Module} {instr : Instr}
    {bytes : List UInt8}
    (h : Encodes m (.plain instr) bytes) : instr.opcode.isHandler = false := by
  generalize hitem : Item.plain instr = item at h
  obtain ⟨hop, hoperands⟩ := h
  next op front back =>
  generalize hlayout : op.layout = layout at hoperands
  cases op <;> cases hlayout <;> cases hoperands <;> cases hitem <;> rfl

end WasmVm
