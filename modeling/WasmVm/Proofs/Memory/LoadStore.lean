/-
Loads and stores agree.  A store writes the low-order bytes of its operand, the least
significant first, and a load of the same width at the same address makes a value of
just these bytes, as its name says.
-/
import WasmVm.Proofs.Memory.BoundedBytes
import WasmVm.Proofs.Observing.Erasure
import WasmVm.Proofs.Typing.Rules

namespace WasmVm

variable {ω σ : Type}

/-! ### Values and bytes -/

/-- The bits of a value as a number. -/
def Value.bits : Value → Nat
  | i32 v | f32 v => v.toNat
  | i64 v | f64 v => v.toNat

/-- The value that a load gives, of a number whose low-order bytes it finds: one of its
type with these bits, or the integer that they spell, with or without a sign. -/
def LoadOp.Reads (number : Nat) : LoadOp → Value → Prop
  | full t, v => v.type = t ∧ v.bits = number % 256 ^ t.bytes
  | part32 p .signed, v => ∃ w, v = .i32 w ∧ w.toInt = (number : Int).bmod (2 ^ p.bits)
  | part32 p .unsigned, v => ∃ w, v = .i32 w ∧ w.toNat = number % 2 ^ p.bits
  | part64 p .signed, v => ∃ w, v = .i64 w ∧ w.toInt = (number : Int).bmod (2 ^ p.bits)
  | part64 p .unsigned, v => ∃ w, v = .i64 w ∧ w.toNat = number % 2 ^ p.bits

/-- From `start` on the memory has the low-order bytes of a number, the lowest first. -/
def Memory.Holds (m : Memory) (start count number : Nat) : Prop :=
  ∀ i, i < count → m.byte (start + i) = UInt8.ofNat (number / 256 ^ i)

/-- The memory has the low-order bytes of a number from `start` on, and else is as
before. -/
structure Memory.Stored (before : Memory) (start count number : Nat) (after : Memory) :
    Prop where
  size : after.size = before.size
  maximum : after.maximum = before.maximum
  inside : after.Holds start count number
  outside : ∀ i, i < start ∨ start + count ≤ i → after.byte i = before.byte i

theorem getElem?_toLittleEndian {count number i : Nat} (hi : i < count) :
    (toLittleEndian count number)[i]? = some (UInt8.ofNat (number / 256 ^ i)) := by
  induction count generalizing number i with
  | zero => omega
  | succ count ih =>
      cases i with
      | zero => simp [toLittleEndian]
      | succ i =>
          rw [toLittleEndian, List.getElem?_cons_succ, ih (Nat.lt_of_succ_lt_succ hi),
            Nat.div_div_eq_div_mul, Nat.pow_succ']

theorem Memory.Holds.slice_eq {m : Memory} {start count number : Nat}
    (h : m.Holds start count number) : m.slice start count =
      toLittleEndian count number := by
  apply List.ext_getElem?
  intro i
  by_cases hi : i < count
  · rw [getElem?_toLittleEndian hi, slice, List.getElem?_map, List.getElem?_range hi,
      Option.map_some, h i hi]
  · rw [List.getElem?_eq_none (by simpa [slice] using hi),
      List.getElem?_eq_none (by simpa using hi)]

/-- Laying the low-order bytes of a number over memory stores them. -/
theorem Memory.stored_overlay {m : Memory} {start count number : Nat}
    (hrange : start + count ≤ m.size) :
    m.Stored start count number
      (m.overlay start ⟨(toLittleEndian count number).toArray⟩) := by
  have hsize : (ByteArray.mk (toLittleEndian count number).toArray).size = count :=
    length_toLittleEndian count number
  have hlaid := @overlaid_overlay m start
    ⟨(toLittleEndian count number).toArray⟩ (by rwa [hsize])
  rw [List.toList_toArray] at hlaid
  obtain ⟨hlength, hinside, houtside⟩ := hlaid
  rw [length_toLittleEndian] at hinside houtside
  rw [length_contents, length_contents] at hlength
  refine ⟨hlength, maximum_overlay m start _, fun i hi => ?_, fun i hi => ?_⟩
  · have hbyte := hinside i hi
    rw [getElem?_toLittleEndian hi, getElem?_contents _ (by omega)] at hbyte
    exact Option.some.inj hbyte
  · by_cases hin : i < m.size
    · have hbyte := houtside i hi
      rw [getElem?_contents _ (by omega), getElem?_contents _ hin] at hbyte
      exact Option.some.inj hbyte
    · -- Past the end both read as zero.
      have hpast : (m.overlay start ⟨(toLittleEndian count number).toArray⟩).byte
          i = 0 :=
        dif_neg fun hi => hin (hlength ▸ hi)
      have hpast' : m.byte i = 0 := dif_neg hin
      rw [hpast, hpast']

namespace LoadOp

theorem bits_lt (v : Value) : v.bits < 256 ^ v.type.bytes := by
  cases v with
  | i32 w | f32 w => exact w.isLt
  | i64 w | f64 w => exact w.isLt

theorem pow_bytes_part32 (p : Part32) : 256 ^ (p.bits / 8) = 2 ^ p.bits := by
  cases p <;> rfl

theorem pow_bytes_part64 (p : Part64) : 256 ^ (p.bits / 8) = 2 ^ p.bits := by
  cases p <;> rfl

/-- A load makes what its name says of the bytes that it finds. -/
theorem reads_value (op : LoadOp) (number : Nat) :
    op.Reads number (op.value (number % 256 ^ op.bytes)) := by
  rcases op with t | ⟨p, s⟩ | ⟨p, s⟩
  · cases t <;> exact ⟨rfl, Nat.mod_eq_of_lt (Nat.mod_lt _ (by decide))⟩
  · have hbits : p.bits ≤ 32 := by cases p <;> decide
    have hcut : BitVec.ofNat p.bits (number % 256 ^ (p.bits / 8)) =
        BitVec.ofNat p.bits number := by
      apply BitVec.eq_of_toNat_eq
      simp [pow_bytes_part32]
    cases s with
    | signed =>
        refine ⟨_, rfl, ?_⟩
        rw [bytes, hcut, BitVec.toInt_signExtend_of_le hbits, BitVec.toInt_ofNat']
    | unsigned =>
        refine ⟨_, rfl, ?_⟩
        rw [bytes, hcut, BitVec.toNat_setWidth_of_le hbits, BitVec.toNat_ofNat]
  · have hbits : p.bits ≤ 64 := by cases p <;> decide
    have hcut : BitVec.ofNat p.bits (number % 256 ^ (p.bits / 8)) =
        BitVec.ofNat p.bits number := by
      apply BitVec.eq_of_toNat_eq
      simp [pow_bytes_part64]
    cases s with
    | signed =>
        refine ⟨_, rfl, ?_⟩
        rw [bytes, hcut, BitVec.toInt_signExtend_of_le hbits, BitVec.toInt_ofNat']
    | unsigned =>
        refine ⟨_, rfl, ?_⟩
        rw [bytes, hcut, BitVec.toNat_setWidth_of_le hbits, BitVec.toNat_ofNat]

/-- A value comes back as it was from a load of its own type. -/
theorem Reads.eq_of_full {v w : Value} {t : ValType} (htype : v.type = t)
    (h : (full t).Reads v.bits w) : w = v := by
  obtain ⟨hw, hbits⟩ := h
  subst htype
  rw [Nat.mod_eq_of_lt (bits_lt v)] at hbits
  cases v <;> cases w <;> first
    | exact congrArg _ (BitVec.eq_of_toNat_eq hbits)
    | cases hw

end LoadOp

/-! ### Instructions -/

/-- The store of an instance has a memory, in which a range exists. -/
structure Store.Reaches (store : Store) (memory : Memory) (start count : Nat) :
    Prop where
  present : store.memory = some memory
  range : start + count ≤ memory.size

/-- What a store finds if it can be carried out: its value on top of an address, and all
bytes that it is to write. -/
structure StoreOp.Access (op : StoreOp) (arg : MemArg) (store : Store)
    (stack rest : Stack) (v : Value) (memory : Memory) (start : Nat) : Prop where
  operands : ∃ address, stack = v :: .i32 address :: rest ∧
    start = address.toNat + arg.offset
  typed : v.type = op.type
  reaches : store.Reaches memory start op.bytes

/-- What a load finds if it can be carried out: an address, and all bytes that it is to
read. -/
structure LoadOp.Access (op : LoadOp) (arg : MemArg) (store : Store)
    (stack rest : Stack) (memory : Memory) (start : Nat) : Prop where
  operands : ∃ address, stack = .i32 address :: rest ∧
    start = address.toNat + arg.offset
  reaches : store.Reaches memory start op.bytes

/-- Something that the store needs is not there. -/
def StoreOp.Lacks (op : StoreOp) (arg : MemArg) (store : Store)
    (stack : Stack) : Prop :=
  ∀ rest v memory start, ¬ op.Access arg store stack rest v memory start

/-- Something that the load needs is not there. -/
def LoadOp.Lacks (op : LoadOp) (arg : MemArg) (store : Store) (stack : Stack) : Prop :=
  ∀ rest memory start, ¬ op.Access arg store stack rest memory start

/-- A store encodes just the values of its type, as their low-order bytes. -/
theorem StoreOp.encode_eq (op : StoreOp) (v : Value) :
    (v.type = op.type ∧ op.encode v = .ok (toLittleEndian op.bytes v.bits)) ∨
      (v.type ≠ op.type ∧ ∃ cause, op.encode v = .error cause) := by
  rcases op with ⟨⟨⟩⟩ | p | p
  all_goals cases v <;> first
    | exact .inl ⟨rfl, rfl⟩
    | exact .inr ⟨fun h => (nomatch h), _, rfl⟩

/-- What needs an address finds it on top of the stack, or traps. -/
theorem Stack.popI32_cases (stack : Stack) :
    (∃ address rest, stack = .i32 address :: rest ∧
      stack.popI32 = .ok (address, rest)) ∨
      ((∀ address rest, stack ≠ .i32 address :: rest) ∧
        ∃ cause, stack.popI32 = .error cause) := by
  match stack with
  | [] => exact .inr ⟨fun _ _ h => (nomatch h), _, rfl⟩
  | .i32 address :: rest => exact .inl ⟨address, rest, rfl, rfl⟩
  | .i64 _ :: _ | .f32 _ :: _ | .f64 _ :: _ =>
      exact .inr ⟨fun _ _ h => (nomatch h), _, rfl⟩

/-- What needs a range of memory finds it, or traps. -/
theorem Store.reaches_cases {α : Type} (store : Store) (start count : Nat)
    (next : Memory → Except Trap α) :
    (∃ memory, store.Reaches memory start count ∧
      (store.needMemory >>= fun m => m.check start count >>= fun _ =>
        next m) = next memory) ∨
    ((∀ memory, ¬ store.Reaches memory start count) ∧ ∃ cause,
      (store.needMemory >>= fun m => m.check start count >>= fun _ => next m) =
        .error cause) := by
  rcases hmemory : store.memory with _ | memory
  · refine .inr ⟨fun memory h => ?_, .noMemory, by rw [needMemory, hmemory]; rfl⟩
    cases hmemory.symm.trans h.present
  · have hneed : store.needMemory = .ok memory := by rw [needMemory, hmemory]
    rw [hneed]
    change _ ∨ _ ∧ ∃ cause, (memory.check start count >>= fun _ =>
      next memory) = .error cause
    rw [Memory.check_bind]
    by_cases hrange : start + count ≤ memory.size
    · refine .inl ⟨memory, ⟨hmemory, hrange⟩, ?_⟩
      exact (memory.check_bind start count (next memory)).trans (if_pos hrange)
    · rw [if_neg hrange]
      refine .inr ⟨fun memory' h => ?_, _, rfl⟩
      cases hmemory.symm.trans h.present
      exact hrange h.range

namespace Frame

variable (store : Store) (stack : Stack) (arg : MemArg)

/-- A store takes its operands off the stack and writes the bytes of its value, or it
traps. -/
theorem executeMemory_store (op : StoreOp) :
    (∃ rest v memory start, op.Access arg store stack rest v memory start ∧
      executeMemory store stack (.store op arg) =
        .ok (rest, .write start ⟨(toLittleEndian op.bytes v.bits).toArray⟩)) ∨
    (op.Lacks arg store stack ∧
      ∃ cause, executeMemory store stack (.store op arg) = .error cause) := by
  match stack with
  | [] =>
      refine .inr ⟨fun rest v memory start h => ?_, _, rfl⟩
      obtain ⟨address, hoperands, -⟩ := h.operands
      cases hoperands
  | v :: below =>
      rcases Stack.popI32_cases below with ⟨address, rest, rfl, -⟩ |
        ⟨hnone, cause, hpop⟩
      · have hexecute : executeMemory store (v :: .i32 address :: rest)
            (.store op arg) = (store.needMemory >>= fun memory =>
              op.encode v >>= fun bytes =>
              memory.check (address.toNat + arg.offset) bytes.length >>= fun _ =>
                .ok (rest, .write (address.toNat + arg.offset) ⟨bytes.toArray⟩)) := rfl
        have haccess : ∀ rest' w memory start,
            op.Access arg store (v :: .i32 address :: rest) rest' w memory start →
              w = v ∧ start = address.toNat + arg.offset := by
          intro rest' w memory start h
          obtain ⟨address', hoperands, hstart⟩ := h.operands
          cases hoperands
          exact ⟨rfl, hstart⟩
        rw [hexecute]
        rcases op.encode_eq v with ⟨htyped, hencode⟩ | ⟨htyped, cause, hencode⟩
        · simp only [hencode, bind, Except.bind]
          rcases store.reaches_cases (address.toNat + arg.offset)
              (toLittleEndian op.bytes v.bits).length (fun _ => .ok (rest,
                Action.write (address.toNat + arg.offset)
                  ⟨(toLittleEndian op.bytes v.bits).toArray⟩)) with
            ⟨memory, hreaches, hrun⟩ | ⟨hnone, cause, hrun⟩
          · rw [length_toLittleEndian] at hreaches
            exact .inl ⟨rest, v, memory, _,
              ⟨⟨address, rfl, rfl⟩, htyped, hreaches⟩, hrun⟩
          · refine .inr ⟨fun rest' w memory start h => ?_, cause, hrun⟩
            obtain ⟨rfl, rfl⟩ := haccess _ _ _ _ h
            rw [length_toLittleEndian] at hnone
            exact hnone memory h.reaches
        · refine .inr ⟨fun rest' w memory start h => ?_, ?_⟩
          · obtain ⟨rfl, -⟩ := haccess _ _ _ _ h
            exact htyped h.typed
          · rw [hencode]
            cases store.needMemory with
            | error cause => exact ⟨cause, rfl⟩
            | ok memory => exact ⟨cause, rfl⟩
      · refine .inr ⟨fun rest w memory start h => ?_, cause, ?_⟩
        · obtain ⟨address, hoperands, -⟩ := h.operands
          exact hnone address rest (List.cons.inj hoperands).2
        · simp only [executeMemory, Stack.pop, hpop, bind, Except.bind]

/-- A load puts the value that its bytes spell in the place of its address, or it
traps. -/
theorem executeMemory_load (op : LoadOp) :
    (∃ rest memory start, op.Access arg store stack rest memory start ∧
      executeMemory store stack (.load op arg) =
        .ok (op.value (ofLittleEndian (memory.slice start op.bytes)) :: rest,
          .proceed)) ∨
    (op.Lacks arg store stack ∧
      ∃ cause, executeMemory store stack (.load op arg) = .error cause) := by
  rcases Stack.popI32_cases stack with ⟨address, rest, rfl, -⟩ | ⟨hnone, cause, hpop⟩
  · have hexecute : executeMemory store (.i32 address :: rest) (.load op arg) =
        (store.needMemory >>= fun memory =>
          (memory.check (address.toNat + arg.offset) op.bytes >>= fun _ =>
            .ok (memory.slice (address.toNat + arg.offset) op.bytes)) >>= fun bytes =>
              .ok (op.value (ofLittleEndian bytes) :: rest, .proceed)) := rfl
    simp only [hexecute, bind_assoc]
    rcases store.reaches_cases (address.toNat + arg.offset) op.bytes (fun memory => .ok
        (op.value (ofLittleEndian (memory.slice (address.toNat + arg.offset)
          op.bytes)) :: rest, Action.proceed)) with ⟨memory, hreaches, hrun⟩ |
            ⟨hnone, cause, hrun⟩
    · exact .inl ⟨rest, memory, _, ⟨⟨address, rfl, rfl⟩, hreaches⟩, hrun⟩
    · refine .inr ⟨fun rest' memory start h => ?_, cause, hrun⟩
      obtain ⟨address', hoperands, rfl⟩ := h.operands
      cases hoperands
      exact hnone memory h.reaches
  · refine .inr ⟨fun rest memory start h => ?_, cause, ?_⟩
    · obtain ⟨address, hoperands, -⟩ := h.operands
      exact hnone address rest hoperands
    · simp only [executeMemory, hpop, bind, Except.bind]

end Frame

/-- A value of which so many bytes are in memory from `start` on can be read back.  A
load of that many bytes that comes upon this memory with this address, whenever that
is, goes well, and puts in the place of its base what its name says of the value, and
the very value if it is the load of that type. -/
def Memory.ReadsBack (env : Env ω σ) (memory : Memory) (start count : Nat) (v : Value) :
    Prop :=
  ∀ (s : State ω σ) id load arg f base rest, s.Permitted env →
    s.calls.top.fetch? = some (.plain id (.load load arg), f) →
    s.world.store.memory = some memory → f.stack = .i32 base :: rest →
    base.toNat + arg.offset = start → load.bytes = count →
    ∃ s' w, s.GoesTo env { f with stack := w :: rest } s.world.store s' ∧
      load.Reads v.bits w ∧ (load = .full v.type → w = v)

namespace State

/-- A store is carried out: its operands are taken off the stack, its bytes are in
memory and no others have changed, and its value can be read back. -/
def Stores (env : Env ω σ) (s : State ω σ) (op : StoreOp) (arg : MemArg)
    (f : Frame) : Prop :=
  ∃ rest v memory start s' memory',
    op.Access arg s.world.store f.stack rest v memory start ∧
    s.GoesTo env { f with stack := rest }
      { s.world.store with memory := some memory' } s' ∧
    memory.Stored start op.bytes v.bits memory' ∧ memory'.ReadsBack env start op.bytes v

/-- A load is carried out: what the bytes at its address spell, whatever number they
are the low-order bytes of, is in the place of its base. -/
def Loads (env : Env ω σ) (s : State ω σ) (op : LoadOp) (arg : MemArg)
    (f : Frame) : Prop :=
  ∃ rest memory start s' v, op.Access arg s.world.store f.stack rest memory start ∧
    s.GoesTo env { f with stack := v :: rest } s.world.store s' ∧
    ∀ number, memory.Holds start op.bytes number → op.Reads number v

variable {env : Env ω σ} {s : State ω σ} {id : Nat} {arg : MemArg} {f : Frame}

/-- A store that is fetched writes its bytes and takes its operands off the stack, or it
traps. -/
theorem advance_of_store {op : StoreOp} (hpermitted : s.Permitted env)
    (hfetch : s.calls.top.fetch? = some (.plain id (.store op arg), f)) :
    (∃ rest v memory start s' memory',
      op.Access arg s.world.store f.stack rest v memory start ∧
      s.GoesTo env { f with stack := rest }
        { s.world.store with memory := some memory' } s' ∧
      memory.Stored start op.bytes v.bits memory') ∨
    (op.Lacks arg s.world.store f.stack ∧ ∃ cause, s.Traps env cause) := by
  obtain ⟨w, hstore, hadvance⟩ := advance_of_permitted hpermitted hfetch
  have hexecute : f.execute env.module s.world.store (.plain id (.store op arg)) =
      (Frame.executeMemory s.world.store f.stack (.store op arg) >>= fun result =>
        .ok ({ f with stack := result.1 }, result.2)) := rfl
  rw [hexecute] at hadvance
  rcases Frame.executeMemory_store s.world.store f.stack arg op with
    ⟨rest, v, memory, start, haccess, hrun⟩ | ⟨hnone, cause, hrun⟩
  · rw [hrun] at hadvance
    refine .inl ⟨rest, v, memory, start, _, _, haccess, ⟨hadvance, rfl, ?_⟩,
      Memory.stored_overlay haccess.reaches.range⟩
    simp only [World.mapStore, Store.mapMemory, hstore, haccess.reaches.present,
      Option.map_some]
  · rw [hrun] at hadvance
    exact .inr ⟨hnone, cause, _, w, hadvance, hstore⟩

/-- A load that is fetched pushes what the bytes at its address spell, or it traps. -/
theorem advance_of_load {op : LoadOp} (hpermitted : s.Permitted env)
    (hfetch : s.calls.top.fetch? = some (.plain id (.load op arg), f)) :
    s.Loads env op arg f ∨
      (op.Lacks arg s.world.store f.stack ∧ ∃ cause, s.Traps env cause) := by
  obtain ⟨w, hstore, hadvance⟩ := advance_of_permitted hpermitted hfetch
  have hexecute : f.execute env.module s.world.store (.plain id (.load op arg)) =
      (Frame.executeMemory s.world.store f.stack (.load op arg) >>= fun result =>
        .ok ({ f with stack := result.1 }, result.2)) := rfl
  rw [hexecute] at hadvance
  rcases Frame.executeMemory_load s.world.store f.stack arg op with
    ⟨rest, memory, start, haccess, hrun⟩ | ⟨hnone, cause, hrun⟩
  · rw [hrun] at hadvance
    refine .inl ⟨rest, memory, start, _, _, haccess, ⟨hadvance, rfl, hstore⟩, ?_⟩
    intro number hholds
    rw [hholds.slice_eq, ofLittleEndian_toLittleEndian]
    exact op.reads_value number
  · rw [hrun] at hadvance
    exact .inr ⟨hnone, cause, _, w, hadvance, hstore⟩

end State

/-- What a store has written can be read back. -/
theorem Memory.Stored.readsBack {before after : Memory} {start count : Nat} {v : Value}
    (h : before.Stored start count v.bits after) (hrange : start + count ≤ before.size)
    (env : Env ω σ) : after.ReadsBack env start count v := by
  intro s id load arg f base rest hpermitted hfetch hmemory hstack hstart hbytes
  have hreaches : s.world.store.Reaches after start load.bytes := by
    refine ⟨hmemory, ?_⟩
    rwa [hbytes, h.size]
  rcases State.advance_of_load hpermitted hfetch with
    ⟨below, memory, start', s', w, hfinds, hgoes, hreads⟩ | ⟨hlacks, -⟩
  · obtain ⟨base', hoperands, rfl⟩ := hfinds.operands
    cases hstack.symm.trans hoperands
    cases hmemory.symm.trans hfinds.reaches.present
    have hread : load.Reads v.bits w := by
      apply hreads
      rw [hstart, hbytes]
      exact h.inside
    refine ⟨s', w, hgoes, hread, ?_⟩
    rintro rfl
    exact LoadOp.Reads.eq_of_full rfl hread
  · exact absurd ⟨⟨base, hstack, hstart.symm⟩, hreaches⟩ (hlacks rest after start)

/-- Loads and stores agree.  A store that finds its operands and its range writes the
low-order bytes of its value, the lowest at its effective address, which is the sum of
base and offset however large; no other byte changes, and it takes just its operands
off the stack.  A load of the same width that comes upon this memory at the same
address, whenever that is, puts in the place of its base the value that its name says
of these bytes, and the very value if it is the load of that type.  A store or a load
that does not find what it needs traps and leaves memory as it is. -/
theorem loads_read_back_stores (env : Env ω σ) :
    (∀ (s : State ω σ) id op arg f, s.Permitted env →
      s.calls.top.fetch? = some (.plain id (.store op arg), f) →
      s.Stores env op arg f ∨
        (op.Lacks arg s.world.store f.stack ∧ ∃ cause, s.Traps env cause)) ∧
    ∀ (s : State ω σ) id op arg f, s.Permitted env →
      s.calls.top.fetch? = some (.plain id (.load op arg), f) →
      s.Loads env op arg f ∨
        (op.Lacks arg s.world.store f.stack ∧ ∃ cause, s.Traps env cause) := by
  refine ⟨fun s id op arg f hpermitted hfetch => ?_, fun s id op arg f =>
    State.advance_of_load⟩
  refine (State.advance_of_store hpermitted hfetch).imp_left ?_
  rintro ⟨rest, v, memory, start, s', memory', haccess, hgoes, hstored⟩
  exact ⟨rest, v, memory, start, s', memory', haccess, hgoes, hstored,
    hstored.readsBack haccess.reaches.range env⟩

namespace LoadStoreWitness

def env : Env Unit Unit where
  module := {}
  hosts := #[]
  observer := .silent
  maxDepth := 1

/-- A load that finds at its address what the store before it has written. -/
def body : List Node :=
  [.plain 1 (.store (.part64 .low16) ⟨0, 2⟩),
    .plain 2 (.load (.part32 .low16 .signed) ⟨0, 1⟩)]

/-- A frame before the store, with eight bytes of memory. -/
def start : State Unit Unit :=
  ⟨.ofFrame ⟨.function 0, #[], [.i64 (-2), .i32 1, .i32 2],
    [⟨body, body, 0, 1, false⟩], some 1⟩,
      ⟨⟨#[], some ⟨Memory.zeros 8, 1⟩, #[]⟩, (), ()⟩⟩

/-- Of minus two in 64 bits the low-order 16 are stored, and are again minus two in 32.
-/
theorem sign_survives : ∃ s t, start.advance env = .running s ∧
    s.advance env = .running t ∧ t.calls.top.stack = [.i32 (-2)] := by
  rcases (loads_read_back_stores env).1 start 1 _ _ _ (fun _ _ _ => rfl) rfl with
    ⟨rest, v, memory, address, s, memory', haccess, hgoes, -, hback⟩ | ⟨hlacks, -⟩
  · obtain ⟨base, hoperands, rfl⟩ := haccess.operands
    cases hoperands
    have hmemory : s.world.store.memory = some memory' := by rw [hgoes.store]
    have hfetch : s.calls.top.fetch? =
        some (body[1], ⟨.function 0, #[], [.i32 2],
          [⟨[], body, 0, 1, false⟩], some 1⟩) := by
      rw [hgoes.calls]
      rfl
    obtain ⟨t, w, hreturns, hreads, -⟩ :=
      hback s 2 _ _ _ 2 [] (fun _ _ _ => rfl) hfetch hmemory rfl rfl rfl
    obtain ⟨w, rfl, hw⟩ := hreads
    refine ⟨s, t, hgoes.runs, hreturns.runs, ?_⟩
    rw [hreturns.calls]
    have hminus : w = -2 := BitVec.eq_of_toInt_eq (hw.trans (by decide))
    rw [hminus]
    rfl
  · exact absurd ⟨⟨1, rfl, rfl⟩, rfl, rfl, by decide⟩ (hlacks [.i32 2] (.i64 (-2)) _ 3)

end LoadStoreWitness

end WasmVm
