/-
What an instance starts with.  Its memory is as large as the limits ask for, and holds
zeros under its active segments; and there is an instance unless an import gets a value
of a wrong type or an active segment finds no room.
-/
import WasmVm.Proofs.Decoding.Constants
import WasmVm.Proofs.Decoding.Indices
import WasmVm.Proofs.Linking.Binding
import WasmVm.Proofs.Memory.Segments

namespace WasmVm

variable {ω σ : Type}

/-! ### Active segments -/

/-- The byte that an active segment has for an address. -/
def DataSegment.byteAt? (segment : DataSegment) (i : Nat) : Option UInt8 :=
  segment.offset?.bind fun offset => if offset ≤ i then segment.bytes[i - offset]?
    else none

/-- The segment is passive, or it ends within so many bytes. -/
def DataSegment.Fits (size : Nat) (segment : DataSegment) : Prop :=
  ∀ offset, segment.offset? = some offset → offset + segment.bytes.length ≤ size

/-- The byte at an address where segments are laid over each other in order. -/
def byteUnder (segments : List DataSegment) (i : Nat) (byte : UInt8) : UInt8 :=
  (segments.filterMap fun segment => segment.byteAt? i).getLastD byte

theorem byteUnder_cons (segment : DataSegment) (rest : List DataSegment) (i : Nat)
    (byte : UInt8) :
    byteUnder (segment :: rest) i byte =
      byteUnder rest i ((segment.byteAt? i).getD byte) := by
  rw [byteUnder, List.filterMap_cons]
  cases segment.byteAt? i with
  | none => rfl
  | some b => exact List.getLastD_cons ..

/-- The bytes of a memory with others laid over it. -/
theorem Memory.byte_of_overlaid {m m' : Memory} {start i : Nat} {bytes : List UInt8}
    (h : Overlaid m.contents start bytes m'.contents) (hi : i < m.size) :
    m'.byte i = (if start ≤ i then bytes[i - start]? else none).getD (m.byte i) := by
  obtain ⟨hlength, hinside, houtside⟩ := h
  rw [length_contents, length_contents] at hlength
  apply Option.some.inj
  rw [← getElem?_contents _ (by omega)]
  by_cases hin : start ≤ i ∧ i < start + bytes.length
  · have hat := hinside (i - start) (by omega)
    rw [Nat.add_sub_cancel' hin.1] at hat
    rw [hat, if_pos hin.1, List.getElem?_eq_getElem (by omega), Option.getD_some]
  · rw [houtside i (by omega), getElem?_contents _ hi]
    by_cases hstart : start ≤ i
    · rw [if_pos hstart, List.getElem?_eq_none (by omega), Option.getD_none]
    · rw [if_neg hstart, Option.getD_none]

/-- Active segments are written one over the other, if each fits. -/
theorem writeActive_some (segments : List DataSegment) (index : Nat) (m : Memory) :
    ((∀ segment ∈ segments, segment.Fits m.size) ∧
      ∃ m', writeActive index segments (some m) = .ok (some m') ∧ m'.size = m.size ∧
        m'.maximum = m.maximum ∧ ∀ i, i < m.size →
          m'.byte i = byteUnder segments i (m.byte i)) ∨
    ((¬ ∀ segment ∈ segments, segment.Fits m.size) ∧
      ∃ t, writeActive index segments (some m) = .error t) := by
  induction segments generalizing index m with
  | nil => exact .inl ⟨by simp, m, rfl, rfl, rfl, fun i hi => rfl⟩
  | cons segment rest ih =>
      rw [writeActive]
      cases hmode : segment.mode with
      | passive =>
          have hoffset : segment.offset? = none := by rw [DataSegment.offset?, hmode]
          have hbyte : ∀ i, segment.byteAt? i = none := by
            simp [DataSegment.byteAt?, hoffset]
          have hfits : segment.Fits m.size := by simp [DataSegment.Fits, hoffset]
          simp only [List.forall_mem_cons, hfits, true_and, byteUnder_cons, hbyte,
            Option.getD_none]
          exact ih (index + 1) m
      | active memory offset =>
          have hoffset : segment.offset? = some offset := by
            rw [DataSegment.offset?, hmode]
          have hbyte : ∀ i, segment.byteAt? i =
              if offset ≤ i then segment.bytes[i - offset]? else none := by
            simp [DataSegment.byteAt?, hoffset]
          have hfits : segment.Fits m.size ↔
              offset + segment.bytes.length ≤ m.size := by
            simp [DataSegment.Fits, hoffset]
          have hstore : (m.store offset 0 segment.bytes >>= fun m =>
              writeActive (index + 1) rest (some m)) =
              if offset + segment.bytes.length ≤ m.size then
                writeActive (index + 1) rest
                  (some (m.overlay offset ⟨segment.bytes.toArray⟩))
              else .error (.access segment.bytes.length offset m.size) := by
            rw [← Memory.check_bind]
            simp only [Memory.store, Nat.add_zero, bind_assoc, pure_bind]
          dsimp only
          rw [hstore, List.forall_mem_cons, hfits]
          by_cases hrange : offset + segment.bytes.length ≤ m.size
          · rw [if_pos hrange]
            have hlaid := Memory.overlaid_overlay ⟨segment.bytes.toArray⟩ hrange
            have hsize : (m.overlay offset ⟨segment.bytes.toArray⟩).size = m.size :=
              hlaid.length
            have hrest := ih (index + 1) (m.overlay offset ⟨segment.bytes.toArray⟩)
            rw [hsize, Memory.maximum_overlay] at hrest
            simp only [hrange, true_and, byteUnder_cons, hbyte]
            refine hrest.imp_left ?_
            rintro ⟨hall, m', hwrite, hsame, hmaximum, hbytes⟩
            refine ⟨hall, m', hwrite, hsame, hmaximum, fun i hi => ?_⟩
            rw [hbytes i hi, Memory.byte_of_overlaid hlaid hi]
          · rw [if_neg hrange]
            exact .inr ⟨fun h => hrange h.1, _, rfl⟩

/-- Without a memory there may be no active segments. -/
theorem writeActive_none (segments : List DataSegment) (index : Nat) :
    ((∀ segment ∈ segments, segment.offset? = none) ∧
      writeActive index segments none = .ok none) ∨
    ((¬ ∀ segment ∈ segments, segment.offset? = none) ∧
      ∃ t, writeActive index segments none = .error t) := by
  induction segments generalizing index with
  | nil => exact .inl ⟨by simp, rfl⟩
  | cons segment rest ih =>
      rw [writeActive]
      cases hmode : segment.mode with
      | passive =>
          have hoffset : segment.offset? = none := by rw [DataSegment.offset?, hmode]
          simp only [List.forall_mem_cons, hoffset, true_and]
          exact ih (index + 1)
      | active memory offset =>
          have hoffset : segment.offset? = some offset := by
            rw [DataSegment.offset?, hmode]
          exact .inr ⟨by simp [hoffset], _, rfl⟩

/-! ### Imported globals -/

namespace Linking

/-- An import that is no global is bound, and takes no value. -/
theorem bind_of_other (l : Linking ω) {i : Import} (h : i.kind.globalType? = none) :
    ∃ l', l.bind i = .ok l' ∧ l'.offered.globals = l.offered.globals := by
  unfold bind
  cases hkind : i.kind with
  | global type isMutable => simp [hkind, ImportKind.globalType?] at h
  | _ => exact ⟨_, rfl, rfl⟩

/-- An import of a global takes what is on offer, and refuses a value of another type.
-/
theorem bind_of_global (l : Linking ω) {i : Import} {type : ValType}
    (h : i.kind.globalType? = some type) :
    (∃ v, (l.offered.globals.take i.key).1 = some v ∧ v.type ≠ type ∧
      ∃ t, l.bind i = .error t) ∨
    ((∀ v, (l.offered.globals.take i.key).1 = some v → v.type = type) ∧
      ∃ l', l.bind i = .ok l' ∧ l'.offered.globals =
        (l.offered.globals.take i.key).2) := by
  unfold bind
  cases hkind : i.kind with
  | global type' isMutable =>
      obtain rfl : type' = type := by simpa [hkind, ImportKind.globalType?] using h
      have hkey : (⟨i.module, i.name⟩ : ImportName) = i.key := rfl
      rcases htake : l.offered.globals.take i.key with ⟨value, globals⟩
      simp only [hkey, htake]
      cases value with
      | none => exact .inr ⟨by simp, _, rfl, rfl⟩
      | some v =>
          dsimp only
          by_cases htype : v.type = type'
          · rw [if_pos htype]
            exact .inr ⟨by simpa using htype, _, rfl, rfl⟩
          · rw [if_neg htype]
            exact .inl ⟨v, rfl, htype, _, rfl⟩
  | _ => simp [hkind, ImportKind.globalType?] at h

/-- Linking fails just if an import of a global gets a value of another type. -/
theorem foldlM_fails_iff (imports : List Import) (l : Linking ω) :
    (∃ t, imports.foldlM Linking.bind l = .error t) ↔
      ∃ (n : Nat) (i : Import) (v : Value),
        (imports.filter fun i => i.kind.globalType?.isSome)[n]? = some i ∧
        (l.offered.globals.share (globalKeys imports))[n]? = some (some v) ∧
        i.kind.globalType? ≠ some v.type := by
  induction imports generalizing l with
  | nil => simp [pure, Except.pure]
  | cons i rest ih =>
      rw [List.foldlM_cons]
      cases hglobal : i.kind.globalType? with
      | none =>
          obtain ⟨l', hbind, hoffered⟩ := l.bind_of_other hglobal
          rw [hbind]
          simp only [globalKeys, List.filter_cons, hglobal, Option.isSome_none,
            Bool.false_eq_true, if_false]
          rw [← hoffered]
          exact ih l'
      | some type =>
          simp only [globalKeys, List.filter_cons, hglobal, Option.isSome_some, if_true,
            List.map_cons, Offers.share]
          rcases l.bind_of_global hglobal with ⟨v, hvalue, htype, t, hbind⟩ |
            ⟨hvalue, l', hbind, hoffered⟩
          · rw [hbind]
            refine iff_of_true ⟨t, rfl⟩ ⟨0, i, v, rfl, by simp [hvalue], ?_⟩
            rw [hglobal]
            exact fun h => htype (Option.some.inj h).symm
          · rw [hbind, ← hoffered]
            refine (ih l').trans ⟨?_, ?_⟩
            · rintro ⟨n, hn⟩
              exact ⟨n + 1, hn⟩
            · rintro ⟨n, i', v, hi, hshare, hrefused⟩
              cases n with
              | zero =>
                  obtain rfl := Option.some.inj hi
                  rw [hglobal, hvalue v (Option.some.inj hshare)] at hrefused
                  exact absurd rfl hrefused
              | succ n => exact ⟨n, i', v, hi, hshare, hrefused⟩

end Linking

/-! ### Instances -/

namespace Limits

/-- A memory of valid limits starts as they say. -/
theorem size_ofLimits {l : Limits} (h : l.Valid) :
    (Memory.ofLimits l).size = l.min * pageSize := by
  obtain ⟨hmin, hmax⟩ := h
  have hlimit : l.min ≤ pageLimit l := by
    rw [pageLimit]
    cases hl : l.max with
    | none => simpa using hmin
    | some max =>
        rw [Option.getD_some]
        exact Nat.le_min.mpr ⟨(hmax max hl).1, hmin⟩
  rw [← Memory.length_contents, Memory.contents_ofLimits, List.length_replicate,
    Nat.min_eq_left hlimit]

end Limits

theorem Memory.byte_ofLimits (l : Limits) (i : Nat) :
    (Memory.ofLimits l).byte i = 0 := by
  by_cases hi : i < (ofLimits l).size
  · have hbyte := getElem?_contents (ofLimits l) hi
    rw [contents_ofLimits, List.getElem?_replicate] at hbyte
    split at hbyte
    · exact (Option.some.inj hbyte).symm
    · cases hbyte
  · exact dif_neg hi

/-- The memory of a decoded module has valid limits. -/
theorem Module.InRange.memoryLimits?_valid {m : Module} (hm : m.InRange) {l : Limits}
    (h : m.memoryLimits? = some l) : l.Valid := by
  unfold memoryLimits? at h
  rcases Option.or_eq_some_iff.mp h with himport | ⟨-, hdefined⟩
  · obtain ⟨i, hmem, hkind⟩ := List.exists_of_findSome?_eq_some himport
    have hrange := hm.imports i (Array.mem_def.mpr hmem)
    cases hi : i.kind with
    | memory limits =>
        rw [hi] at hkind hrange
        cases hkind
        exact hrange
    | _ => simp [hi, ImportKind.memoryLimits?] at hkind
  · exact hm.memories l (Array.mem_of_getElem? hdefined)

namespace Module

/-- An import of a global is to take a value of another type from what is offered.  An
offer is used up by the first import of its name. -/
def TakesWrongType (m : Module) (offered : Imports ω) : Prop :=
  ∃ (n : Nat) (i : Import) (v : Value), m.importsOfGlobals[n]? = some i ∧
    i.key ∉ (m.importsOfGlobals.take n).map Import.key ∧
    offered.globals.get? i.key = some v ∧ i.kind.globalType? ≠ some v.type

/-- An active segment is without a memory, or it does not fit into the memory as it
starts. -/
def LacksRoom (m : Module) : Prop :=
  ∃ segment ∈ m.segments, ∃ offset, segment.offset? = some offset ∧
    ∀ limits, m.memoryLimits? = some limits →
      limits.min * pageSize < offset + segment.bytes.length

variable {m : Module}

theorem foldlM_bind_fails_iff (m : Module) (offered : Imports ω) :
    (∃ t, m.imports.toList.foldlM Linking.bind { offered } = .error t) ↔
      m.TakesWrongType offered := by
  refine (Linking.foldlM_fails_iff ..).trans ?_
  have hshare : ∀ n i, m.importsOfGlobals[n]? = some i → ∀ v,
      (offered.globals.share (Linking.globalKeys m.imports.toList))[n]? =
          some (some v) ↔
        i.key ∉ (m.importsOfGlobals.take n).map Import.key ∧
          offered.globals.get? i.key = some v := by
    intro n i hi v
    have hkeys : Linking.globalKeys m.imports.toList =
        m.importsOfGlobals.map Import.key := rfl
    rw [hkeys, Offers.getElem?_share, List.getElem?_map, hi, ← List.map_take]
    by_cases hmem : i.key ∈ (m.importsOfGlobals.take n).map Import.key
    · simp only [Option.map_some, hmem, not_true_eq_false, false_and]
      simp
    · simp only [Option.map_some, hmem, not_false_eq_true, true_and]
      exact ⟨Option.some.inj, congrArg some⟩
  constructor
  · rintro ⟨n, i, v, hi, hv, htype⟩
    obtain ⟨hfirst, hoffer⟩ := (hshare n i hi v).mp hv
    exact ⟨n, i, v, hi, hfirst, hoffer, htype⟩
  · rintro ⟨n, i, v, hi, hfirst, hoffer, htype⟩
    exact ⟨n, i, v, hi, (hshare n i hi v).mpr ⟨hfirst, hoffer⟩, htype⟩

/-- What an instance has as its memory at first. -/
structure StartsWith (m : Module) (memory : Option Memory) : Prop where
  exists_iff : memory.isSome = m.memoryLimits?.isSome
  contents : ∀ limits mem, m.memoryLimits? = some limits → memory = some mem →
    mem.size = limits.min * pageSize ∧ mem.maximum = pageLimit limits ∧
      ∀ i, i < mem.size → mem.byte i = byteUnder m.segments.toList i 0

/-- The active segments are written, unless one finds no room. -/
theorem writeActive_cases (hm : m.InRange) :
    (¬ m.LacksRoom ∧ ∃ memory,
      writeActive 0 m.segments.toList (Store.ofModule m).memory = .ok memory ∧
        m.StartsWith memory) ∨
    (m.LacksRoom ∧ ∃ t,
      writeActive 0 m.segments.toList (Store.ofModule m).memory = .error t) := by
  have hmemory : (Store.ofModule m).memory = m.memoryLimits?.map Memory.ofLimits := rfl
  rw [hmemory]
  cases hlimits : m.memoryLimits? with
  | none =>
      have hroom : m.LacksRoom ↔ ¬ ∀ segment ∈ m.segments.toList,
          segment.offset? = none := by
        simp [LacksRoom, hlimits, Option.ne_none_iff_exists']
      rw [hroom, Classical.not_not]
      refine (writeActive_none m.segments.toList 0).imp_left
        fun ⟨hpassive, hwrite⟩ => ?_
      exact ⟨hpassive, none, hwrite, by simp [hlimits], by simp⟩
  | some limits =>
      have hsize := Limits.size_ofLimits (hm.memoryLimits?_valid hlimits)
      have hroom : m.LacksRoom ↔ ¬ ∀ segment ∈ m.segments.toList,
          segment.Fits (Memory.ofLimits limits).size := by
        simp [LacksRoom, hlimits, DataSegment.Fits, hsize]
      rw [hroom, Classical.not_not]
      refine (writeActive_some m.segments.toList 0 (Memory.ofLimits limits)).imp_left ?_
      rintro ⟨hfits, memory, hwrite, hsame, hmaximum, hbytes⟩
      refine ⟨hfits, some memory, hwrite, by simp [hlimits], ?_⟩
      rintro limits' memory' hlimits' ⟨⟩
      obtain rfl := Option.some.inj (hlimits.symm.trans hlimits')
      refine ⟨hsame.trans hsize, hmaximum, fun i hi => ?_⟩
      rw [hbytes i (hsame ▸ hi), Memory.byte_ofLimits]

end Module

namespace Instance

variable {m : Module} {offered : Imports ω} {maxDepth : Nat}
  {observer : Observer σ} {host : ω} {watch : σ}

/-- There is an instance, with its memory and its segments, or a reason why there is
none. -/
theorem create_cases (hm : m.InRange) (offered : Imports ω) (maxDepth : Nat)
    (observer : Observer σ) (host : ω) (watch : σ) :
    (¬ m.TakesWrongType offered ∧ ¬ m.LacksRoom ∧ ∃ inst,
      Instance.create m offered maxDepth observer host watch = .ok inst ∧
        m.StartsWith inst.world.store.memory ∧
        ∀ k : Nat, inst.world.store.segments[k]? = m.segments[k]?.map fun s =>
          s.left k []) ∨
    ((m.TakesWrongType offered ∨ m.LacksRoom) ∧ ∃ t,
      Instance.create m offered maxDepth observer host watch = .error t) := by
  unfold Instance.create
  have hlinks := m.foldlM_bind_fails_iff offered
  cases hfold : m.imports.toList.foldlM Linking.bind { offered } with
  | error t =>
      exact .inr ⟨.inl (hlinks.mp ⟨t, hfold⟩), t, rfl⟩
  | ok linking =>
      have hright : ¬ m.TakesWrongType offered := by
        intro h
        obtain ⟨t, ht⟩ := hlinks.mpr h
        cases hfold.symm.trans ht
      rcases Module.writeActive_cases hm with ⟨hroom, memory, hwrite, hstarts⟩ |
        ⟨hroom, t, hwrite⟩
      · simp only [hwrite, bind, Except.bind, pure, Except.pure]
        refine .inl ⟨hright, hroom, _, rfl, hstarts, fun k => ?_⟩
        dsimp only [Store.ofModule]
        rw [Array.getElem?_map]
        congr 1
        funext segment
        cases hmode : segment.mode <;>
          simp [DataSegment.left, DataSegment.offset?, hmode]
      · refine .inr ⟨.inr hroom, t, ?_⟩
        simp only [hwrite, bind, Except.bind]

end Instance

/-- Memory and data segments of an instance of the module at some moment, in view of
all that has happened until then. -/
structure Module.SegmentsLeft (m : Module) (env : Env ω σ) (log : List Event)
    (now : Moment ω σ) : Prop where
  memory : now.store.memory.isSome = m.memoryLimits?.isSome
  segments : ∀ k : Nat, now.store.segments[k]? = m.segments[k]?.map fun s =>
    s.left k log
  init : ∀ s id k f length source target rest segment, now = .busy s → s.Permitted env →
    s.calls.top.fetch? = some (.plain id (.memoryInit k), f) →
    f.stack = .i32 length :: .i32 source :: .i32 target :: rest →
    m.segments[k]? = some segment → m.memoryLimits?.isSome →
    ∃ memory, s.world.store.memory = some memory ∧
      s.Inits env f (segment.left k log) memory length source target rest

/-- An instance that starts with what its module says keeps to it. -/
theorem Module.StartsWith.segmentsLeft {m : Module} {inst : Instance ω σ}
    (hstarts : m.StartsWith inst.world.store.memory)
    (hsegments : ∀ k : Nat,
      inst.world.store.segments[k]? = m.segments[k]?.map fun s => s.left k [])
    {log : List Event} {now : Moment ω σ}
    (hpast : History inst.env (.idle inst.world) log now) :
    m.SegmentsLeft inst.env log now := by
  have hkeeps := hpast.keeps
  have hmemory := hkeeps.memory.trans hstarts.exists_iff
  have hleft : ∀ k : Nat, now.store.segments[k]? =
      m.segments[k]?.map fun s => s.left k log := by
    intro k
    rw [hkeeps.segments]
    change (if _ then (inst.world.store.segments[k]?).map _
      else inst.world.store.segments[k]?) = _
    rw [hsegments]
    cases m.segments[k]? with
    | none => simp
    | some segment =>
        by_cases hdrops : log.any (Event.drops k) <;> simp [DataSegment.left, hdrops]
  refine ⟨hmemory, hleft, ?_⟩
  rintro s id k f length source target rest segment rfl hpermitted hfetch
    hstack hsegment hsome
  obtain ⟨memory, hpresent⟩ := Option.isSome_iff_exists.mp (hmemory.trans hsome)
  have hnow : s.world.store.segments[k]? = some (segment.left k log) := by
    have hk := hleft k
    rwa [hsegment] at hk
  exact ⟨memory, hpresent,
    State.advance_of_memoryInit hpermitted hfetch hstack hnow hpresent⟩

/-- Instantiation and the life of data segments.  A decoded module becomes an instance
unless a global is imported with a value of another type, or an active segment has no
memory or does not fit; nothing else is in the way.  The memory has the size that its
limits ask for and holds zeros under the active segments, the later over the earlier.

Whatever the instance, its hosts and its observer do from then on, `memory.init` finds
of an active segment nothing and of a passive one all its bytes, or nothing from the
first `data.drop` of it on.  With its operands on the stack it copies just the bytes
that it is asked for and takes the operands off, or it traps and changes nothing, and
that exactly where one of the two ranges is not there. -/
theorem segments_from_instantiation_on {fuel : Nat} {bytes : Array UInt8} {m : Module}
    (hmodule : Module.decode fuel bytes = .ok m) (offered : Imports ω) (maxDepth : Nat)
    (observer : Observer σ) (host : ω) (watch : σ) :
    ((∃ t, Instance.create m offered maxDepth observer host watch = .error t) ↔
      m.TakesWrongType offered ∨ m.LacksRoom) ∧
    ∀ inst, Instance.create m offered maxDepth observer host watch = .ok inst →
      m.StartsWith inst.world.store.memory ∧
      ∀ log now, History inst.env (.idle inst.world) log now →
        m.SegmentsLeft inst.env log now := by
  obtain ⟨hm, -⟩ := Module.decodeWith_inRange hmodule
  rcases Instance.create_cases hm offered maxDepth observer host watch with
    ⟨hright, hroom, inst, hcreate, hstarts, hsegments⟩ | ⟨hreason, t, hcreate⟩
  · refine ⟨⟨fun ⟨t, ht⟩ => ?_, fun h => absurd h (not_or.mpr ⟨hright, hroom⟩)⟩, ?_⟩
    · cases hcreate.symm.trans ht
    · intro inst' hinst
      obtain rfl := Except.ok.inj (hcreate.symm.trans hinst)
      exact ⟨hstarts, fun log now hpast => hstarts.segmentsLeft hsegments hpast⟩
  · refine ⟨iff_of_true ⟨t, hcreate⟩ hreason, fun inst hinst => ?_⟩
    cases hcreate.symm.trans hinst

namespace InstantiationWitness

open Leb128

/-- Copies the byte of the passive segment to address five, and drops the segment. -/
def body : List Node :=
  [.plain 1 (.const (.i32 5)), .plain 2 (.const (.i32 0)), .plain 3 (.const (.i32 1)),
    .plain 4 (.memoryInit 1), .plain 5 (.dataDrop 1)]

/-- One page of memory, two bytes for the addresses from three on, and a passive
segment. -/
def module : Module where
  types := #[⟨[], []⟩]
  functions := #[0]
  memories := #[⟨1, none⟩]
  codes := #[⟨#[], 0, .scope 0 .block (.func 0) body none⟩]
  segments := #[⟨.active 0 3, [7, 8]⟩, ⟨.passive, [9]⟩]

def typeBytes : List UInt8 := [0x01, 0x04, 0x01, 0x60, 0x00, 0x00]
def functionBytes : List UInt8 := [0x03, 0x02, 0x01, 0x00]
def memoryBytes : List UInt8 := [0x05, 0x03, 0x01, 0x00, 0x01]
def bodyBytes : List UInt8 :=
  [0x41, 0x05, 0x41, 0x00, 0x41, 0x01, 0xfc, 0x08, 0x01, 0x00, 0xfc, 0x09, 0x01, 0x0b]
def codeBytes : List UInt8 := [0x0a, 0x11, 0x01, 0x0f, 0x00] ++ bodyBytes
def segmentBytes : List UInt8 :=
  [0x0b, 0x0b, 0x02, 0x00, 0x41, 0x03, 0x0b, 0x02, 0x07, 0x08, 0x01, 0x01, 0x09]

theorem encodes_types :
    ListEncodes 1 FuncType.Encodes module.types.toList typeBytes := by
  have hnone : Counted ValType.Encodes [] [0] :=
    ⟨[0], [], rfl, u32_singleton (by decide), .nil⟩
  have htype : FuncType.Encodes ⟨[], []⟩ [0x60, 0x00, 0x00] :=
    ⟨[0], [0], rfl, hnone, hnone⟩
  exact .inr ⟨[4], _, rfl, u32_singleton (by decide), [1], _, rfl,
    u32_singleton (by decide),
    .cons htype .nil⟩

theorem encodes_functions :
    ListEncodes 3 (TypeIndexEncodes module) module.functions.toList functionBytes := by
  have hindex : TypeIndexEncodes module 0 [0] := ⟨u32_singleton (by decide), by decide⟩
  exact .inr ⟨[2], _, rfl, u32_singleton (by decide), [1], _, rfl,
    u32_singleton (by decide),
    .cons hindex .nil⟩

theorem encodes_memories :
    ListEncodes 5 MemoryEncodes module.memories.toList memoryBytes := by
  have hlimits : MemoryEncodes ⟨1, none⟩ [0x00, 0x01] :=
    ⟨.unbounded (.inl rfl) (u32_singleton (by decide)), by decide, by rintro max ⟨⟩⟩
  exact .inr ⟨[3], _, rfl, u32_singleton (by decide), [1], _, rfl,
    u32_singleton (by decide),
    .cons hlimits .nil⟩

/-- A constant whose number is one byte long. -/
theorem encodes_const {v : BitVec 32} {b : UInt8} (hb : b < 0x80)
    (hv : v = BitVec.ofInt 32 (signed [b]))
    (hrange : -2 ^ 31 ≤ signed [b] ∧ signed [b] < 2 ^ 31) :
    Item.Encodes module (.plain (.const (.i32 v))) ([0x41] ++ [b]) := by
  have hop : (Opcode.const .i32).Encodes [0x41] := .single rfl
  have hnumber : Signed 5 (signed [b]) [b] := ⟨.last hb, by simp, rfl⟩
  exact .mk hop (.const (v := .i32 v) ⟨_, hnumber, hrange, hv⟩)

theorem encodes_body :
    BodyEncodes module (.func 0) (.scope 0 .block (.func 0) body none) bodyBytes := by
  have hfive : Item.Encodes module (.plain (.const (.i32 5))) ([0x41] ++ [0x05]) :=
    encodes_const (by decide) (by decide) (by decide)
  have hzero : Item.Encodes module (.plain (.const (.i32 0))) ([0x41] ++ [0x00]) :=
    encodes_const (by decide) (by decide) (by decide)
  have hone : Item.Encodes module (.plain (.const (.i32 1))) ([0x41] ++ [0x01]) :=
    encodes_const (by decide) (by decide) (by decide)
  have hindex : U32 1 [0x01] := u32_singleton (by decide)
  have hinit : Item.Encodes module (.plain (.memoryInit 1))
      ([0xfc, 0x08] ++ ([0x01] ++ [0x00])) := by
    have hnumber : U32 8 [0x08] := u32_singleton (by decide)
    have hop : Opcode.memoryInit.Encodes [0xfc, 0x08] := .extended rfl hnumber
    exact .mk hop (.segment hindex)
  have hdrop : Item.Encodes module (.plain (.dataDrop 1)) ([0xfc, 0x09] ++ [0x01]) := by
    have hnumber : U32 9 [0x09] := u32_singleton (by decide)
    have hop : Opcode.dataDrop.Encodes [0xfc, 0x09] := .extended rfl hnumber
    have hoperand : Operands module Opcode.dataDrop.layout
        (.plain (.dataDrop 1)) [0x01] :=
      .index hindex
    exact .mk hop hoperand
  have hend : Item.Encodes module .close ([0x0b] ++ []) := by
    have hop : Opcode.endScope.Encodes [0x0b] := .single rfl
    exact .mk hop .bare
  refine ⟨[.plain (.const (.i32 5)), .plain (.const (.i32 0)), .plain (.const (.i32 1)),
    .plain (.memoryInit 1), .plain (.dataDrop 1)], _, ?_, ?_, rfl⟩
  · exact .cons (.plain rfl) (.cons (.plain rfl) (.cons (.plain rfl) (.cons (.plain rfl)
      (.single (.plain rfl)))))
  · exact .cons hfive
      (.cons hzero (.cons hone (.cons hinit (.cons hdrop (.cons hend .nil)))))

theorem encodes_codes :
    ListEncodes 10 (fun entry => Code.Encodes module entry.1 entry.2)
    (module.functions.toList.zip module.codes.toList) codeBytes := by
  have hgroups : Counted LocalsEncode [] [0x00] :=
    ⟨[0], [], rfl, u32_singleton (by decide), .nil⟩
  have hcode : Code.Encodes module 0 module.codes[0] ([0x0f, 0x00] ++ bodyBytes) :=
    ⟨⟨[], []⟩, [], [0x0f], [0x00], bodyBytes, rfl,
      u32_singleton (by decide), rfl, rfl, rfl,
      by decide, hgroups, encodes_body⟩
  have heach : Each (fun entry : Nat × Code => Code.Encodes module entry.1 entry.2)
      [(0, module.codes[0])] (([0x0f, 0x00] ++ bodyBytes) ++ []) := .cons hcode .nil
  exact .inr ⟨[0x11], _, rfl, u32_singleton (by decide), [1], _, rfl,
    u32_singleton (by decide), heach⟩

theorem encodes_segments :
    ListEncodes 11 DataSegment.Encodes module.segments.toList segmentBytes := by
  have hoffset : OffsetEncodes 3 [0x41, 0x03, 0x0b] :=
    ⟨3, [0x03], rfl, ⟨.last (by decide), by decide, by decide⟩, by decide, by decide⟩
  have hflags : U32 0 [0] := u32_singleton (by decide)
  have hactive : DataSegment.Encodes ⟨.active 0 3, [7, 8]⟩
      [0x00, 0x41, 0x03, 0x0b, 0x02, 0x07, 0x08] :=
    ⟨[0x00, 0x41, 0x03, 0x0b], [2], rfl, .first hflags hoffset,
      u32_singleton (by decide)⟩
  have hpassive : DataSegment.Encodes ⟨.passive, [9]⟩ [0x01, 0x01, 0x09] :=
    ⟨[1], [1], rfl, .passive (u32_singleton (by decide)), u32_singleton (by decide)⟩
  exact .inr ⟨[0x0b], _, rfl, u32_singleton (by decide), [2], _, rfl,
    u32_singleton (by decide), .cons hactive (.cons hpassive .nil)⟩

theorem encodes_module : module.Encodes ([0x00, 0x61, 0x73, 0x6d, 1, 0, 0, 0] ++
    (typeBytes ++ (functionBytes ++ (memoryBytes ++
      (codeBytes ++ segmentBytes))))) := by
  refine ⟨typeBytes, [], functionBytes, memoryBytes, [], [], [], [],
    codeBytes, segmentBytes,
    ?_, rfl⟩
  exact {
    types := encodes_types
    imports := .inl ⟨rfl, rfl⟩
    functions := encodes_functions
    memories := encodes_memories
    tags := .inl ⟨rfl, rfl⟩
    globals := .inl ⟨rfl, rfl⟩
    exports := .inl ⟨rfl, rfl⟩
    count := rfl
    size := rfl
    codes := encodes_codes
    segments := encodes_segments
    names := rfl }

theorem decode_bytes : Module.decode 3 ([0x00, 0x61, 0x73, 0x6d, 1, 0, 0, 0] ++
    (typeBytes ++ (functionBytes ++ (memoryBytes ++
      (codeBytes ++ segmentBytes))))).toArray = .ok module :=
  Module.decodeWith_of_encodes encodes_module fun _ =>
    ConstExpr.evaluate_const (by decide)

theorem right_types : ¬ module.TakesWrongType ({} : Imports Unit) := by
  rintro ⟨n, i, v, hi, -⟩
  cases hi

theorem has_room : ¬ module.LacksRoom := by
  rintro ⟨segment, hmem, offset, hoffset, hlacks⟩
  have hlimits := hlacks ⟨1, none⟩ rfl
  have hcases : segment = ⟨.active 0 3, [7, 8]⟩ ∨ segment = ⟨.passive, [9]⟩ := by
    simpa [module] using hmem
  rcases hcases with rfl | rfl
  · cases hoffset
    exact absurd hlimits (by decide)
  · cases hoffset

def env : Env Unit Unit where
  module := module
  hosts := #[]
  observer := .silent
  maxDepth := 1

/-- An instance of the module. -/
def loaded (memory : Option Memory) : Instance Unit Unit where
  env := env
  world := ⟨⟨#[], memory, #[[], [9]]⟩, (), ()⟩

theorem exists_loaded {inst : Instance Unit Unit}
    (h : Instance.create module {} 1 .silent () () = .ok inst) :
    ∃ memory, inst = loaded memory := by
  obtain ⟨linking, memory, hfold, -, rfl⟩ := Instance.create_eq h
  cases hfold
  exact ⟨memory, by simp [loaded, env, module, Store.ofModule]⟩

/-- A call of the function that has some instructions left. -/
def calling (rest : List Node) (stack : Stack) (store : Store) : State Unit Unit :=
  ⟨.ofFrame ⟨.function 0, #[], stack, [⟨rest, body, 0, 0, false⟩], some 0⟩,
    ⟨store, (), ()⟩⟩

/-- A step of the call. -/
theorem step_past {s s' : State Unit Unit} {events : List Event}
    (hadvance : s.advance env = .running s') (hevents : s.events env = events) :
    History env (.busy s) events (.busy s') := by
  have hnext : History env (.busy s) ([] ++ s.events env) (s.advance env).moment :=
    History.nil.next .advanced
  rwa [hadvance, hevents] at hnext

theorem eq_calling {rest left : List Node} {stack stack' : Stack} {store store' : Store}
    {s' : State Unit Unit}
    (h : (calling rest stack store).GoesTo env
      ⟨.function 0, #[], stack', [⟨left, body, 0, 0, false⟩], some 0⟩ store' s') :
    s' = calling left stack' store' := by
  obtain ⟨calls, store'', host, watch⟩ := s'
  obtain ⟨-, rfl, rfl⟩ := h
  rfl

/-- A call comes to its `memory.init`. -/
theorem call_past (w : World Unit Unit) :
    History env (.idle w)
      [.fetched (.plain 1 (.const (.i32 5))), .fetched (.plain 2 (.const (.i32 0))),
        .fetched (.plain 3 (.const (.i32 1)))]
      (.busy (calling (body.drop 3) [.i32 1, .i32 0, .i32 5] w.store)) := by
  have hbegun : Operation.start env w (.invoke 0 []) = .running
      (calling body [] w.store) := rfl
  have hfirst : (calling body [] w.store).advance env =
      .running (calling (body.drop 1) [.i32 5] w.store) := rfl
  have hsecond : (calling (body.drop 1) [.i32 5] w.store).advance env =
      .running (calling (body.drop 2) [.i32 0, .i32 5] w.store) := rfl
  have hthird : (calling (body.drop 2) [.i32 0, .i32 5] w.store).advance env =
      .running (calling (body.drop 3) [.i32 1, .i32 0, .i32 5] w.store) := rfl
  exact (History.nil.next (.begun hbegun)).trans ((step_past hfirst rfl).trans
    ((step_past hsecond rfl).trans (step_past hthird rfl)))

/-- After it the call drops the segment and returns. -/
theorem drop_past (store : Store) :
    History env (.busy (calling (body.drop 4) [] store))
      [.fetched (.plain 5 (.dataDrop 1))]
      (.idle ⟨store.dropSegment 1, (), ()⟩) := by
  have hdrops : (calling (body.drop 4) [] store).advance env =
      .running (calling [] [] (store.dropSegment 1)) := rfl
  have hcloses : (calling [] [] (store.dropSegment 1)).advance env =
      .running ⟨.ofFrame ⟨.function 0, #[], [], [], some 0⟩,
        ⟨store.dropSegment 1, (), ()⟩⟩ := rfl
  exact ((step_past hdrops rfl).trans (step_past hcloses rfl)).next .advanced

/-- The module becomes an instance that has the bytes at their addresses, and of the
two segments the passive one is still there.  Its byte is copied, which works until the
segment is dropped and traps in the next call. -/
theorem segment_written : ∃ inst memory,
    Instance.create module {} 1 .silent () () = .ok inst ∧
    inst.world.store.memory = some memory ∧ memory.size = 65536 ∧
    memory.byte 2 = 0 ∧ memory.byte 4 = 8 ∧ memory.byte 5 = 0 ∧
    inst.world.store.segments[0]? = some [] ∧ inst.world.store.segments[1]? = some [9] ∧
    ∃ log s s' copied more t cause, History inst.env (.idle inst.world) log (.busy s) ∧
      s.advance inst.env = .running s' ∧ s'.world.store.memory = some copied ∧
      copied.byte 5 = 9 ∧ History inst.env (.busy s') more (.busy t) ∧
      t.world.store.segments[1]? = some [] ∧ t.Traps inst.env cause ∧
      cause.code = .memoryOutOfBounds := by
  obtain ⟨hfails, hlater⟩ := segments_from_instantiation_on decode_bytes
    ({} : Imports Unit) 1 (.silent : Observer Unit) () ()
  cases hcreate : Instance.create module {} 1 .silent () () with
  | error t =>
      exact absurd (hfails.mp ⟨t, hcreate⟩) (not_or.mpr ⟨right_types, has_room⟩)
  | ok inst =>
      obtain ⟨hstarts, hruns⟩ := hlater inst hcreate
      have hsegments := (hruns [] _ .nil).segments
      obtain ⟨memory, hmemory⟩ := Option.isSome_iff_exists.mp
        (hstarts.exists_iff.trans rfl : inst.world.store.memory.isSome = true)
      obtain ⟨hsize, -, hbytes⟩ := hstarts.contents ⟨1, none⟩ memory rfl hmemory
      have hpage : memory.size = 65536 := hsize
      refine ⟨inst, memory, rfl, hmemory, hpage, ?_, ?_, ?_, hsegments 0,
        hsegments 1, ?_⟩
      · rw [hbytes 2 (by omega)]
        rfl
      · rw [hbytes 4 (by omega)]
        rfl
      · rw [hbytes 5 (by omega)]
        rfl
      · obtain ⟨memory', rfl⟩ := exists_loaded hcreate
        obtain rfl : memory' = some memory := hmemory
        -- The first call finds the byte, and room for it.
        have hpast := call_past (loaded (some memory)).world
        obtain ⟨before, hbefore, hinit⟩ := (hruns _ _ hpast).init _ 4 1 _ 1 0 5 []
          ⟨.passive, [9]⟩ rfl (fun _ _ _ => rfl) rfl rfl rfl rfl
        obtain rfl : memory = before := Option.some.inj hbefore
        rcases hinit with ⟨-, -, s', copied, hgoes, -, hlaid⟩ | ⟨hrange, -⟩
        · obtain rfl := eq_calling hgoes
          have hbyte : copied.byte 5 = 9 :=
            Memory.byte_of_overlaid hlaid (show 5 < memory.size by omega)
          -- The second one finds no segment.
          have hcopy := step_past hgoes.runs rfl
          have hmore := (drop_past ⟨#[], some copied, #[[], [9]]⟩).trans (call_past _)
          obtain ⟨after, hafter, hinit⟩ :=
            (hruns _ _ ((hpast.trans hcopy).trans hmore)).init
            _ 4 1 _ 1 0 5 [] ⟨.passive, [9]⟩ rfl (fun _ _ _ => rfl) rfl rfl rfl rfl
          rcases hinit with ⟨hrange, -⟩ | ⟨-, cause, hcode, htraps⟩
          · simp [DataSegment.left, Event.drops] at hrange
          · exact ⟨_, _, _, copied, _, _, cause, hpast, hgoes.runs, rfl,
              hbyte, hmore, rfl, htraps, hcode⟩
        · rw [hpage] at hrange
          exact absurd hrange (by decide)

end InstantiationWitness

end WasmVm
