/-
Reads side by side.  Two reads are parallel if the second goes the way of the first on
every input that has the same bytes ahead, wherever the two inputs lie.  Decoders of
modules that differ in their names alone are parallel: names only serve messages.
-/
import WasmVm.Proofs.Decoding.Encoded

namespace WasmVm

open Leb128

/-- Where the first read succeeds, the second one does on the same bytes, and their
results are related. -/
def Parallel {ε α β : Type} (R : α → β → Prop) (x : EStateM ε Cursor α)
    (y : EStateM ε Cursor β) : Prop :=
  ∀ c d a c', c.rest = d.rest → x c = .ok a c' →
    ∃ b bytes, y d = .ok b (d.advance bytes.length) ∧ R a b ∧ bytes <+: c.rest ∧
      c' = c.advance bytes.length

theorem Cursor.isFinished_eq_of_rest {c d : Cursor} (h : c.rest = d.rest) :
    c.isFinished = d.isFinished := by
  rw [Bool.eq_iff_iff, isFinished_iff, isFinished_iff, h]

theorem Cursor.remaining_eq_of_rest {c d : Cursor} (h : c.rest = d.rest) :
    c.remaining = d.remaining := by
  rw [← length_rest, h, length_rest]

/-- Moving on as far leaves the same bytes ahead. -/
theorem Cursor.rest_advance_eq {c d : Cursor} (h : c.rest = d.rest) (count : Nat) :
    (c.advance count).rest = (d.advance count).rest := by
  rw [rest_advance, rest_advance, h]

namespace Parallel

variable {ε α β α' β' : Type} {R : α → β → Prop} {S : α' → β' → Prop}
  {x : EStateM ε Cursor α} {y : EStateM ε Cursor β}

theorem pure {a : α} {b : β} (h : R a b) :
    Parallel R (Pure.pure a : EStateM ε Cursor α) (Pure.pure b) := by
  rintro c d _ _ - ⟨⟩
  exact ⟨b, [], rfl, h, List.nil_prefix, rfl⟩

/-- Nothing is asked of what goes along with a read that always fails. -/
theorem of_fails (h : ∀ c a c', x c ≠ .ok a c') : Parallel R x y :=
  fun c _ a c' _ hok => absurd hok (h c a c')

/-- What comes after bytes that both have read. -/
theorem after (h : Parallel R x y) {c d c' : Cursor} {a : α} {front : List UInt8}
    (hrest : c.rest = d.rest) (hfront : front <+: c.rest)
    (hx : x (c.advance front.length) = .ok a c') :
    ∃ b bytes, y (d.advance front.length) = .ok b (d.advance bytes.length) ∧ R a b ∧
      bytes <+: c.rest ∧ c' = c.advance bytes.length := by
  obtain ⟨b, back, hy, hR, hback, rfl⟩ := h _ _ a c' (Cursor.rest_advance_eq hrest _) hx
  refine ⟨b, front ++ back, ?_, hR, Cursor.prefix_rest_append.mpr ⟨hfront, hback⟩, ?_⟩
  · rw [hy, Cursor.advance_advance, List.length_append]
  · rw [Cursor.advance_advance, List.length_append]

/-- One read after the other. -/
theorem bind {f : α → EStateM ε Cursor α'} {g : β → EStateM ε Cursor β'}
    (hx : Parallel R x y)
    (hf : ∀ a b, R a b → Parallel S (f a) (g b)) : Parallel S (x >>= f) (y >>= g) := by
  intro c d a' c' hrest h
  obtain ⟨a, mid, hmid, hlast⟩ := EStateM.bind_eq_ok h
  obtain ⟨b, front, hy, hR, hfront, rfl⟩ := hx c d a mid hrest hmid
  obtain ⟨b', bytes, hg, hafter⟩ := (hf a b hR).after hrest hfront hlast
  exact ⟨b', bytes, (EStateM.bind_of_ok hy).trans hg, hafter⟩

/-- One read after the other, where the first is the same on both sides. -/
theorem bind_eq {x y : EStateM ε Cursor α} {f : α → EStateM ε Cursor α'}
    {g : α → EStateM ε Cursor β'} (hx : Parallel Eq x y)
    (hf : ∀ a, Parallel S (f a) (g a)) :
    Parallel S (x >>= f) (y >>= g) :=
  hx.bind fun a _ hab => hab ▸ hf a

theorem bind_pure {f : α → α'} {g : β → β'} (hx : Parallel R x y)
    (hf : ∀ a b, R a b → S (f a) (g b)) :
    Parallel S (x >>= fun a => Pure.pure (f a)) (y >>= fun b => Pure.pure (g b)) :=
  hx.bind fun a b hab => .pure (hf a b hab)

theorem ite {p : Prop} [Decidable p] {x' : EStateM ε Cursor α} {y' : EStateM ε Cursor β}
    (hx : Parallel R x y) (hx' : Parallel R x' y') :
    Parallel R (if p then x else x') (if p then y else y') := by
  by_cases hp : p
  · rwa [if_pos hp, if_pos hp]
  · rwa [if_neg hp, if_neg hp]

/-- Looking where a read is. -/
theorem get : Parallel (fun c d => c.rest = d.rest)
    (MonadState.get : EStateM ε Cursor Cursor) MonadState.get := by
  rintro c d _ _ hrest ⟨⟩
  exact ⟨d, [], rfl, hrest, List.nil_prefix, rfl⟩

/-- Between two looks both sides have read the same bytes. -/
theorem since {f : Cursor → α → Cursor → EStateM ε Cursor α'}
    {g : Cursor → β → Cursor → EStateM ε Cursor β'} (hx : Parallel R x y)
    (hf : ∀ start start' a b after after', R a b →
      after.since start.pos = after'.since start'.pos →
      Parallel S (f start a after) (g start' b after')) :
    Parallel S (MonadState.get >>= fun start => x >>= fun a =>
      MonadState.get >>= f start a) (MonadState.get >>= fun start => y >>= fun b =>
        MonadState.get >>= g start b) := by
  intro c d a' c' hrest h
  obtain ⟨a, mid, hmid, hlast⟩ := EStateM.bind_eq_ok (x := x) h
  obtain ⟨b, front, hy, hR, hfront, rfl⟩ := hx c d a mid hrest hmid
  have hsince : (c.advance front.length).since c.pos =
      (d.advance front.length).since d.pos := by
    rw [Cursor.since_advance hfront, Cursor.since_advance (hrest ▸ hfront)]
  obtain ⟨b', bytes, hg, hafter⟩ := (hf c d a b _ _ hR hsince).after hrest hfront hlast
  refine ⟨b', bytes, ?_, hafter⟩
  rw [EStateM.get_bind, EStateM.bind_of_ok hy, EStateM.get_bind, hg]

/-- Reads that accept the encodings of their results. -/
theorem of_reads {r s : Reading α} {E F : α → List UInt8 → Prop} (hr : Reads r E)
    (hs : Reads s F) (h : ∀ a bytes, E a bytes → F a bytes) : Parallel Eq r s := by
  intro c d a c' hrest hread
  obtain ⟨bytes, hE, hahead, rfl⟩ := (hr c a c').mp hread
  have hother : s d = .ok a (d.advance bytes.length) :=
    (hs d a _).mpr ⟨bytes, h a bytes hE, hrest ▸ hahead, rfl⟩
  exact ⟨a, bytes, hother, rfl, hahead, rfl⟩

theorem lift {r : Reading α} {s : Reading β} (h : Parallel R r s) :
    Parallel R (liftM r : Decoding α) (liftM s : Decoding β) := by
  intro c d a c' hrest hread
  obtain ⟨b, bytes, hother, hafter⟩ := h c d a c' hrest (Decoding.ofReading_eq_ok hread)
  exact ⟨b, bytes, Decoding.lift_of_ok hother, hafter⟩

/-- Reads inside windows that hold the same bytes. -/
theorem within {x : Decoding α} {y : Decoding β} (h : Parallel R x y)
    {inner inner' : Cursor} (hrest : inner.rest = inner'.rest) :
    Parallel (fun p q => R p.1 q.1 ∧ p.2.rest = q.2.rest) (Decoding.within inner x)
      (Decoding.within inner' y) := by
  rintro c d ⟨a, after⟩ c' - hwithin
  obtain ⟨hread, rfl⟩ := Decoding.within_eq_ok hwithin
  obtain ⟨b, bytes, hother, hR, -, rfl⟩ := h inner inner' a after hrest hread
  refine ⟨(b, inner'.advance bytes.length), [], ?_,
    ⟨hR, Cursor.rest_advance_eq hrest _⟩, List.nil_prefix, rfl⟩
  rw [Decoding.within, hother]
  rfl

/-- Two reads that are parallel both ways succeed together. -/
theorem both {T : β → α → Prop} (h : Parallel R x y)
    (h' : Parallel T y x) {c d : Cursor} (hrest : c.rest = d.rest) :
    (∃ a b c' d', x c = .ok a c' ∧ y d = .ok b d' ∧ R a b ∧ c'.rest = d'.rest) ∨
    ∃ e e' c' d', x c = .error e c' ∧ y d = .error e' d' := by
  cases hx : x c with
  | ok a c' =>
      obtain ⟨b, bytes, hy, hR, -, rfl⟩ := h c d a c' hrest hx
      exact .inl ⟨a, b, _, _, rfl, hy, hR, Cursor.rest_advance_eq hrest _⟩
  | error e c' =>
      cases hy : y d with
      | ok b d' =>
          obtain ⟨a, bytes, hx', -⟩ := h' d c b d' hrest.symm hy
          rw [hx] at hx'
          cases hx'
      | error e' d' => exact .inr ⟨e, e', c', d', rfl, rfl⟩

end Parallel

/-! ### Reads that name no module -/

/-- A read that accepts exactly its encodings goes along with itself. -/
theorem Reads.parallel {α : Type} {r : Reading α} {E : α → List UInt8 → Prop}
    (h : Reads r E) :
    Parallel Eq r r :=
  .of_reads h h fun _ _ => id

namespace Reading

theorem fail_parallel {α β : Type} {R : α → β → Prop} {fault : FormatFault}
    {y : Reading β} :
    Parallel R (fail fault : Reading α) y := by
  apply Parallel.of_fails
  rintro c a c' ⟨⟩

theorem offset_parallel : Parallel (fun _ _ => True) offset offset := by
  rintro c d _ _ - ⟨⟩
  exact ⟨d.offset, [], rfl, trivial, List.nil_prefix, rfl⟩

theorem offset_bind_parallel {α β : Type} {R : α → β → Prop} {f : Nat → Reading α}
    {g : Nat → Reading β} (h : ∀ start start', Parallel R (f start) (g start')) :
    Parallel R (offset >>= f) (offset >>= g) :=
  offset_parallel.bind fun start start' _ => h start start'

theorem byte_parallel : Parallel Eq byte byte := byte_reads.parallel

theorem u32_parallel : Parallel Eq u32 u32 := u32_reads.parallel

theorem bytes_parallel (count : Nat) : Parallel Eq (bytes count) (bytes count) :=
  (bytes_reads count).parallel

theorem valType_parallel : Parallel Eq valType valType := valType_reads.parallel

/-- A window of its own holds the same bytes. -/
theorem window_parallel (count : Nat) :
    Parallel (fun inner inner' => inner.rest = inner'.rest) (window count)
      (window count) :=
  offset_bind_parallel fun _ _ => (bytes_parallel count).bind_eq fun _ => .pure rfl

/-- Turn by turn. -/
theorem forRange_parallel {α β : Type} {R : α → β → Prop} {read : Nat → α → Reading α}
    {read' : Nat → β → Reading β}
    (hstep : ∀ turn a b, R a b → Parallel R (read turn a) (read' turn b))
    (left turn : Nat) {a : α} {b : β} (h : R a b) :
    Parallel R (forRange read left turn a) (forRange read' left turn b) := by
  induction left generalizing turn a b with
  | zero => exact .pure h
  | succ left ih => exact (hstep turn a b h).bind fun _ _ hnext => ih (turn + 1) hnext

theorem valTypes_parallel : Parallel Eq valTypes valTypes :=
  u32_parallel.bind_eq fun count =>
    (many_reads valType_reads count).parallel.bind_eq fun _ => .pure rfl

theorem funcType_parallel : Parallel Eq funcType funcType := by
  refine byte_parallel.bind_eq fun form =>
    .ite ?_ (offset_bind_parallel fun _ _ => fail_parallel)
  exact valTypes_parallel.bind_eq fun params => valTypes_parallel.bind_eq fun results =>
    .pure rfl

theorem limits_parallel : Parallel Eq limits limits := by
  refine byte_parallel.bind_eq fun flags => u32_parallel.bind_eq fun min =>
    .ite (.pure rfl) ?_
  exact .ite (u32_parallel.bind_eq fun max => .pure rfl) fail_parallel

theorem memoryLimits_parallel : Parallel Eq memoryLimits memoryLimits :=
  limits_parallel.bind_eq fun _ => .ite fail_parallel (.ite fail_parallel (.pure rfl))

theorem mutability_parallel : Parallel Eq mutability mutability :=
  byte_parallel.bind_eq fun _ => .ite (.pure rfl) (.ite (.pure rfl) fail_parallel)

theorem name_parallel : Parallel Eq name name :=
  u32_parallel.bind_eq fun length => (bytes_parallel length).bind_eq fun _ => .pure rfl

theorem exportKind_parallel (name : String) :
    Parallel Eq (exportKind name) (exportKind name) :=
  byte_parallel.bind_eq fun _ => .ite (.pure rfl) <| .ite (.pure rfl) <|
    .ite (.pure rfl) <|
    .ite (.pure rfl) <| .ite (.pure rfl) fail_parallel

theorem exportEntry_parallel : Parallel Eq exportEntry exportEntry :=
  name_parallel.bind_eq fun name => (exportKind_parallel name).bind_eq fun _ =>
    u32_parallel.bind_eq fun _ => .pure rfl

theorem localGroup_parallel (function : Nat) (locals : Array ValType) :
    Parallel Eq (localGroup function locals) (localGroup function locals) := by
  refine u32_parallel.bind_eq fun count => valType_parallel.bind_eq fun type => ?_
  exact .ite fail_parallel (.pure rfl)

/-! ### Reads against a module -/

variable {m m' : Module}

theorem typeIndex_parallel (m : Module) : Parallel Eq (typeIndex m) (typeIndex m) :=
  offset_bind_parallel fun _ _ => u32_parallel.bind_eq fun _ =>
    .ite (.pure rfl) fail_parallel

theorem importEntry_parallel (m : Module) :
    Parallel Eq (importEntry m) (importEntry m) := by
  refine name_parallel.bind_eq fun module => name_parallel.bind_eq fun name => ?_
  refine byte_parallel.bind_eq fun kind => .ite ?function <|
    .ite ?table <| .ite ?memory <|
    .ite ?global <| .ite ?tag fail_parallel
  case function => exact (typeIndex_parallel m).bind_eq fun _ => .pure rfl
  case table => exact byte_parallel.bind_eq fun _ =>
    limits_parallel.bind_eq fun _ => .pure rfl
  case memory => exact memoryLimits_parallel.bind_eq fun _ => .pure rfl
  case global =>
    exact valType_parallel.bind_eq fun _ => mutability_parallel.bind_eq fun _ =>
      .pure rfl
  case tag =>
    exact byte_parallel.bind_eq fun _ => (typeIndex_parallel m).bind_eq fun _ =>
      .pure rfl

theorem tag_parallel (m : Module) : Parallel Eq (tag m) (tag m) :=
  byte_parallel.bind_eq fun _ => typeIndex_parallel m

/-- The owner of a body is only for messages. -/
theorem body_parallel (h : m.SameFunctions m') (owner owner' : String)
    (type : BlockType) :
    Parallel Eq (body m owner type) (body m' owner' type) :=
  .of_reads (body_reads m owner type) (body_reads m' owner' type) fun _ _ =>
    h.body_encodes

theorem global_parallel (h : m.SameFunctions m') :
    Parallel Eq (global m) (global m') := by
  refine valType_parallel.bind_eq fun type =>
    mutability_parallel.bind_eq fun isMutable => ?_
  refine (body_parallel h _ _ (.value type)).since fun _ _ root root' _ _ hroot hinit =>
    ?_
  rw [hroot, hinit]
  exact .pure rfl

theorem code_parallel (h : m.SameFunctions m') (function typeIndex : Nat)
    (type : FuncType) :
    Parallel Eq (code m function typeIndex type) (code m' function typeIndex type) := by
  refine u32_parallel.bind_eq fun groups => ?_
  refine (forRange_parallel (R := Eq) (fun _ _ _ hlocals =>
    hlocals ▸ localGroup_parallel _ _) groups 0 rfl).bind_eq fun locals => ?_
  refine (body_parallel h _ _ (.func typeIndex)).bind_eq fun body => ?_
  refine Parallel.get.bind fun after after' hafter => ?_
  rw [Cursor.isFinished_eq_of_rest hafter]
  refine .ite (.pure rfl) (.of_fails ?_)
  rintro c a c' ⟨⟩

end Reading

/-! ### Names -/

namespace Names

variable {c d : Cursor} {names : Names}

theorem entry_parallel : Parallel Eq entry entry :=
  Reading.u32_parallel.bind_eq fun _ => Reading.name_parallel.bind_eq fun _ => .pure rfl

theorem subsection_parallel :
    Parallel (fun s t => s.1 = t.1 ∧ s.2.rest = t.2.rest) subsection subsection :=
  Reading.byte_parallel.bind_eq fun _ => Reading.u32_parallel.bind_eq fun size =>
    (Reading.window_parallel size).bind_pure fun _ _ hinner => ⟨rfl, hinner⟩

theorem addEntries_eq_of_rest (left : Nat) (h : c.rest = d.rest) :
    addEntries left names c = addEntries left names d := by
  induction left generalizing names c d with
  | zero => rfl
  | succ left ih =>
      rcases entry_parallel.both entry_parallel h with
        ⟨⟨index, name⟩, _, c', d', hc, hd, rfl, hrest⟩ | ⟨_, _, c', d', hc, hd⟩
      · simp only [addEntries, hc, hd]
        exact ih hrest
      · simp only [addEntries, hc, hd]

theorem addSubsections_eq_of_rest (fuel : Nat) (h : c.rest = d.rest) :
    addSubsections fuel names c = addSubsections fuel names d := by
  induction fuel generalizing names c d with
  | zero => rfl
  | succ fuel ih =>
      rw [addSubsections, addSubsections, Cursor.isFinished_eq_of_rest h]
      split
      · rfl
      rcases subsection_parallel.both subsection_parallel h with
        ⟨⟨id, inner⟩, ⟨_, inner'⟩, c', d', hc, hd, ⟨rfl, hinner⟩, hrest⟩ |
          ⟨_, _, c', d', hc, hd⟩
      · simp only [hc, hd]
        split
        · exact ih hrest
        rcases Reading.u32_parallel.both Reading.u32_parallel hinner with
          ⟨count, _, after, after', hcount, hcount', rfl, hafter⟩ |
            ⟨_, _, _, _, hcount, hcount'⟩
        · simp only [hcount, hcount', addEntries_eq_of_rest count hafter, ih hrest]
        · simp only [hcount, hcount']
      · simp only [hc, hd]

/-- The names that a section adds depend on its bytes alone. -/
theorem add_eq_of_rest (h : c.rest = d.rest) : add names c = add names d := by
  rw [add, add, Cursor.remaining_eq_of_rest h, addSubsections_eq_of_rest _ h]

end Names

/-! ### Sections -/

/-- Modules that are equal but for their names, which are equal as well if they are
kept. -/
inductive Module.Alike (keep : Prop) (m : Module) : Module → Prop
  | mk {names : Names} (hnames : keep → names = m.names) : Alike keep m { m with names }

namespace Module.Alike

variable {keep : Prop} {m m' : Module}

theorem refl (keep : Prop) (m : Module) : m.Alike keep m :=
  show m.Alike keep { m with names := m.names } from .mk fun _ => rfl

theorem symm (h : m.Alike keep m') : m'.Alike keep m := by
  cases h with
  | @mk names hnames =>
      exact show Alike keep { m with names } { m with names := m.names } from
        .mk fun hk => (hnames hk).symm

end Module.Alike

namespace Decoding

variable {evaluate : List UInt8 → Except Halt Value} {keep : Prop} {m m' : Module}

theorem forRange_parallel {α β : Type} {R : α → β → Prop} {read : Nat → α → Decoding α}
    {read' : Nat → β → Decoding β}
    (hstep : ∀ turn a b, R a b → Parallel R (read turn a) (read' turn b))
    (left turn : Nat) {a : α} {b : β} (h : R a b) :
    Parallel R (forRange read left turn a) (forRange read' left turn b) := by
  induction left generalizing turn a b with
  | zero => exact .pure h
  | succ left ih => exact (hstep turn a b h).bind fun _ _ hnext => ih (turn + 1) hnext

theorem entries_parallel {add : Nat → Module → Decoding Module}
    (hadd : ∀ turn m m', m.Alike keep m' →
      Parallel (Module.Alike keep) (add turn m) (add turn m'))
    (h : m.Alike keep m') : Parallel (Module.Alike keep) (entries add m)
    (entries add m') :=
  Reading.u32_parallel.lift.bind_eq fun count => forRange_parallel hadd count 0 h

/-- A section whose entries are read against the module and put into it, past its
names. -/
theorem list_parallel {α : Type} {read : Module → Reading α} (put : Module → α → Module)
    (hread : ∀ m names, Parallel Eq (read m) (read { m with names }))
    (hput : ∀ m names a, put { m with names } a = { put m a with names })
    (hnames : ∀ m a, (put m a).names = m.names) (h : m.Alike keep m') :
    Parallel (Module.Alike keep)
      (entries (fun _ m => liftM (read m) >>= fun a => pure (put m a)) m)
      (entries (fun _ m => liftM (read m) >>= fun a => pure (put m a)) m') := by
  refine entries_parallel (fun _ m m' h => ?_) h
  cases h with
  | @mk names hkeep =>
      refine (hread m names).lift.bind_eq fun a => .pure ?_
      rw [hput m names a]
      exact .mk fun hk => (hkeep hk).trans (hnames m a).symm

theorem fail_parallel {α β : Type} {R : α → β → Prop} {e : Error} {y : Decoding β} :
    Parallel R (fail e : Decoding α) y := by
  apply Parallel.of_fails
  rintro c a c' ⟨⟩

theorem halt_parallel {α β : Type} {R : α → β → Prop} {h : Halt} {y : Decoding β} :
    Parallel R (halt h : Decoding α) y := by
  apply Parallel.of_fails
  rintro c a c' ⟨⟩

theorem sameFunctions_names (m : Module) (names : Names) :
    m.SameFunctions { m with names } :=
  ⟨rfl, rfl, rfl⟩

theorem code_parallel (turn : Nat) (h : m.Alike keep m') :
    Parallel (Module.Alike keep) (code turn m) (code turn m') := by
  cases h with
  | @mk names hkeep =>
      refine Reading.u32_parallel.lift.bind_eq fun size => ?_
      refine (Reading.window_parallel size).lift.bind fun entry entry' hentry => ?_
      dsimp only
      split
      · exact halt_parallel
      split
      · exact halt_parallel
      · next typeIndex _ _ type _ =>
          have hcode := Reading.code_parallel (sameFunctions_names m names)
            (m.importedFunctions + turn) typeIndex type
          refine (hcode.lift.within hentry).bind fun _ _ hpair => .pure ?_
          rw [hpair.1]
          exact .mk hkeep

theorem codes_parallel (h : m.Alike keep m') :
    Parallel (Module.Alike keep) (codes m) (codes m') := by
  refine Reading.u32_parallel.lift.bind_eq fun count => ?_
  have hentries := forRange_parallel (fun turn _ _ => code_parallel turn) count 0 h
  cases h with
  | mk => exact .ite fail_parallel hentries

/-- An offset is evaluated from the bytes that hold it. -/
theorem activeOffset_parallel (h : m.SameFunctions m') (segment : Nat) :
    Parallel Eq (activeOffset evaluate m segment)
      (activeOffset evaluate m' segment) := by
  refine (Reading.body_parallel h _ _ (.value .i32)).lift.since
    fun _ _ _ _ _ _ _ hexpr => ?_
  rw [hexpr]
  split
  · exact .pure rfl
  · exact fail_parallel
  · exact fail_parallel
  · exact halt_parallel

theorem dataMode_parallel (h : m.SameFunctions m') (segment : Nat) :
    Parallel Eq (dataMode evaluate m segment) (dataMode evaluate m' segment) := by
  refine Reading.u32_parallel.lift.bind_eq fun flags => ?_
  rcases flags with _ | _ | _ | flags
  · exact (activeOffset_parallel h segment).bind_eq fun _ => .pure rfl
  · exact .pure rfl
  · exact Reading.u32_parallel.lift.bind_eq fun _ =>
      (activeOffset_parallel h segment).bind_eq fun _ => .pure rfl
  · exact fail_parallel

theorem segments_parallel (h : m.Alike keep m') :
    Parallel (Module.Alike keep) (segments evaluate m) (segments evaluate m') := by
  refine entries_parallel (fun turn m m' h => ?_) h
  cases h with
  | @mk names hkeep =>
      refine (dataMode_parallel (sameFunctions_names m names) turn).bind_eq fun mode =>
        ?_
      refine Reading.u32_parallel.lift.bind_eq fun length => ?_
      exact (Reading.bytes_parallel length).lift.bind_eq fun bytes => .pure (.mk hkeep)

theorem custom_parallel (h : m.Alike keep m') :
    Parallel (Module.Alike keep) (custom m) (custom m') := by
  refine Reading.name_parallel.lift.bind_eq fun name => .ite ?_ (.pure h)
  cases h with
  | @mk names hkeep =>
      refine Parallel.get.bind fun c d hrest => .pure ?_
      exact .mk fun hk => by rw [hkeep hk, Names.add_eq_of_rest hrest]

/-- Sections of modules that are alike leave modules that are alike. -/
theorem sectionReader_parallel {id : UInt8} {read : Module → Decoding Module}
    (hreader : sectionReader evaluate id = some read) (h : m.Alike keep m') :
    Parallel (Module.Alike keep) (read m) (read m') := by
  refine sectionReader_cases (P := fun _ read =>
    Parallel (Module.Alike keep) (read m) (read m')) ?types ?imports ?functions
      ?memories ?globals ?exports (codes_parallel h) (segments_parallel h)
    ?count ?tags hreader
  case types =>
    exact list_parallel (fun m type => { m with types := m.types.push type })
      (fun _ _ => Reading.funcType_parallel) (fun _ _ _ => rfl) (fun _ _ => rfl) h
  case imports =>
    exact list_parallel (fun m i => { m with imports := m.imports.push i })
      (fun m _ => Reading.importEntry_parallel m) (fun _ _ _ => rfl) (fun _ _ => rfl) h
  case functions =>
    exact list_parallel (fun m index => { m with functions := m.functions.push index })
      (fun m _ => Reading.typeIndex_parallel m) (fun _ _ _ => rfl) (fun _ _ => rfl) h
  case memories =>
    exact list_parallel (fun m limits => { m with memories := m.memories.push limits })
      (fun _ _ => Reading.memoryLimits_parallel) (fun _ _ _ => rfl) (fun _ _ => rfl) h
  case globals =>
    exact list_parallel (fun m g => { m with globals := m.globals.push g })
      (fun m names => Reading.global_parallel (sameFunctions_names m names))
      (fun _ _ _ => rfl) (fun _ _ => rfl) h
  case exports =>
    exact list_parallel (fun m e => { m with exports := m.exports.push e })
      (fun _ _ => Reading.exportEntry_parallel) (fun _ _ _ => rfl) (fun _ _ => rfl) h
  case tags =>
    exact list_parallel (fun m tag => { m with tags := m.tags.push tag })
      (fun m _ => Reading.tag_parallel m) (fun _ _ _ => rfl) (fun _ _ => rfl) h
  case count =>
    cases h with
    | mk hkeep => exact Reading.u32_parallel.lift.bind_eq fun count => .pure (.mk hkeep)

end Decoding

end WasmVm
