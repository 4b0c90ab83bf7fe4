/-
The number of locals.  Each run of locals that a function declares is checked against
the limit, together with the parameters and the runs before it.  So a function that
declares any keeps the limit.  One that declares none is not checked, and its
parameters may be too many.
-/
import WasmVm.Proofs.Decoding.Skipping

namespace WasmVm

open Leb128

/-! ### Functions that are accepted -/

/-- Locals are some parameters and runs that are declared behind them.  If there are
runs, then the locals keep the limit. -/
def DeclaredLocals (params : List ValType) (locals : Array ValType) : Prop :=
  ∃ groups, locals.toList = params ++ expandLocals groups ∧
    (groups ≠ [] → locals.size ≤ maxLocals)

/-- The locals of every function are those of some signature and those that it
declares. -/
def Module.LocalsDeclared (m : Module) : Prop :=
  ∀ code ∈ m.codes, ∃ type ∈ m.types,
    code.params = type.params.length ∧ DeclaredLocals type.params code.locals

theorem expandLocals_append (groups more : List (Nat × ValType)) :
    expandLocals (groups ++ more) = expandLocals groups ++ expandLocals more :=
  List.flatMap_append

namespace Reading

/-- A run is added to the locals only if they keep the limit with it. -/
theorem localGroup_declared {function : Nat} {params : List ValType}
    {locals : Array ValType} (h : DeclaredLocals params locals) :
    Yields (DeclaredLocals params) (localGroup function locals) := by
  obtain ⟨groups, hlocals, -⟩ := h
  refine .bind_any fun count => .bind_any fun t => ?_
  split
  · rintro c a c' ⟨⟩
  · next hsize =>
      refine .pure ⟨groups ++ [(count, t)], ?_, fun _ => ?_⟩
      · rw [Array.toList_append, hlocals, expandLocals_append, List.append_assoc,
          Array.toList_replicate]
        simp [expandLocals]
      · rw [Array.size_append, Array.size_replicate]
        exact Nat.not_lt.mp hsize

theorem code_declared (m : Module) (function typeIndex : Nat) (type : FuncType) :
    Yields (fun code => code.params = type.params.length ∧
      DeclaredLocals type.params code.locals) (code m function typeIndex type) := by
  have hparams : DeclaredLocals type.params type.params.toArray :=
    ⟨[], by simp [expandLocals], fun hne => absurd rfl hne⟩
  refine .bind_any fun groups => ?_
  refine (forRange_yields (fun _ _ => localGroup_declared) groups 0 hparams).bind
    fun locals h => ?_
  refine .bind_any fun body => .bind_any fun after => ?_
  split
  · exact .pure ⟨rfl, h⟩
  · rintro c a c' ⟨⟩

end Reading

namespace Module

/-- Later signatures do not change that. -/
theorem LocalsDeclared.grows {id : UInt8} {m m' : Module} (hm : m.LocalsDeclared)
    (h : m.Grows id m') (hcodes : m'.codes = m.codes) : m'.LocalsDeclared := by
  intro code hcode
  rw [hcodes] at hcode
  obtain ⟨type, htype, hdeclared⟩ := hm code hcode
  obtain ⟨types, htypes⟩ := h.types
  rw [htypes]
  exact ⟨type, Array.mem_append_left _ htype, hdeclared⟩

end Module

namespace Decoding

theorem code_localsDeclared (turn : Nat) {m : Module} (hm : m.LocalsDeclared) :
    Yields Module.LocalsDeclared (code turn m) := by
  refine .bind_any fun size => .bind_any fun entry => ?_
  split
  · rintro c m' c' ⟨⟩
  · next typeIndex hfunction =>
      split
      · rintro c m' c' ⟨⟩
      · next type htype =>
          have hcode :=
            Reading.code_declared m (m.importedFunctions + turn) typeIndex type
          refine (yields_within (yields_lift hcode)).bind fun r hr =>
            .pure fun code hmem => ?_
          rcases Array.mem_push.mp hmem with hmem | rfl
          · exact hm code hmem
          · exact ⟨type, Array.mem_of_getElem? htype, hr⟩

theorem codes_localsDeclared {m : Module} (hm : m.LocalsDeclared) :
    Yields Module.LocalsDeclared (codes m) := by
  refine .bind_any fun count => ?_
  split
  · rintro c m' c' ⟨⟩
  · exact forRange_yields (P := fun _ => Module.LocalsDeclared)
      (fun turn _ => code_localsDeclared turn) count 0 hm

theorem Contributes.localsDeclared {evaluate : List UInt8 → Except Halt Value}
    {id : UInt8}
    {m m' : Module} (h : Contributes evaluate id m m') (hm : m.LocalsDeclared) :
    m'.LocalsDeclared := by
  by_cases hcodes : id = 10
  · subst hcodes
    cases h with
    | known hreader hread =>
        cases hreader
        exact codes_localsDeclared hm _ _ _ hread
    | skipped hreader => cases hreader
  · exact hm.grows h.grows (h.grows.codes hcodes)

end Decoding

theorem Module.localsDeclared_of_decode {fuel : Nat} {bytes : Array UInt8} {m : Module}
    (h : Module.decode fuel bytes = .ok m) : m.LocalsDeclared :=
  (Module.decodeWith_induction (I := fun _ m => m.LocalsDeclared) h
    (by simp [LocalsDeclared])
    fun hm hcontributes => hcontributes.localsDeclared hm).1

/-! ### Refusals -/

/-- An input that begins with these bytes is refused, for this reason. -/
def Refuses {ε α : Type} (x : EStateM ε Cursor α) (e : ε) (bytes : List UInt8) : Prop :=
  ∀ c, bytes <+: c.rest → ∃ c', x c = .error e c'

section

variable {ε α β : Type} {x : EStateM ε Cursor α}
  {f : α → EStateM ε Cursor β} {e : ε} {a : α}
  {front back bytes : List UInt8}

/-- What follows a refusal does not matter. -/
theorem Refuses.bind (h : Refuses x e bytes) : Refuses (x >>= f) e bytes := by
  intro c hahead
  obtain ⟨c', hc'⟩ := h c hahead
  exact ⟨c', EStateM.bind_of_error hc'⟩

theorem Refuses.append (h : Refuses x e front) (back : List UInt8) :
    Refuses x e (front ++ back) :=
  fun c hahead => h c ((List.prefix_append front back).trans hahead)

theorem Refuses.lift {r : Reading α} {e : Error} (h : Refuses r e bytes) :
    Refuses (liftM r : Decoding α) (.error e) bytes := by
  intro c hahead
  obtain ⟨c', hc'⟩ := h c hahead
  refine ⟨c', ?_⟩
  change Decoding.ofReading r c = _
  rw [Decoding.ofReading, hc']

theorem Accepts.bind_refuses (hx : Accepts x a front) (hf : Refuses (f a) e back) :
    Refuses (x >>= f) e (front ++ back) := by
  intro c hahead
  obtain ⟨hfront, hback⟩ := Cursor.prefix_rest_append.mp hahead
  obtain ⟨c', hc'⟩ := hf _ hback
  exact ⟨c', (EStateM.bind_of_ok (hx c hfront)).trans hc'⟩

end

namespace Decoding

variable {α β : Type} {h : Halt}

/-- A refusal inside a window of its own. -/
theorem window_bind_refuses {f : Cursor → Decoding β} {contents : List UInt8}
    (hf : ∀ inner : Cursor, inner.rest = contents → ∀ c, ∃ c',
      f inner c = .error h c') :
    Refuses (liftM (Reading.window contents.length) >>= f) h contents := by
  intro c hahead
  rw [EStateM.bind_of_ok (lift_of_ok (window_of_ahead hahead))]
  exact hf ⟨contents.toArray, 0, c.offset⟩ rfl _

theorem within_bind_of_error {read : Decoding α} {f : α × Cursor → Decoding β}
    {inner after : Cursor} (hread : read inner = .error h after) (c : Cursor) :
    (within inner read >>= f) c = .error h c := by
  have hwithin : within inner read c = .error h c := by rw [within, hread]
  exact EStateM.bind_of_error hwithin

/-- A section is refused if its contents are, wherever they lie. -/
theorem oneSection_refuses {evaluate : List UInt8 → Except Halt Value}
    {m : Module} {id : UInt8} {read : Module → Decoding Module}
    {contents front : List UInt8} (hreader : sectionReader evaluate id = some read)
    (hsection : SectionEncodes id (· = contents) front)
    (hread : ∀ inner : Cursor, inner.rest = contents →
      ∃ after, read m inner = .error h after) :
    Refuses (oneSection evaluate m) h front := by
  obtain ⟨size, _, rfl, hsize, rfl⟩ := hsection
  rw [oneSection_eq]
  have hid : Accepts (liftM Reading.byte : Decoding UInt8) id [id] :=
    (Reading.byte_reads.accepts rfl).lift
  refine hid.bind_refuses ((Reading.u32_accepts hsize).lift.bind_refuses
    fun c hahead => ?_)
  refine window_bind_refuses (fun inner hinner c => ⟨c, ?_⟩) c hahead
  obtain ⟨after, hafter⟩ := hread inner hinner
  unfold sectionContents
  rw [hreader]
  exact within_bind_of_error hafter c

/-- Behind sections that can be used, a refusal is that of the whole. -/
theorem sections_of_refused {evaluate : List UInt8 → Except Halt Value} {m m' : Module}
    {before front back : List UInt8} (hbefore : SectionsTurn evaluate before m m')
    (hfront : Refuses (oneSection evaluate m') h front) (hne : front ≠ []) {c : Cursor}
    (hrest : c.rest = before ++ (front ++ back)) :
    ∃ after, sections evaluate c.remaining m c = .error h after := by
  induction hbefore generalizing c with
  | nil =>
      obtain ⟨after, hafter⟩ := hfront c (hrest ▸ List.prefix_append front back)
      have hmore : ¬ c.isFinished = true := by
        rw [Cursor.isFinished_iff, hrest]
        simp [hne]
      refine ⟨after, ?_⟩
      rw [sections_eq_of_le (Nat.le_refl _) (Nat.le_succ _),
        sections_succ, if_neg hmore, EStateM.bind_of_error hafter]
  | @cons id contents first others m mid r hsection hturn _ ih =>
      rw [List.append_assoc] at hrest
      have hahead : first <+: c.rest := hrest ▸ List.prefix_append first _
      rw [sections_of_ok (oneSection_eq_ok_iff.mpr ⟨_, _, _, hsection,
        hturn, hahead, rfl⟩)]
      refine ih hfront ?_
      rw [Cursor.rest_advance, hrest, List.drop_left]

/-- Some turns, then the others. -/
theorem forRange_add (read : Nat → α → Decoding α) (first left turn : Nat) (a : α) :
    forRange read (first + left) turn a =
      forRange read first turn a >>= forRange read left (turn + first) := by
  induction first generalizing turn a with
  | zero => rw [Nat.zero_add, forRange, pure_bind, Nat.add_zero]
  | succ first ih =>
      rw [Nat.succ_add, forRange, forRange, bind_assoc]
      refine congrArg _ (funext fun next => ?_)
      rw [ih, Nat.add_right_comm, Nat.add_assoc]

end Decoding

/-! ### Functions that are refused -/

/-- A code entry of a function with so many parameters that declares too many locals:
it begins with runs of more locals than the limit, together with the parameters. -/
def DeclaresTooMany (params : Nat) (entry : List UInt8) : Prop :=
  ∃ left groups count declarations rest, entry = count ++ (declarations ++ rest) ∧
    U32 left count ∧ Each LocalsEncode groups declarations ∧ groups.length ≤ left ∧
    groups ≠ [] ∧ maxLocals < params + (expandLocals groups).length

namespace Reading

theorem localGroup_refuses {function : Nat} {group : Nat × ValType}
    {locals : Array ValType} {bytes : List UInt8} (h : LocalsEncode group bytes)
    (hsize : maxLocals < locals.size + group.1) :
    Refuses (localGroup function locals) (.format (.tooManyLocals function maxLocals))
      bytes := by
  obtain ⟨front, rfl, hcount⟩ := h
  have htype : Accepts valType group.2 [group.2.toByte] := valType_reads.accepts rfl
  rw [← List.append_nil [group.2.toByte]]
  refine (u32_accepts hcount).bind_refuses (htype.bind_refuses fun c _ => ?_)
  rw [if_pos hsize]
  exact ⟨c, rfl⟩

/-- Runs are refused at the first one that exceeds the limit. -/
theorem localGroups_refuse {function : Nat} {groups : List (Nat × ValType)}
    {bytes : List UInt8}
    (h : Each LocalsEncode groups bytes) {locals : Array ValType}
    {left : Nat} (turn : Nat) (hleft : groups.length ≤ left) (hne : groups ≠ [])
    (hsize : maxLocals < locals.size + (expandLocals groups).length) :
    Refuses (forRange (fun _ => localGroup function) left turn locals)
      (.format (.tooManyLocals function maxLocals)) bytes := by
  induction h generalizing locals left turn with
  | nil => exact absurd rfl hne
  | @cons group groups front back hfront _ ih =>
      obtain ⟨left, rfl⟩ :=
        Nat.exists_eq_add_of_le' (Nat.le_trans (Nat.le_add_left 1 _) hleft)
      rw [expandLocals_cons, List.length_append, List.length_replicate] at hsize
      by_cases hfirst : maxLocals < locals.size + group.1
      · exact (localGroup_refuses hfront hfirst).bind.append back
      · have hmore : groups ≠ [] := by
          rintro rfl
          exact hfirst hsize
        refine (localGroup_accepts hfront (Nat.not_lt.mp hfirst)).bind_refuses ?_
        refine ih (turn + 1) (Nat.le_of_succ_le_succ hleft) hmore ?_
        rwa [Array.size_append, Array.size_replicate, Nat.add_assoc]

theorem code_refuses (m : Module) (function typeIndex : Nat) {type : FuncType}
    {entry : List UInt8} (h : DeclaresTooMany type.params.length entry) :
    Refuses (code m function typeIndex type)
      (.format (.tooManyLocals function maxLocals))
      entry := by
  obtain ⟨left, groups, count, declarations, rest, rfl, hcount, heach, hleft,
    hne, hsize⟩ := h
  have hgroups :
      Refuses (forRange (fun _ => localGroup function) left 0 type.params.toArray)
        (.format (.tooManyLocals function maxLocals)) declarations :=
    localGroups_refuse heach 0 hleft hne hsize
  exact (u32_accepts hcount).bind_refuses (hgroups.bind.append rest)

end Reading

/-- The contents of a code section lead to the entry of the function number `turn`: as
many entries as there are functions are promised, and those in front make `m'` of the
module. -/
inductive LeadsTo (turn : Nat) (m m' : Module) (entry : List UInt8) : List UInt8 → Prop
  | mk {count entries size others window after} (hcount : U32 m.functions.size count)
      (hturn : turn < m.functions.size) (hwindow : window.rest = entries)
      (hread : Decoding.forRange Decoding.code turn 0 m window = .ok m' after)
      (hafter : after.rest = size ++ (entry ++ others))
      (hsize : U32 entry.length size) :
      LeadsTo turn m m' entry (count ++ entries)

/-- Sections lead to the code entry of a function with some signature, behind sections
and entries that can all be used. -/
inductive ReachesCode (evaluate : List UInt8 → Except Halt Value) (function : Nat)
    (type : FuncType) (entry : List UInt8) : List UInt8 → Prop
  | mk {before front contents m m' turn typeIndex}
      (hbefore : SectionsTurn evaluate before {} m)
      (hsection : SectionEncodes 10 (· = contents) front)
      (hentry : LeadsTo turn m m' entry contents)
      (hindex : m'.functions[turn]? = some typeIndex)
      (htype : m'.types[typeIndex]? = some type)
      (hnumber : function = m'.importedFunctions + turn) (behind : List UInt8) :
      ReachesCode evaluate function type entry (before ++ (front ++ behind))

namespace Decoding

theorem code_refuses {m : Module} {turn typeIndex : Nat} {type : FuncType}
    {size entry : List UInt8} (hindex : m.functions[turn]? = some typeIndex)
    (htype : m.types[typeIndex]? = some type) (hsize : U32 entry.length size)
    (h : DeclaresTooMany type.params.length entry) :
    Refuses (code turn m)
      (.error (.format (.tooManyLocals (m.importedFunctions + turn) maxLocals)))
      (size ++ entry) := by
  rw [code_eq hindex htype]
  refine (Reading.u32_accepts hsize).lift.bind_refuses ?_
  refine window_bind_refuses fun inner hinner c => ⟨c, ?_⟩
  obtain ⟨after, hafter⟩ := (Reading.code_refuses m _ typeIndex h).lift inner
    (hinner ▸ List.prefix_refl entry)
  exact within_bind_of_error hafter c

/-- The entry is refused when its turn comes, wherever the section lies. -/
theorem codes_of_leadsTo {m m' : Module} {turn : Nat}
    {entry contents : List UInt8} {h : Halt} (hleads : LeadsTo turn m m' entry contents)
    (hentry : ∀ size, U32 entry.length size → Refuses (code turn m') h (size ++ entry))
    {c : Cursor} (hrest : c.rest = contents) : ∃ after, codes m c = .error h after := by
  obtain ⟨hcount, hturn, hwindow, hread, hafter, hsize⟩ := hleads
  next count entries size others window after =>
  obtain ⟨c₁, hc₁, hrest₁⟩ := (Reading.u32_accepts hcount).lift.ok_of_rest hrest
  have hparallel : Parallel (Module.Alike True) (forRange code turn 0 m)
      (forRange code turn 0 m) :=
    forRange_parallel (fun turn _ _ => code_parallel turn) turn 0 (.refl True m)
  obtain ⟨next, taken, hnext, ⟨hnames⟩, -, rfl⟩ := hparallel window c₁ m' after
    (hwindow.trans hrest₁.symm) hread
  obtain rfl := hnames trivial
  rw [Cursor.rest_advance_eq (hwindow.trans hrest₁.symm), ← List.append_assoc] at hafter
  obtain ⟨c₂, hc₂⟩ := hentry size hsize _ (hafter ▸ List.prefix_append _ others)
  obtain ⟨left, hleft⟩ := Nat.exists_eq_add_of_lt hturn
  refine ⟨c₂, ?_⟩
  unfold codes
  rw [EStateM.bind_of_ok hc₁, if_neg (not_not_intro rfl), hleft,
    Nat.add_assoc, forRange_add, EStateM.bind_of_ok hnext, Nat.zero_add, forRange]
  exact EStateM.bind_of_error hc₂

end Decoding

/-- Behind sections that can be used, a section that is refused makes the binary be
refused. -/
theorem Module.decodeWith_of_refused {evaluate : List UInt8 → Except Halt Value}
    {m : Module} {before front : List UInt8} {h : Halt}
    (hbefore : SectionsTurn evaluate before {} m)
    (hfront : Refuses (Decoding.oneSection evaluate m) h front) (hne : front ≠ [])
    (behind : List UInt8) :
    Module.decodeWith evaluate (binary (before ++ (front ++ behind))) = .error h := by
  obtain ⟨c, hrest, hwhole⟩ := wholeModule_binary evaluate (before ++ (front ++ behind))
  obtain ⟨after, hafter⟩ := Decoding.sections_of_refused hbefore hfront hne hrest
  unfold Module.decodeWith
  rw [hwhole, EStateM.bind_of_error hafter]

/-- A function that declares locals keeps the limit.  In a module that has been
decoded, the locals of each function are the parameters of a signature and the runs
that it declares: at most `maxLocals`, unless there are no runs.  If decoding comes to
a function whose runs, or the first of them, are too many together with its parameters,
it fails with a format error, however the number is split. -/
theorem locals_limited (fuel : Nat) :
    (∀ bytes m, Module.decode fuel bytes = .ok m → m.LocalsDeclared) ∧
    ∀ function type entry sections,
      ReachesCode (ConstExpr.evaluate fuel) function type entry sections →
      DeclaresTooMany type.params.length entry →
      Module.decode fuel (binary sections) =
        .error (.error (.format (.tooManyLocals function maxLocals))) := by
  refine ⟨fun _ _ => Module.localsDeclared_of_decode, ?_⟩
  rintro function type entry _ ⟨hbefore, hsection, hentry, hindex, htype,
    rfl, behind⟩ hmany
  refine Module.decodeWith_of_refused hbefore ?_ ?_ behind
  · refine Decoding.oneSection_refuses rfl hsection fun inner hinner => ?_
    exact Decoding.codes_of_leadsTo hentry
      (fun _ hsize => Decoding.code_refuses hindex htype hsize hmany) hinner
  · obtain ⟨size, _, rfl, -⟩ := hsection
    exact List.cons_ne_nil _ _

namespace LocalsWitness

/-- A signature with one parameter, and a function of it. -/
def declarations : List UInt8 :=
  [0x01, 0x05, 0x01, 0x60, 0x01, 0x7f, 0x00] ++ ([0x03, 0x02, 0x01, 0x00] ++ [])

def declared : Module where
  types := #[⟨[.i32], []⟩]
  functions := #[0]

/-- A run of 49999 locals, and one of two: one too many with a parameter. -/
def runs : List UInt8 :=
  [0xcf, 0x86, 0x03, 0x7f] ++ ([0x02, 0x7e] ++ [])

def codeSection : List UInt8 :=
  0x0a :: ([0x0a] ++ ([0x01] ++ ([0x08] ++ ([0x02] ++ (runs ++ [0x0b])))))

theorem sectionsTurn_declarations (fuel : Nat) :
    SectionsTurn (ConstExpr.evaluate fuel) declarations {} declared := by
  have htypes : SectionTurns (ConstExpr.evaluate fuel) 1
      [0x01, 0x60, 0x01, 0x7f, 0x00] {} { declared with functions := #[] } :=
    .known rfl (show (Cursor.ofBytes #[0x01, 0x60, 0x01, 0x7f, 0x00]).rest = _ from rfl)
      (by with_unfolding_all rfl) (by with_unfolding_all rfl)
  have hfunctions : SectionTurns (ConstExpr.evaluate fuel) 3 [0x01, 0x00]
      { declared with functions := #[] } declared :=
    .known rfl (show (Cursor.ofBytes #[0x01, 0x00]).rest = _ from rfl)
      (by with_unfolding_all rfl) (by with_unfolding_all rfl)
  exact .cons ⟨[0x05], _, rfl, u32_singleton (by decide), rfl⟩ htypes
    (.cons ⟨[0x02], _, rfl, u32_singleton (by decide), rfl⟩ hfunctions .nil)

theorem reachesCode : ReachesCode (ConstExpr.evaluate 0) 0 ⟨[.i32], []⟩
    ([0x02] ++ (runs ++ [0x0b])) (declarations ++ (codeSection ++ [])) := by
  have hsection : SectionEncodes 10
      (· = [0x01] ++ ([0x08] ++ ([0x02] ++ (runs ++ [0x0b])))) codeSection :=
    ⟨[0x0a], _, rfl, u32_singleton (by decide), rfl⟩
  have hentry : LeadsTo 0 declared declared ([0x02] ++ (runs ++ [0x0b]))
      ([0x01] ++ ([0x08] ++ ([0x02] ++ (runs ++ [0x0b])))) := by
    have hsize : U32 ([0x02] ++ (runs ++ [0x0b])).length [0x08] :=
      u32_singleton (by decide)
    let window : Cursor := .ofBytes ([0x08] ++ ([0x02] ++ (runs ++ [0x0b]))).toArray
    have hahead : window.rest = [0x08] ++ (([0x02] ++ (runs ++ [0x0b])) ++ []) := rfl
    exact .mk (u32_singleton (by decide)) (by decide) rfl rfl hahead hsize
  exact .mk (sectionsTurn_declarations 0) hsection hentry rfl rfl rfl []

theorem runs_declareTooMany : DeclaresTooMany 1 ([0x02] ++ (runs ++ [0x0b])) := by
  have hfirst : LocalsEncode (49999, .i32) [0xcf, 0x86, 0x03, 0x7f] :=
    ⟨[0xcf, 0x86, 0x03], rfl, .more (by decide) (.more (by decide) (.last (by decide))),
      by decide, by decide, by decide⟩
  have hsecond : LocalsEncode (2, .i64) [0x02, 0x7e] :=
    ⟨[0x02], rfl, u32_singleton (by decide)⟩
  refine ⟨2, _, [0x02], runs, [0x0b], rfl, u32_singleton (by decide),
    .cons hfirst (.cons hsecond .nil), Nat.le_refl _, List.cons_ne_nil _ _, ?_⟩
  simp only [expandLocals_cons, List.length_append, List.length_replicate]
  decide

/-- A parameter and two runs are refused. -/
theorem runs_refused : Module.decode 0 (binary (declarations ++ (codeSection ++ []))) =
    .error (.error (.format (.tooManyLocals 0 maxLocals))) :=
  (locals_limited 0).2 0 ⟨[.i32], []⟩ _ _ reachesCode runs_declareTooMany

/-- A function with so many parameters that declares no locals. -/
def crowd (n : Nat) : Module where
  types := #[⟨List.replicate n .i32, []⟩]
  functions := #[0]
  codes := #[⟨(List.replicate n .i32).toArray, n, .scope 0 .block (.func 0) [] none⟩]

/-- The contents of the section of its signature. -/
def crowdedTypes (n : Nat) : List UInt8 :=
  [0x01] ++ ((0x60 :: ((encode n ++ List.replicate n 0x7f) ++ [0x00])) ++ [])

def crowded (n : Nat) : List UInt8 :=
  (0x01 :: (encode (crowdedTypes n).length ++ crowdedTypes n)) ++
    ([0x03, 0x02, 0x01, 0x00] ++
      (0x0a :: ([0x04] ++ ([0x01] ++ ([0x02] ++ [0x00, 0x0b]))) ++ []))

theorem each_replicate (n : Nat) :
    Each ValType.Encodes (List.replicate n .i32) (List.replicate n 0x7f) := by
  induction n with
  | zero => exact .nil
  | succ n ih => exact .cons (show ValType.Encodes .i32 [0x7f] from rfl) ih

theorem length_crowdedTypes {n : Nat} (hn : n < 2 ^ 31) :
    (crowdedTypes n).length < 2 ^ 32 := by
  obtain ⟨-, hlength, -⟩ := encode_u32 (show n < 2 ^ 32 by omega)
  simp only [crowdedTypes, List.length_append, List.length_cons, List.length_nil,
    List.length_replicate]
  omega

theorem crowd_types {n : Nat} (hn : n < 2 ^ 31) :
    ListEncodes 1 FuncType.Encodes (crowd n).types.toList
      (0x01 :: (encode (crowdedTypes n).length ++ crowdedTypes n)) := by
  have hcount : U32 (List.replicate n ValType.i32).length (encode n) := by
    rw [List.length_replicate]
    exact encode_u32 (by omega)
  have htype : FuncType.Encodes ⟨List.replicate n .i32, []⟩
      (0x60 :: ((encode n ++ List.replicate n 0x7f) ++ [0x00])) :=
    ⟨_, _, rfl, ⟨_, _, rfl, hcount, each_replicate n⟩,
      [0x00], [], rfl, u32_singleton (by decide), .nil⟩
  exact .inr ⟨_, _, rfl, encode_u32 (length_crowdedTypes hn),
    [0x01], _, rfl, u32_singleton (by decide), .cons htype .nil⟩

theorem crowd_functions (n : Nat) :
    ListEncodes 3 (TypeIndexEncodes (crowd n)) (crowd n).functions.toList
      [0x03, 0x02, 0x01, 0x00] := by
  have hindex : TypeIndexEncodes (crowd n) 0 [0x00] :=
    ⟨u32_singleton (by decide), Nat.zero_lt_one⟩
  exact .inr ⟨[0x02], _, rfl, u32_singleton (by decide),
    [0x01], [0x00], rfl, u32_singleton (by decide), .cons hindex .nil⟩

/-- Without a run the limit is not looked at. -/
theorem crowd_codes (evaluate : List UInt8 → Except Halt Value) (n : Nat) :
    Decoding.Extends evaluate { crowd n with codes := #[] } (crowd n)
      (0x0a :: ([0x04] ++ ([0x01] ++ ([0x02] ++ [0x00, 0x0b])))) := by
  have hgroups : Counted LocalsEncode [] [0x00] :=
    ⟨[0x00], [], rfl, u32_singleton (by decide), .nil⟩
  have hclose : Item.Encodes { crowd n with codes := #[] } .close ([0x0b] ++ []) := by
    have hop : Opcode.endScope.Encodes [0x0b] := .single rfl
    exact .mk hop .bare
  have hbody : BodyEncodes { crowd n with codes := #[] } (.func 0)
      (.scope 0 .block (.func 0) [] none) [0x0b] :=
    ⟨[], [], .nil, .cons hclose .nil, rfl⟩
  have hcode : Accepts (Decoding.code 0 { crowd n with codes := #[] }) (crowd n)
      ([0x02] ++ [0x00, 0x0b]) := by
    refine Decoding.code_accepts_of_rest rfl rfl (u32_singleton (by decide))
      fun c hrest => ?_
    refine Reading.code_of_rest _ ?_ ?_ (fun hne => absurd rfl hne) hgroups hbody hrest
    · exact List.length_replicate.symm
    · exact (List.append_nil _).symm
  refine .inr (Decoding.oneSection_accepts rfl (u32_singleton (by decide)) ?_)
  refine (Reading.u32_accepts
    (u32_singleton (by decide : (0x01 : UInt8) < 0x80))).lift.bind ?_
  exact hcode.bind_empty (.pure _)

theorem decode_crowded {n : Nat} (hn : n < 2 ^ 31) (fuel : Nat) :
    Module.decode fuel (binary (crowded n)) = .ok (crowd n) := by
  refine decodeWith_of_completes ?_ rfl
  let m₂ : Module := { crowd n with codes := #[] }
  let m₁ : Module := { m₂ with functions := #[] }
  exact (Decoding.types_extends (m := m₁) (crowd_types hn)).completes <|
    (Decoding.functions_extends (m := m₂) (crowd_functions n)).completes <|
    (crowd_codes _ n).completes Decoding.completes_nil

/-- One parameter more than the limit is accepted. -/
theorem crowded_function_decodes :
    Module.decode 0 (binary (crowded 50001)) = .ok (crowd 50001) ∧
      ∃ code ∈ (crowd 50001).codes, maxLocals < code.locals.size := by
  refine ⟨decode_crowded (by decide) 0, _, Array.mem_singleton.mpr rfl, ?_⟩
  rw [List.size_toArray, List.length_replicate]
  decide

end LocalsWitness

end WasmVm
