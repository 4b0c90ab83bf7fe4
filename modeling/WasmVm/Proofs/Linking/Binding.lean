/-
What the imports of an instance are bound to.  Linking takes each offer out of the
collection when an import asks for it, so that an offer goes to the first import of its
name, at the index the import has among those of its kind, and a later import of the
same name gets none.
-/
import WasmVm.Proofs.Globals.Lifecycle
import WasmVm.Proofs.Machine.HostCalls
import WasmVm.Proofs.Machine.Traps

namespace WasmVm

variable {ω σ : Type}

/-- The name that an import asks for. -/
def Import.key (i : Import) : ImportName :=
  ⟨i.module, i.name⟩

/-- The imports of globals, which come first among all globals. -/
def Module.importsOfGlobals (m : Module) : List Import :=
  m.imports.toList.filter fun i => i.kind.globalType?.isSome

/-! ### Offers -/

namespace Offers

variable {α : Type}

/-- What is offered under a name. -/
def get? (offers : Offers α) (name : ImportName) : Option α :=
  (offers.find? fun entry => entry.1 = name).map (·.2)

/-- What an import gets after others that have asked: what is offered under its name,
unless one of them has taken it. -/
def grant (offers : Offers α) (earlier : List Import) (i : Import) : Option α :=
  if i.key ∈ earlier.map Import.key then none else offers.get? i.key

/-- What names that ask one after the other get, each using an offer up. -/
def share (offers : Offers α) : List ImportName → List (Option α)
  | [] => []
  | name :: rest => (offers.take name).1 :: share (offers.take name).2 rest

theorem get?_filter_ne (offers : Offers α) (name other : ImportName) :
    get? (offers.filter fun entry => entry.1 ≠ name) other =
      if other = name then none else offers.get? other := by
  by_cases hname : other = name
  · simp [get?, hname]
  · rw [if_neg hname, get?, List.find?_filter, get?]
    congr 2
    funext entry
    by_cases hentry : entry.1 = other <;> simp [hentry, hname]

/-- After an offer is taken the others are still there. -/
theorem get?_take (offers : Offers α) (name other : ImportName) :
    (offers.take name).2.get? other = if other = name then none
      else offers.get? other :=
  get?_filter_ne offers name other

@[simp] theorem get?_define (offers : Offers α) (name other : ImportName) (a : α) :
    (offers.define name a).get? other = if other = name then some a
      else offers.get? other := by
  have hkept := get?_filter_ne offers name other
  by_cases hname : other = name
  · simp [get?, define, hname]
  · have hfirst : ¬ name = other := Ne.symm hname
    rw [if_neg hname] at hkept ⊢
    rw [get?, define, List.find?_cons_of_neg (by simpa using hfirst)]
    exact hkept

theorem length_share (offers : Offers α) (names : List ImportName) :
    (offers.share names).length = names.length := by
  induction names generalizing offers with
  | nil => rfl
  | cons name rest ih => rw [share, List.length_cons, List.length_cons, ih]

/-- An offer goes to the first that asks for it. -/
theorem getElem?_share (offers : Offers α) (names : List ImportName) (n : Nat) :
    (offers.share names)[n]? =
      names[n]?.map fun name => if name ∈ names.take n then none
        else offers.get? name := by
  induction names generalizing offers n with
  | nil => rfl
  | cons first rest ih =>
      cases n with
      | zero => simp [share, take, get?]
      | succ n =>
          rw [share, List.getElem?_cons_succ, List.getElem?_cons_succ, ih,
            List.take_succ_cons]
          congr 1
          funext name
          rw [get?_take]
          by_cases hfirst : name = first <;> simp [hfirst]

end Offers

/-- How an imported global starts. -/
def GlobalState.ofOffer : Option Value → GlobalState
  | none => .unbound
  | some v => .ready v

/-! ### Linking -/

namespace Linking

variable {l l' : Linking ω} {i : Import}

/-- Binding an import that is a function, one that is a global, and any other. -/
theorem bind_cases (h : l.bind i = .ok l') :
    (i.kind.functionType?.isSome ∧ i.kind.globalType? = none ∧
      l' = { l with
        hosts := l.hosts.push (l.offered.functions.take i.key).1
        offered :=
          { l.offered with functions := (l.offered.functions.take i.key).2 } }) ∨
    (i.kind.functionType? = none ∧ i.kind.globalType?.isSome ∧
      l' = { l with
        globals := l.globals.push (.ofOffer (l.offered.globals.take i.key).1)
        offered := { l.offered with globals := (l.offered.globals.take i.key).2 } }) ∨
    (i.kind.functionType? = none ∧ i.kind.globalType? = none ∧ l' = l) := by
  unfold bind at h
  split at h
  · next typeIndex hkind =>
    cases h
    exact .inl ⟨by simp [hkind, ImportKind.functionType?],
      by simp [hkind, ImportKind.globalType?], rfl⟩
  · next type isMutable hkind =>
    refine .inr (.inl ⟨by simp [hkind, ImportKind.functionType?],
      by simp [hkind, ImportKind.globalType?], ?_⟩)
    change (match (l.offered.globals.take i.key).1 with
      | none => _
      | some v => _) = _ at h
    cases hvalue : (l.offered.globals.take i.key).1 with
    | none =>
        rw [hvalue] at h
        cases h
        rfl
    | some v =>
        rw [hvalue] at h
        dsimp only at h
        split at h
        · cases h
          rfl
        · cases h
  · next hfunction hglobal =>
    cases h
    refine .inr (.inr ?_)
    cases hkind : i.kind with
    | function typeIndex => exact absurd hkind (hfunction typeIndex)
    | global type isMutable => exact absurd hkind (hglobal type isMutable)
    | _ => exact ⟨rfl, rfl, rfl⟩

/-- The names of the imports that are functions. -/
def functionKeys (imports : List Import) : List ImportName :=
  (imports.filter fun i => i.kind.functionType?.isSome).map Import.key

/-- The names of the imports that are globals. -/
def globalKeys (imports : List Import) : List ImportName :=
  (imports.filter fun i => i.kind.globalType?.isSome).map Import.key

/-- Linking shares the offers out, functions and globals each in their own order. -/
theorem foldlM_shares {imports : List Import}
    (h : imports.foldlM Linking.bind l = .ok l') :
    l'.hosts.toList = l.hosts.toList ++ l.offered.functions.share
      (functionKeys imports) ∧ l'.globals.toList = l.globals.toList ++
        (l.offered.globals.share (globalKeys imports)).map GlobalState.ofOffer := by
  induction imports generalizing l with
  | nil =>
      cases h
      simp [functionKeys, globalKeys, Offers.share]
  | cons i rest ih =>
      rw [List.foldlM_cons] at h
      cases hbind : l.bind i with
      | error t =>
          rw [hbind] at h
          cases h
      | ok next =>
          rw [hbind] at h
          obtain ⟨hhosts, hglobals⟩ := ih h
          rw [hhosts, hglobals]
          rcases bind_cases hbind with ⟨hfunction, hglobal, rfl⟩ |
            ⟨hfunction, hglobal, rfl⟩ | ⟨hfunction, hglobal, rfl⟩ <;>
            simp [functionKeys, globalKeys, Offers.share, hfunction, hglobal]

end Linking

/-! ### Instances -/

namespace Instance

variable {m : Module} {offered : Imports ω} {maxDepth : Nat}
  {observer : Observer σ} {host : ω} {watch : σ} {inst : Instance ω σ}

theorem create_hosts
    (h : Instance.create m offered maxDepth observer host watch = .ok inst) :
    inst.env.hosts.toList = offered.functions.share
      (m.functionImports.map Import.key) := by
  obtain ⟨linking, memory, hfold, -, rfl⟩ := create_eq h
  rw [(Linking.foldlM_shares hfold).1]
  rfl

theorem create_importedGlobals
    (h : Instance.create m offered maxDepth observer host watch = .ok inst) :
    inst.world.store.globals.toList =
      (offered.globals.share (m.importsOfGlobals.map Import.key)).map
        GlobalState.ofOffer ++ m.globals.toList.map fun _ => .pending := by
  obtain ⟨linking, memory, hfold, -, rfl⟩ := create_eq h
  rw [Array.toList_append, (Linking.foldlM_shares hfold).2, Array.toList_map]
  rfl

theorem create_imported
    (h : Instance.create m offered maxDepth observer host watch = .ok inst)
    {n : Nat} {binding : Option (HostFunction ω)}
    (hn : inst.env.hosts[n]? = some binding) :
    n < inst.env.module.importedFunctions := by
  obtain ⟨hlt, -⟩ := Array.getElem?_eq_some_iff.mp hn
  have hsize : inst.env.hosts.size = m.importedFunctions := by
    rw [← Array.length_toList, create_hosts h, Offers.length_share, List.length_map]
    rfl
  rw [(create_typed h).1]
  omega

/-- The n-th function import is bound to what is offered under its name, unless an
earlier one has taken it. -/
theorem create_getElem?_hosts
    (h : Instance.create m offered maxDepth observer host watch = .ok inst)
    {n : Nat} {i : Import} (hi : m.functionImports[n]? = some i) :
    inst.env.hosts[n]? = some
      (offered.functions.grant (m.functionImports.take n) i) := by
  rw [← Array.getElem?_toList, create_hosts h, Offers.getElem?_share,
    List.getElem?_map, hi, ← List.map_take]
  rfl

/-- The n-th global import has the value that is offered under its name, unless an
earlier one has taken it. -/
theorem create_getElem?_globals
    (h : Instance.create m offered maxDepth observer host watch = .ok inst)
    {n : Nat} {i : Import} (hi : m.importsOfGlobals[n]? = some i) :
    inst.world.store.globals[n]? =
      some (.ofOffer (offered.globals.grant (m.importsOfGlobals.take n) i)) := by
  have hshare : ((offered.globals.share (m.importsOfGlobals.map Import.key)).map
      GlobalState.ofOffer)[n]? =
        some (.ofOffer (offered.globals.grant (m.importsOfGlobals.take n) i)) := by
    rw [List.getElem?_map, Offers.getElem?_share, List.getElem?_map,
      hi, ← List.map_take]
    rfl
  obtain ⟨hlt, -⟩ := List.getElem?_eq_some_iff.mp hshare
  rw [← Array.getElem?_toList, create_importedGlobals h,
    List.getElem?_append_left hlt, hshare]

end Instance

/-! ### Use -/

/-- A call of a bound function is a call of the host function it is bound to, and fails
for no want of a binding. -/
theorem World.callHost_of_bound {env : Env ω σ} {function : Nat} {host : HostFunction ω}
    (hbound : env.hosts[function]? = some (some host)) (w : World ω σ)
    (args : List Value) :
    (w.callHost env function args).2.host = (host w.host w.store.memory args).state ∧
      ∀ t, (w.callHost env function args).1 = .error t → t.code = .host := by
  unfold callHost
  rw [hbound]
  dsimp only [Option.join_some]
  split
  · exact ⟨rfl, by rintro _ ⟨⟩; rfl⟩
  · split
    · exact ⟨rfl, by rintro _ ⟨⟩⟩
    · split
      · exact ⟨rfl, by rintro _ ⟨⟩⟩
      · exact ⟨rfl, by rintro _ ⟨⟩; rfl⟩

/-- A call of an unbound function fails. -/
theorem World.callHost_of_unbound {env : Env ω σ} {function : Nat}
    (hunbound : env.hosts[function]? = some none) (w : World ω σ) (args : List Value) :
    w.callHost env function args =
      (.error (.unboundFunction (env.module.functionName function)), w) := by
  unfold callHost
  rw [hunbound]
  rfl

/-- An unbound global without frames of its own stays as it is until it is set. -/
theorem CellRun.unbound {index : Nat} {c c' : Cell} {log : List Event}
    (h : CellRun index c log c') (hunbound : c = ⟨some .unbound, 0⟩)
    (hunset : ∀ v owners, .set index v owners ∉ log) : c' = ⟨some .unbound, 0⟩ := by
  induction h with
  | nil => exact hunbound
  | next _ hstep ih =>
      have hnow := ih fun v owners hset => hunset v owners (List.mem_append_left _ hset)
      cases hstep with
      | rest => exact hnow
      | set =>
          exact absurd (List.mem_append_right _ (List.mem_singleton_self _))
            (hunset _ _)
      | read | start | complete | refuse => simp at hnow
      | fail =>
          obtain ⟨rfl, rfl⟩ := Cell.mk.inj hnow
          rfl

namespace Instance

variable {m : Module} {offered : Imports ω} {maxDepth : Nat}
  {observer : Observer σ} {host : ω} {watch : σ} {inst : Instance ω σ}

/-- A global that starts with a value can always be read. -/
theorem readGlobal_of_bound
    (h : Instance.create m offered maxDepth observer host watch = .ok inst)
    {n : Nat} {v : Value} (hready : inst.world.store.globals[n]? = some (.ready v))
    {log : List Event} {now : Moment ω σ}
    (hpast : History inst.env (.idle inst.world) log now) :
    ∃ v', now.store.readGlobal n = .ok (some v') := by
  obtain ⟨-, hrun⟩ := hpast.cellRun (create_defined h)
  obtain ⟨⟨v', hnow⟩, -⟩ := (hrun n).ready (by rwa [Moment.cell_idle])
  exact ⟨v', Store.readGlobal_eq_some.mpr hnow⟩

/-- A global that starts unbound cannot be read before it is set. -/
theorem readGlobal_of_unbound
    (h : Instance.create m offered maxDepth observer host watch = .ok inst) {n : Nat}
    (hunbound : inst.world.store.globals[n]? = some .unbound) {log : List Event}
    {now : Moment ω σ} (hpast : History inst.env (.idle inst.world) log now)
    (hunset : ∀ v owners, .set n v owners ∉ log) :
    now.store.readGlobal n = .error (.unboundGlobal n) := by
  obtain ⟨-, hrun⟩ := hpast.cellRun (create_defined h)
  have hnow := (hrun n).unbound (by rw [Moment.cell_idle, hunbound])
    fun v owners hset => hunset v owners ((mem_eventsAbout rfl).mp hset)
  have hstate : now.store.globals[n]? = some .unbound := congrArg Cell.state hnow
  rw [Store.readGlobal, hstate]

end Instance

/-- The instruction that calls a bound function may trap, but for no want of a binding.
-/
theorem State.call_failsWith {env : Env ω σ} {s : State ω σ}
    {host : HostFunction ω} {id : Nat} {target : CallTarget} {f : Frame}
    (hbound : env.hosts[target.function]? = some (some host))
    (hpermitted : s.Permitted env)
    (hfetch : s.calls.top.fetch? = some (.plain id (.call target), f))
    (hsource : target.source.isSome) :
    (s.advance env).FailsWith (·.code ≠ .unboundImport) := by
  obtain ⟨w, -, hadvance⟩ := advance_of_permitted hpermitted hfetch
  rw [hadvance]
  cases hexecute : f.execute env.module s.world.store (.plain id (.call target)) with
  | error t =>
      -- Only the parameters can be missing.
      simp only [Frame.execute, Frame.executePlain, Stack.popMany] at hexecute
      split at hexecute
      · cases hexecute
        exact TrapCode.noConfusion
      · simp only [bind, Except.bind] at hexecute
        split at hexecute <;> cases hexecute
  | ok result =>
      obtain ⟨g, action⟩ := result
      obtain ⟨-, rfl, rfl⟩ := Frame.execute_call hsource hexecute
      obtain ⟨-, hcode⟩ := w.callHost_of_bound hbound
        (f.stack.take target.params).reverse
      simp only [perform]
      rcases hreply : w.callHost env target.function
        (f.stack.take target.params).reverse with
        ⟨t | values, w'⟩
      · have hhost := hcode t (by rw [hreply])
        intro hunbound
        rw [hhost] at hunbound
        cases hunbound
      · trivial

/-- The instruction that reads a global with a value does not trap. -/
theorem State.globalGet_runs {env : Env ω σ} {s : State ω σ} {id n : Nat} {v : Value}
    {f : Frame} (hread : s.world.store.readGlobal n = .ok (some v))
    (hpermitted : s.Permitted env)
    (hfetch : s.calls.top.fetch? = some (.plain id (.globalGet n), f)) :
    ∃ s', s.advance env = .running s' := by
  obtain ⟨w, -, hadvance⟩ := advance_of_permitted hpermitted hfetch
  have hexecute : f.execute env.module s.world.store (.plain id (.globalGet n)) =
      .ok ({ f with stack := v :: f.stack }, .proceed) := by
    simp only [Frame.execute, Frame.executePlain, hread]
    rfl
  rw [hexecute] at hadvance
  exact ⟨_, hadvance⟩

theorem Env.invoke_of_bound {env : Env ω σ} {function : Nat} {host : HostFunction ω}
    (hbound : env.hosts[function]? = some (some host))
    (himported : function < env.module.importedFunctions) {fuel : Nat} {w : World ω σ}
    {args : List Value} {t : Trap} {site : Option Site}
    (h : (env.invoke fuel w function args).1 = .error (.error (.trap t site))) :
    t.code ≠ .unboundImport := by
  obtain ⟨-, hcode⟩ := w.callHost_of_bound hbound args
  unfold invoke at h
  split at h
  · cases h
    exact TrapCode.noConfusion
  · rw [if_pos himported] at h
    rcases hreply : w.callHost env function args with ⟨t' | values, w'⟩
    · rw [hreply] at h
      cases h
      have hhost := hcode t (by rw [hreply])
      intro hunbound
      rw [hhost] at hunbound
      cases hunbound
    · rw [hreply] at h
      cases h

/-- A function is bound to this host function.  Whoever calls it calls that, and no
call, from outside or by an instruction, fails for want of a binding. -/
structure Env.CallsBound (env : Env ω σ) (n : Nat) (f : HostFunction ω) : Prop where
  state : ∀ (w : World ω σ) args,
    (w.callHost env n args).2.host = (f w.host w.store.memory args).state
  invoked : ∀ fuel w args t site,
    (env.invoke fuel w n args).1 = .error (.error (.trap t site)) →
      t.code ≠ .unboundImport
  called : ∀ (s : State ω σ) id target g, s.Permitted env →
    s.calls.top.fetch? = some (.plain id (.call target), g) → target.function = n →
    target.source.isSome → (s.advance env).FailsWith (·.code ≠ .unboundImport)

/-- A global has a value, and the instruction that reads it gets it. -/
structure Moment.ReadsBound (env : Env ω σ) (n : Nat) (now : Moment ω σ) : Prop where
  value : ∃ v, now.store.readGlobal n = .ok (some v)
  runs : ∀ s id g, now = .busy s → s.Permitted env →
    s.calls.top.fetch? = some (.plain id (.globalGet n), g) →
    ∃ s', s.advance env = .running s'

/-- What an instance of a module has made of its imports. -/
structure Instance.Links (inst : Instance ω σ) (m : Module) (offered : Imports ω) :
    Prop where
  functions : ∀ n i, m.functionImports[n]? = some i →
    inst.env.hosts[n]? = some (offered.functions.grant (m.functionImports.take n) i)
  globals : ∀ n i, m.importsOfGlobals[n]? = some i →
    inst.world.store.globals[n]? =
      some (GlobalState.ofOffer (offered.globals.grant (m.importsOfGlobals.take n) i))
  boundFunction : ∀ n f, inst.env.hosts[n]? = some (some f) → inst.env.CallsBound n f
  boundGlobal : ∀ n v, inst.world.store.globals[n]? = some (.ready v) → ∀ log now,
    History inst.env (.idle inst.world) log now → now.ReadsBound inst.env n
  unboundFunction : ∀ n, inst.env.hosts[n]? = some none → ∀ (w : World ω σ) args,
    w.callHost inst.env n args =
      (.error (.unboundFunction (inst.env.module.functionName n)), w)
  unboundGlobal : ∀ n, inst.world.store.globals[n]? = some .unbound → ∀ log now,
    History inst.env (.idle inst.world) log now → (∀ v owners, .set n v owners ∉ log) →
    now.store.readGlobal n = .error (.unboundGlobal n)

/-- What linking gives to the imports of an instance, whatever kinds of imports lie
between.

The n-th function import gets the n-th host function, which is the one offered under
its name if no import before it asked for the same, and none otherwise; and so do
global imports.  A bound function is the host function it is bound to, and no call of
it fails for want of a binding; a bound global has a value from then on.  A call of an
unbound function fails, and so does a read of an unbound global until it is set. -/
theorem imports_bound_to_first_asker {m : Module} {offered : Imports ω} {maxDepth : Nat}
    {observer : Observer σ} {host : ω} {watch : σ} {inst : Instance ω σ}
    (hcreate : Instance.create m offered maxDepth observer host watch = .ok inst) :
    inst.Links m offered where
  functions _ _ hi := Instance.create_getElem?_hosts hcreate hi
  globals _ _ hi := Instance.create_getElem?_globals hcreate hi
  boundFunction n f hbound := by
    refine ⟨fun w args => (w.callHost_of_bound hbound args).1, ?_, ?_⟩
    · intro fuel w args t site htrap
      exact Env.invoke_of_bound hbound (Instance.create_imported hcreate hbound) htrap
    · rintro s id target g hpermitted hfetch rfl hsource
      exact State.call_failsWith hbound hpermitted hfetch hsource
  boundGlobal n v hready log now hpast := by
    obtain ⟨v', hread⟩ := Instance.readGlobal_of_bound hcreate hready hpast
    refine ⟨⟨v', hread⟩, ?_⟩
    rintro s id g rfl hpermitted hfetch
    exact State.globalGet_runs hread hpermitted hfetch
  unboundFunction _ hunbound w args := w.callHost_of_unbound hunbound args
  unboundGlobal _ hunbound _ _ hpast hunset :=
    Instance.readGlobal_of_unbound hcreate hunbound hpast hunset

namespace BindingWitness

/-- Always answers with seven. -/
def seven : HostFunction Unit :=
  fun _ memory _ => ⟨.ok (some (.i32 7)), memory, ()⟩

def offered : Imports Unit where
  functions := Offers.define [] ⟨"m", "n"⟩ seven
  globals := Offers.define [] ⟨"m", "g"⟩ (.i32 5)

/-- Imports of the function `m.n` twice, and exports of both. -/
def bytes : List UInt8 :=
  [0x00, 0x61, 0x73, 0x6d, 0x01, 0x00, 0x00, 0x00,
    0x01, 0x05, 0x01, 0x60, 0x00, 0x01, 0x7f,
    0x02, 0x0d, 0x02, 0x01, 0x6d, 0x01, 0x6e, 0x00, 0x00, 0x01, 0x6d, 0x01,
      0x6e, 0x00, 0x00,
    0x07, 0x09, 0x02, 0x01, 0x61, 0x00, 0x00, 0x01, 0x62, 0x00, 0x01]

def twice : Module where
  types := #[⟨[], [.i32]⟩]
  imports := #[⟨"m", "n", .function 0⟩, ⟨"m", "n", .function 0⟩]
  exports := #[⟨"a", .function, 0⟩, ⟨"b", .function, 1⟩]

def freshTwice : Instance Unit Unit where
  env := { module := twice, hosts := #[some seven, none], observer :=
    .silent, maxDepth := 1 }
  world := ⟨⟨#[], none, #[]⟩, (), ()⟩

/-- The second import of a name that was defined is unbound, and traps. -/
theorem repeated_import_unbound :
    Module.decode 0 bytes.toArray = .ok twice ∧
    Instance.create twice offered 1 .silent () () = .ok freshTwice ∧
    twice.functionImports[1]? = some ⟨"m", "n", .function 0⟩ ∧
    offered.functions.get? ⟨"m", "n"⟩ = some seven ∧
    freshTwice.env.hosts[1]? = some none ∧
    (freshTwice.env.invoke 0 freshTwice.world 0 []).1 = .ok [.i32 7] ∧
    (freshTwice.env.invoke 0 freshTwice.world 1 []).1 =
      .error (.error (.trap (.unboundFunction "b") none)) := by
  refine ⟨?_, ?_, rfl, ?_, rfl, rfl, rfl⟩
  · with_unfolding_all rfl
  · with_unfolding_all rfl
  · simp [offered]

/-- A function and a global, with a memory and a function that is not offered between
them. -/
def mixed : Module where
  types := #[⟨[], [.i32]⟩]
  imports := #[⟨"m", "k", .function 0⟩, ⟨"m", "p", .memory ⟨0, none⟩⟩,
    ⟨"m", "g", .global .i32 false⟩, ⟨"m", "n", .function 0⟩]

def fresh : Instance Unit Unit where
  env := { module := mixed, hosts := #[none, some seven], observer :=
    .silent, maxDepth := 1 }
  world := ⟨⟨#[.ready (.i32 5)], some (.ofLimits ⟨0, none⟩), #[]⟩, (), ()⟩

theorem create_mixed : Instance.create mixed offered 1 .silent () () = .ok fresh := by
  with_unfolding_all rfl

/-- What is offered is bound, each at its index among the imports of its kind. -/
theorem mixed_imports_bound :
    Instance.create mixed offered 1 .silent () () = .ok fresh ∧
    fresh.env.hosts[1]? = some (some seven) ∧
    fresh.world.store.globals[0]? = some (.ready (.i32 5)) ∧
    (∀ (w : World Unit Unit) args,
      (w.callHost fresh.env 1 args).2.host = (seven w.host w.store.memory args).state) ∧
    ∀ log now, History fresh.env (.idle fresh.world) log now →
      ∃ v, now.store.readGlobal 0 = .ok (some v) := by
  have hlinks := imports_bound_to_first_asker create_mixed
  have hhost : fresh.env.hosts[1]? = some (some seven) := by
    rw [hlinks.functions 1 ⟨"m", "n", .function 0⟩ rfl]
    simp [Offers.grant, offered, Import.key, mixed, Module.functionImports,
      ImportKind.functionType?]
  have hready : fresh.world.store.globals[0]? = some (.ready (.i32 5)) := by
    rw [hlinks.globals 0 ⟨"m", "g", .global .i32 false⟩ rfl]
    simp [Offers.grant, offered, Import.key, GlobalState.ofOffer]
  exact ⟨create_mixed, hhost, hready, (hlinks.boundFunction 1 seven hhost).state,
    fun log now hpast => (hlinks.boundGlobal 0 _ hready log now hpast).value⟩

end BindingWitness

end WasmVm
