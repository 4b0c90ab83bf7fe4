/-
Decoded modules agree with themselves.  Bodies are read while sections may still be to
come, so what is looked up for them is looked up early.  It stays right as long as
there is one code section and no imports follow a section with bodies.
-/
import WasmVm.Proofs.Body.Flattening
import WasmVm.Proofs.Decoding.Sections

namespace WasmVm

/-- A node and the nodes inside it. -/
inductive Node.Contains : Node → Node → Prop
  | self {n} : Contains n n
  | body {id kind type body alternative child n} (hchild : child ∈ body)
      (hn : Contains child n) :
      Contains (.scope id kind type body alternative) n
  | alternative {id kind type body alternative child n} (hchild : child ∈ alternative)
      (hn : Contains child n) : Contains (.scope id kind type body (some alternative)) n

/-- Every call in a body carries what the module says of its callee. -/
def Node.Resolved (m : Module) (root : Node) : Prop :=
  ∀ id target, root.Contains (.plain id (.call target)) →
    m.callTarget? target.function = some target

/-! ### Bodies -/

/-- A node in a body stands for one of its instructions. -/
theorem Derives.item_mem {sym : Symbol} {id : Nat} {items : List Item}
    {nodes : List Node}
    (h : Derives sym id items nodes) {n inner : Node} (hn : n ∈ nodes)
    (hinner : n.Contains inner) : inner.item ∈ items := by
  induction h generalizing n with
  | nop | nil | noHandler => cases hn
  | plain hinstr =>
      obtain rfl := List.mem_singleton.mp hn
      cases hinner
      rw [Node.item_plain hinstr]
      exact List.mem_singleton_self _
  | scope _ ih =>
      obtain rfl := List.mem_singleton.mp hn
      cases hinner with
      | self => exact List.mem_cons_self
      | body hchild hinner => simp [ih hchild hinner]
  | ifElse _ _ ihbody ihother =>
      obtain rfl := List.mem_singleton.mp hn
      cases hinner with
      | self => exact List.mem_cons_self
      | body hchild hinner => simp [ihbody hchild hinner]
      | alternative hchild hinner => simp [ihother hchild hinner]
  | tryCatch _ _ _ ihbody ihhandlers =>
      obtain rfl := List.mem_singleton.mp hn
      cases hinner with
      | self => exact List.mem_cons_self
      | body hchild hinner => simp [ihbody hchild hinner]
      | alternative hchild hinner => simp [ihhandlers hchild hinner]
  | tryDelegate _ ih =>
      obtain rfl := List.mem_singleton.mp hn
      cases hinner with
      | self => exact List.mem_cons_self
      | body hchild hinner =>
          rcases List.mem_append.mp hchild with hchild | hmark
          · simp [ih hchild hinner]
          · obtain rfl := List.mem_singleton.mp hmark
            cases hinner
            simp [Node.item]
  | cons _ _ ihfirst ihrest =>
      rcases List.mem_append.mp hn with hn | hn
      · exact List.mem_append_left _ (ihfirst hn hinner)
      · exact List.mem_append_right _ (ihrest hn hinner)
  | catchTag _ _ ihbody ihrest =>
      rcases List.mem_cons.mp hn with rfl | hn
      · cases hinner
        exact List.mem_cons_self
      · rcases List.mem_append.mp hn with hn | hn
        · simp [ihbody hn hinner]
        · simp [ihrest hn hinner]
  | catchAll _ ih =>
      rcases List.mem_cons.mp hn with rfl | hn
      · cases hinner
        exact List.mem_cons_self
      · simp [ih hn hinner]

theorem Module.function_of_callTarget? {m : Module} {function : Nat}
    {target : CallTarget}
    (h : m.callTarget? function = some target) : target.function = function := by
  unfold Module.callTarget? at h
  obtain ⟨typeIndex, -, h⟩ := Option.bind_eq_some_iff.mp h
  obtain ⟨type, -, h⟩ := Option.bind_eq_some_iff.mp h
  cases h
  rfl

/-- A call is read with what the module says of its callee. -/
theorem Item.Encodes.callTarget?_eq {m : Module} {target : CallTarget}
    {bytes : List UInt8} (h : Encodes m (.plain (.call target)) bytes) :
    m.callTarget? target.function = some target := by
  generalize hitem : Item.plain (.call target) = item at h
  obtain ⟨hop, hoperands⟩ := h
  next op front back =>
  generalize hlayout : op.layout = layout at hoperands
  cases op <;> cases hlayout <;> cases hoperands <;> cases hitem
  next htarget => rwa [Module.function_of_callTarget? htarget]

/-- So a body that has been read carries nothing else. -/
theorem BodyEncodes.resolved {m : Module} {type : BlockType} {root : Node}
    {bytes : List UInt8} (h : BodyEncodes m type root bytes) : root.Resolved m := by
  obtain ⟨items, nodes, hderives, heach, rfl⟩ := h
  intro id target hcall
  cases hcall with
  | body hchild hcall =>
      have hitem := List.mem_append_left [.close] (hderives.item_mem hchild hcall)
      obtain ⟨front, hfront⟩ := heach.exists_of_mem _ hitem
      exact hfront.callTarget?_eq

theorem BodyEncodes.blockType_eq {m : Module} {type : BlockType} {root : Node}
    {bytes : List UInt8} (h : BodyEncodes m type root bytes) :
    root.blockType = type := by
  obtain ⟨items, nodes, -, -, rfl⟩ := h
  rfl

theorem Reading.body_encodes (m : Module) (owner : String) (type : BlockType) :
    Yields (fun root => ∃ bytes, BodyEncodes m type root bytes)
      (Reading.body m owner type) := by
  intro c root c' h
  obtain ⟨bytes, hbytes, -⟩ := (Reading.body_reads m owner type c root c').mp h
  exact ⟨bytes, hbytes⟩

theorem Reading.global_encodes (m : Module) :
    Yields (fun g => ∃ bytes, BodyEncodes m (.value g.type) g.body bytes)
      (Reading.global m) :=
  .bind_any fun _ => .bind_any fun _ => .bind_any fun _ =>
    (Reading.body_encodes m _ _).bind fun _ hbody => .bind_any fun _ => .pure hbody

/-! ### Calls -/

/-- What was found of a callee is found again, unless functions have been imported
since. -/
theorem Module.Grows.callTarget? {id : UInt8} {m m' : Module} (h : m.Grows id m')
    (himports : m'.imports = m.imports) {function : Nat} {target : CallTarget}
    (htarget : m.callTarget? function = some target) :
    m'.callTarget? function = some target := by
  obtain ⟨⟨types, htypes⟩, ⟨functions, hfunctions⟩, -⟩ := h
  have hsource : m'.functionImport? function = m.functionImport? function := by
    rw [functionImport?, functionImport?, functionImports, functionImports, himports]
  unfold Module.callTarget? at htarget ⊢
  obtain ⟨typeIndex, hindex, htarget⟩ := Option.bind_eq_some_iff.mp htarget
  obtain ⟨type, htype, htarget⟩ := Option.bind_eq_some_iff.mp htarget
  have hindex' : m'.functionTypeIndex? function = some typeIndex := by
    have hcount : m'.importedFunctions = m.importedFunctions := by
      rw [importedFunctions, importedFunctions, functionImports,
        functionImports, himports]
    rw [functionTypeIndex?] at hindex ⊢
    rw [hsource, hcount]
    cases hsome : m.functionImport? function with
    | some i => rwa [hsome] at hindex
    | none =>
        rw [hsome] at hindex
        rw [hfunctions]
        exact (Array.getElem?_append_left
          (Array.getElem?_eq_some_iff.mp hindex).1).trans hindex
  have htype' : m'.types[typeIndex]? = some type := by
    rw [htypes, Array.getElem?_append_left (Array.getElem?_eq_some_iff.mp htype).1,
      htype]
  simp only [hindex', hsource, Option.bind_eq_bind, Option.bind_some, htype']
  exact htarget

theorem Node.Resolved.grows {id : UInt8} {m m' : Module} {root : Node}
    (hroot : root.Resolved m)
    (h : m.Grows id m') (himports : m'.imports = m.imports) : root.Resolved m' :=
  fun i target hcall => h.callTarget? himports (hroot i target hcall)

namespace Module

/-- The calls in all bodies are resolved. -/
def CallsResolved (m : Module) : Prop :=
  (∀ code ∈ m.codes, code.body.Resolved m) ∧ ∀ g ∈ m.globals, g.body.Resolved m

theorem CallsResolved.grows {id : UInt8} {m m' : Module} (hm : m.CallsResolved)
    (h : m.Grows id m') (himports : m'.imports = m.imports)
    (hcodes : m'.codes = m.codes)
    (hglobals : m'.globals = m.globals) : m'.CallsResolved := by
  refine ⟨?_, ?_⟩
  · rw [hcodes]
    exact fun code hcode => (hm.1 code hcode).grows h himports
  · rw [hglobals]
    exact fun g hg => (hm.2 g hg).grows h himports

end Module

namespace Decoding

/-- A global is read against the module before it. -/
theorem globals_resolved {m : Module} (hm : m.CallsResolved) :
    Yields Module.CallsResolved (globals m) := by
  refine .bind_any fun count => ?_
  refine forRange_yields (P := fun _ => Module.CallsResolved)
    (fun turn m hm => ?_) count 0 hm
  refine (yields_lift (Reading.global_encodes m)).bind fun g hg => .pure ?_
  obtain ⟨bytes, hbytes⟩ := hg
  have hgrows : m.Grows 6 { m with globals := m.globals.push g } :=
    { Module.Grows.refl 6 m with globals := fun hid => absurd rfl hid }
  refine ⟨fun code hcode => (hm.1 code hcode).grows hgrows rfl, fun g' hg' => ?_⟩
  rcases Array.mem_push.mp hg' with hg' | rfl
  · exact (hm.2 g' hg').grows hgrows rfl
  · exact hbytes.resolved.grows hgrows rfl

end Decoding

/-! ### Codes -/

/-- Code for a function of a signature: its locals begin with the parameters, and its
body is a block of that signature. -/
structure Code.Fits (code : Code) (typeIndex : Nat) (type : FuncType) : Prop where
  params : code.params = type.params.length
  locals : code.locals.toList.take code.params = type.params
  body : code.body.blockType = .func typeIndex

/-- A code entry fits the function that it is read for. -/
theorem Reading.code_fits (m : Module) (function typeIndex : Nat) (type : FuncType) :
    Yields (fun code => code.Fits typeIndex type ∧
        ∃ bytes, BodyEncodes m (.func typeIndex) code.body bytes)
      (Reading.code m function typeIndex type) := by
  have hgroup : ∀ (turn : Nat) (locals : Array ValType), type.params <+: locals.toList →
      Yields (fun locals : Array ValType => type.params <+: locals.toList)
        (localGroup function locals) := by
    intro turn locals hlocals
    refine .bind_any fun count => .bind_any fun t => ?_
    split
    · rintro c a c' ⟨⟩
    · refine .pure ?_
      rw [Array.toList_append]
      exact hlocals.trans (List.prefix_append ..)
  refine .bind_any fun groups => ?_
  refine (forRange_yields hgroup groups 0 (List.prefix_refl _)).bind
    fun locals hlocals => ?_
  refine (body_encodes m _ _).bind fun body hbody => .bind_any fun after => ?_
  obtain ⟨bytes, hbytes⟩ := hbody
  split
  · refine .pure ⟨⟨rfl, ?_, hbytes.blockType_eq⟩, bytes, hbytes⟩
    exact (List.prefix_iff_eq_take.mp hlocals).symm
  · rintro c a c' ⟨⟩

namespace Module

/-- Every code fits the function of its number. -/
def CodesMatch (m : Module) : Prop :=
  ∀ (i : Nat) (code : Code), m.codes[i]? = some code → ∃ typeIndex type,
    m.functions[i]? = some typeIndex ∧ m.types[typeIndex]? = some type ∧
    code.Fits typeIndex type

/-- Later signatures and functions do not change that. -/
theorem CodesMatch.grows {id : UInt8} {m m' : Module} (hm : m.CodesMatch)
    (h : m.Grows id m') (hcodes : m'.codes = m.codes) : m'.CodesMatch := by
  intro i code hcode
  rw [hcodes] at hcode
  obtain ⟨typeIndex, type, hfunction, htype, hfits⟩ := hm i code hcode
  obtain ⟨⟨types, htypes⟩, ⟨functions, hfunctions⟩, -⟩ := h
  refine ⟨typeIndex, type, ?_, ?_, hfits⟩
  · rw [hfunctions, Array.getElem?_append_left
      (Array.getElem?_eq_some_iff.mp hfunction).1, hfunction]
  · rw [htypes, Array.getElem?_append_left (Array.getElem?_eq_some_iff.mp htype).1,
      htype]

/-- Every function defined has code that fits its signature. -/
def CodesFit (m : Module) : Prop :=
  ∀ function, m.importedFunctions ≤ function →
    function < m.importedFunctions + m.functions.size →
    ∃ code typeIndex type, m.code? function = some code ∧
      m.functionTypeIndex? function = some typeIndex ∧
      m.functionType? function = some type ∧ code.Fits typeIndex type

theorem CodesMatch.fit {m : Module} (hm : m.CodesMatch)
    (hsize : m.codes.size = m.functions.size) :
    m.CodesFit := by
  intro function hlocal hbound
  have hcode : m.codes[function - m.importedFunctions]? =
      some m.codes[function - m.importedFunctions] :=
        Array.getElem?_eq_getElem (by omega)
  obtain ⟨typeIndex, type, hfunction, htype, hfits⟩ := hm _ _ hcode
  have hnone : m.functionImport? function = none := List.getElem?_eq_none hlocal
  have hindex : m.functionTypeIndex? function = some typeIndex := by
    rw [functionTypeIndex?, hnone]
    exact hfunction
  refine ⟨_, typeIndex, type, ?_, hindex, ?_, hfits⟩
  · rw [code?, if_neg (by omega), hcode]
  · rw [functionType?, hindex]
    exact htype

end Module

namespace Decoding

/-- The code of one function is added behind the others. -/
theorem code_yields (turn : Nat) (m : Module) :
    Yields (fun m' => ∃ code typeIndex type,
      m' = { m with codes := m.codes.push code } ∧ m.functions[turn]? = some typeIndex ∧
      m.types[typeIndex]? = some type ∧ code.Fits typeIndex type ∧
      ∃ bytes, BodyEncodes m (.func typeIndex) code.body bytes)
      (code turn m) := by
  refine .bind_any fun size => .bind_any fun entry => ?_
  split
  · rintro c m' c' ⟨⟩
  · next typeIndex hfunction =>
      split
      · rintro c m' c' ⟨⟩
      · next type htype =>
          have hcode := Reading.code_fits m (m.importedFunctions + turn) typeIndex type
          refine (yields_within (yields_lift hcode)).bind fun r hr => .pure ?_
          exact ⟨r.1, typeIndex, type, rfl, hfunction, htype, hr⟩

theorem codes_resolved {m : Module} (hm : m.CallsResolved) :
    Yields Module.CallsResolved (codes m) := by
  refine .bind_any fun count => ?_
  split
  · rintro c m' c' ⟨⟩
  · refine forRange_yields (P := fun _ => Module.CallsResolved)
      (fun turn m hm => ?_) count 0 hm
    intro c m' c' hread
    obtain ⟨code, typeIndex, type, rfl, -, -, -, bytes, hbytes⟩ :=
      code_yields turn m c m' c' hread
    have hgrows := code_grows turn m c _ c' hread
    refine ⟨fun code' hmem => ?_, fun g hg => (hm.2 g hg).grows hgrows rfl⟩
    rcases Array.mem_push.mp hmem with hmem | rfl
    · exact (hm.1 code' hmem).grows hgrows rfl
    · exact hbytes.resolved.grows hgrows rfl

/-- The first code section has the codes in the order of the functions. -/
theorem codes_match {m : Module} (hm : m.codes = #[]) :
    Yields Module.CodesMatch (codes m) := by
  refine .bind_any fun count => ?_
  split
  · rintro c m' c' ⟨⟩
  · have hstart : m.codes.size = 0 ∧ m.CodesMatch := by
      refine ⟨by simp [hm], fun i code hcode => ?_⟩
      simp [hm] at hcode
    suffices hall : Yields (fun m' => m'.codes.size = 0 + count ∧ m'.CodesMatch)
        (forRange code count 0 m) from fun c m' c' hread => (hall c m' c' hread).2
    -- After so many turns there are so many codes: each gets the number of its turn.
    refine forRange_yields (P := fun turn (m : Module) =>
      m.codes.size = turn ∧ m.CodesMatch)
      (fun turn m hm => ?_) count 0 hstart
    intro c m' c' hread
    obtain ⟨code, typeIndex, type, rfl, hfunction, htype, hfits, -⟩ :=
      code_yields turn m c m' c' hread
    obtain ⟨rfl, hmatch⟩ := hm
    refine ⟨by simp, fun i code' hcode => ?_⟩
    dsimp only at hcode ⊢
    rw [Array.getElem?_push] at hcode
    split at hcode
    · next hi =>
        cases hcode
        exact ⟨typeIndex, type, hi ▸ hfunction, htype, hfits⟩
    · exact hmatch i code' hcode

variable {evaluate : List UInt8 → Except Halt Value} {id : UInt8} {m m' : Module}

/-- A section keeps the calls resolved, unless it imports functions under bodies. -/
theorem Contributes.callsResolved (h : Contributes evaluate id m m')
    (hm : m.CallsResolved)
    (hid : id = 2 → m.codes = #[] ∧ m.globals = #[]) : m'.CallsResolved := by
  have hgrows := h.grows
  by_cases himports : id = 2
  · obtain ⟨hcodes, hglobals⟩ := hid himports
    have hcodes' := hgrows.codes (by simp [himports])
    have hglobals' := hgrows.globals (by simp [himports])
    refine ⟨fun code hcode => ?_, fun g hg => ?_⟩
    · simp [hcodes', hcodes] at hcode
    · simp [hglobals', hglobals] at hg
  by_cases hglobals : id = 6
  · subst hglobals
    cases h with
    | known hreader hread =>
        cases hreader
        exact globals_resolved hm _ _ _ hread
    | skipped hreader => cases hreader
  by_cases hcodes : id = 10
  · subst hcodes
    cases h with
    | known hreader hread =>
        cases hreader
        exact codes_resolved hm _ _ _ hread
    | skipped hreader => cases hreader
  · exact hm.grows hgrows (hgrows.imports himports) (hgrows.codes hcodes)
      (hgrows.globals hglobals)

/-- A section keeps codes and functions matched, unless it is a second code section. -/
theorem Contributes.codesMatch (h : Contributes evaluate id m m') (hm : m.CodesMatch)
    (hid : id = 10 → m.codes = #[]) : m'.CodesMatch := by
  by_cases hcodes : id = 10
  · subst hcodes
    cases h with
    | known hreader hread =>
        cases hreader
        exact codes_match (hid rfl) _ _ _ hread
    | skipped hreader => cases hreader
  · exact hm.grows h.grows (h.grows.codes hcodes)

end Decoding

/-- No section with imports comes after one with bodies. -/
def ImportsFirst (ids : List UInt8) : Prop :=
  ids.Pairwise fun earlier later => earlier = 6 ∨ earlier = 10 → later ≠ 2

instance (ids : List UInt8) : Decidable (ImportsFirst ids) :=
  inferInstanceAs (Decidable (ids.Pairwise _))

namespace Module

/-- The codes of a module, given the sections still to come: there are none as long as
the code section is among these. -/
structure AwaitsCode (ids : List UInt8) (m : Module) : Prop where
  once : ids.count 10 ≤ 1
  matched : m.CodesMatch
  empty : 10 ∈ ids → m.codes = #[]

/-- The bodies of a module, given the sections still to come: there are none as long as
imports are among these. -/
structure AwaitsImports (ids : List UInt8) (m : Module) : Prop where
  order : ImportsFirst ids
  resolved : m.CallsResolved
  empty : 2 ∈ ids → m.codes = #[] ∧ m.globals = #[]

variable {evaluate : List UInt8 → Except Halt Value} {id : UInt8} {ids : List UInt8}
  {m m' : Module}

theorem AwaitsCode.next (h : m.AwaitsCode (id :: ids))
    (hcontributes : Decoding.Contributes evaluate id m m') : m'.AwaitsCode ids := by
  obtain ⟨honce, hmatched, hempty⟩ := h
  rw [List.count_cons] at honce
  refine ⟨by omega, ?_, fun hmore => ?_⟩
  · exact hcontributes.codesMatch hmatched fun hid => hempty (by simp [hid])
  · by_cases hid : id = 10
    · have hpos := List.count_pos_iff.mpr hmore
      simp only [hid, beq_self_eq_true, if_true] at honce
      omega
    · rw [hcontributes.grows.codes hid]
      exact hempty (List.mem_cons_of_mem id hmore)

theorem AwaitsImports.next (h : m.AwaitsImports (id :: ids))
    (hcontributes : Decoding.Contributes evaluate id m m') : m'.AwaitsImports ids := by
  obtain ⟨horder, hresolved, hempty⟩ := h
  obtain ⟨hlater, horder⟩ := List.pairwise_cons.mp horder
  refine ⟨horder, ?_, fun hmore => ?_⟩
  · exact hcontributes.callsResolved hresolved fun hid => hempty (by simp [hid])
  · have hid : ¬ (id = 6 ∨ id = 10) := fun hid => hlater 2 hmore hid rfl
    rw [hcontributes.grows.codes (fun h => hid (.inr h)),
      hcontributes.grows.globals (fun h => hid (.inl h))]
    exact hempty (List.mem_cons_of_mem id hmore)

/-- A module with one code section has code that fits its functions. -/
theorem codesFit_of_decode {fuel : Nat} {bytes : Array UInt8}
    (h : Module.decode fuel bytes = .ok m)
    (honce : (Module.sectionIds bytes).count 10 ≤ 1) : m.CodesFit := by
  have hstart : Module.AwaitsCode (Module.sectionIds bytes) {} :=
    ⟨honce, by simp [Module.CodesMatch], fun _ => rfl⟩
  obtain ⟨hend, hsize⟩ := Module.decodeWith_induction h hstart Module.AwaitsCode.next
  exact hend.matched.fit hsize

end Module

/-- Decoded modules agree with themselves.  If there is at most one code section, every
function defined has code whose locals begin with the parameters of its signature and
whose body is a block of that signature.  If no imports follow globals or code, every
call in a body or an initializer carries just what the whole module says of its callee.
-/
theorem decoded_module_consistent {fuel : Nat} {bytes : Array UInt8} {m : Module}
    (h : Module.decode fuel bytes = .ok m) :
    ((Module.sectionIds bytes).count 10 ≤ 1 → m.CodesFit) ∧
    (ImportsFirst (Module.sectionIds bytes) → m.CallsResolved) := by
  refine ⟨fun honce => ?_, fun horder => ?_⟩
  · exact Module.codesFit_of_decode h honce
  · have hstart : Module.AwaitsImports (Module.sectionIds bytes) {} :=
      ⟨horder, ⟨by simp, by simp⟩, fun _ => ⟨rfl, rfl⟩⟩
    obtain ⟨hend, -⟩ := Module.decodeWith_induction h hstart Module.AwaitsImports.next
    exact hend.resolved

namespace ConsistencyWitness

def header : List UInt8 :=
  [0x00, 0x61, 0x73, 0x6d, 0x01, 0x00, 0x00, 0x00]

/-- The signature without parameters and results. -/
def typeSection : List UInt8 :=
  [0x01, 0x04, 0x01, 0x60, 0x00, 0x00]

/-- The function `m.n` of the first signature. -/
def importSection : List UInt8 :=
  [0x02, 0x07, 0x01, 0x01, 0x6d, 0x01, 0x6e, 0x00, 0x00]

/-- One function of the first signature. -/
def functionSection : List UInt8 :=
  [0x03, 0x02, 0x01, 0x00]

/-- A body that calls the first function. -/
def codeSection : List UInt8 :=
  [0x0a, 0x06, 0x01, 0x04, 0x00, 0x10, 0x00, 0x0b]

/-- A function that calls the one imported, or itself. -/
def caller (source : Option ImportName) : Module where
  types := #[⟨[], []⟩]
  imports := #[⟨"m", "n", .function 0⟩]
  functions := #[0]
  codes :=
    #[⟨#[], 0, .scope 0 .block (.func 0) [.plain 1 (.call ⟨0, 0, 0, 0, source⟩)] none⟩]

theorem decode_imports_first :
    Module.decode 0 (header ++ typeSection ++ importSection ++ functionSection ++
      codeSection).toArray = .ok (caller (some ⟨"m", "n"⟩)) := by
  with_unfolding_all rfl

theorem consistent_with_imports_first :
    (caller (some ⟨"m", "n"⟩)).CodesFit ∧ (caller (some ⟨"m", "n"⟩)).CallsResolved := by
  obtain ⟨hfit, hresolved⟩ := decoded_module_consistent decode_imports_first
  have hids : Module.sectionIds (header ++ typeSection ++ importSection ++
      functionSection ++ codeSection).toArray = [1, 2, 3, 10] := by
        with_unfolding_all rfl
  rw [hids] at hfit hresolved
  exact ⟨hfit (by decide), hresolved (by decide)⟩

theorem decode_imports_last :
    Module.decode 0 (header ++ typeSection ++ functionSection ++ codeSection ++
      importSection).toArray = .ok (caller none) := by
  with_unfolding_all rfl

/-- Signatures without and with a parameter, a function of the first, its code twice,
and a function of the second. -/
def codeTwice : List UInt8 :=
  header ++ [0x01, 0x08, 0x02, 0x60, 0x00, 0x00, 0x60, 0x01, 0x7f, 0x00] ++
    [0x03, 0x02, 0x01, 0x00] ++ [0x0a, 0x04, 0x01, 0x02, 0x00, 0x0b] ++
    [0x0a, 0x04, 0x01, 0x02, 0x00, 0x0b] ++ [0x03, 0x02, 0x01, 0x01]

def shifted : Module where
  types := #[⟨[], []⟩, ⟨[.i32], []⟩]
  functions := #[0, 1]
  codes := #[⟨#[], 0, .scope 0 .block (.func 0) [] none⟩,
    ⟨#[], 0, .scope 0 .block (.func 0) [] none⟩]

theorem decode_code_twice : Module.decode 0 codeTwice.toArray = .ok shifted := by
  with_unfolding_all rfl

/-- Imports that follow the code leave a call with an outdated callee, and after a
second code section a function has code that is not its own. -/
theorem inconsistent_modules_decode :
    (Module.decode 0 (header ++ typeSection ++ functionSection ++ codeSection ++
      importSection).toArray = .ok (caller none) ∧ ¬ (caller none).CallsResolved) ∧
    Module.decode 0 codeTwice.toArray = .ok shifted ∧ ¬ shifted.CodesFit := by
  refine ⟨⟨decode_imports_last, fun hresolved => ?_⟩, decode_code_twice, fun hfit => ?_⟩
  · have hcall := hresolved.1 _ (Array.mem_singleton.mpr rfl) 1 ⟨0, 0, 0, 0, none⟩
      (.body (List.mem_singleton_self _) .self)
    have hsource : (caller none).callTarget? 0 = some
        ⟨0, 0, 0, 0, some ⟨"m", "n"⟩⟩ := by
      with_unfolding_all rfl
    rw [hsource] at hcall
    cases hcall
  · obtain ⟨code, typeIndex, type, hcode, -, htype, hfits⟩ :=
      hfit 1 (by decide) (by decide)
    cases hcode
    cases htype
    have hparams := hfits.params
    cases hparams

end ConsistencyWitness

end WasmVm
