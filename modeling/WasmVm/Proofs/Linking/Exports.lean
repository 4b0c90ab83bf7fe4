/-
Looking up exported functions.  A call by name asks the first export of the name, and
the map of all exports keeps the last export of each name that gives a function.  The
two agree on every name that is exported once, and wherever the last function of a name
is that of its first export.
-/
import WasmVm.Instance

namespace WasmVm

variable {ω σ : Type}

namespace Module

/-- The function that an export gives, if it gives one that exists. -/
def given? (m : Module) (e : Export) : Option ExportedFunction :=
  if e.kind = .function then (m.functionType? e.index).map fun type =>
    ⟨e.name, e.index, type⟩
  else none

/-- The exports of a name, in order. -/
def exportsOf (m : Module) (name : String) : List Export :=
  m.exports.toList.filter fun e => e.name = name

/-- The functions that the exports of a name give, in order. -/
def functionsOf (m : Module) (name : String) : List ExportedFunction :=
  (m.exportsOf name).filterMap m.given?

theorem given?_eq_some {m : Module} {e : Export} {f : ExportedFunction} :
    m.given? e = some f ↔ e.kind = .function ∧ f.name = e.name ∧ f.index = e.index ∧
      m.functionType? e.index = some f.type := by
  unfold given?
  split
  · next hkind =>
    rw [Option.map_eq_some_iff]
    constructor
    · rintro ⟨type, htype, rfl⟩
      exact ⟨hkind, rfl, rfl, htype⟩
    · rintro ⟨-, hname, hindex, htype⟩
      exact ⟨f.type, htype, by rw [← hname, ← hindex]⟩
  · next hkind =>
    constructor
    · rintro ⟨⟩
    · rintro ⟨hfunction, -⟩
      exact absurd hfunction hkind

theorem name_of_mem_exportsOf {m : Module} {name : String} {e : Export}
    (h : e ∈ m.exportsOf name) : e.name = name := by
  simpa using (List.mem_filter.mp h).2

theorem export?_eq (m : Module) (name : String) :
    m.export? name = (m.exportsOf name).head? := by
  rw [exportsOf, List.head?_filter, export?, ← Array.find?_toList]
  rfl

/-- A call by name asks the first export of the name. -/
theorem exportedFunction_eq_ok {m : Module} {name : String} {f : ExportedFunction} :
    m.exportedFunction name = .ok f ↔
    (m.exportsOf name).head?.bind m.given? = some f := by
  rw [exportedFunction, ← export?_eq]
  cases hfirst : m.export? name with
  | none => simp
  | some e =>
      have hname : e.name = name :=
        name_of_mem_exportsOf (List.mem_of_head? (m.export?_eq name ▸ hfirst))
      rw [Option.bind_some, given?, hname]
      by_cases hkind : e.kind = .function
      · have hkept : (some e).filter (fun e => e.kind == .function) =
            some e := by simp [hkind]
        rw [hkept, if_pos hkind]
        cases htype : m.functionType? e.index <;> simp [htype]
      · have hrefused : (some e).filter (fun e => e.kind == .function) =
            none := by simp [hkind]
        rw [hrefused, if_neg hkind]
        simp

/-- Adds the function of an export to a map. -/
def addExport (m : Module) (map : Std.TreeMap String ExportedFunction) (e : Export) :
    Std.TreeMap String ExportedFunction :=
  (m.given? e).elim map fun f => map.insert e.name f

theorem exportedFunctions_eq (m : Module) :
    m.exportedFunctions = m.exports.toList.foldl m.addExport ∅ := by
  rw [exportedFunctions, ← Array.foldl_toList]
  congr 1
  funext map e
  rw [addExport, given?]
  split
  · cases m.functionType? e.index <;> rfl
  · rfl

theorem getElem?_addExport (m : Module) (map : Std.TreeMap String ExportedFunction)
    (e : Export) (name : String) :
    (m.addExport map e)[name]? =
      if e.name = name then (m.given? e).or map[name]? else map[name]? := by
  rw [addExport]
  cases m.given? e with
  | none => simp
  | some f => simp [Std.TreeMap.getElem?_insert]

/-- Of the functions of a name the map keeps the last. -/
theorem getElem?_foldl_addExport (m : Module) (exports : List Export)
    (map : Std.TreeMap String ExportedFunction) (name : String) :
    (exports.foldl m.addExport map)[name]? =
      ((exports.filter fun e => e.name = name).filterMap m.given?).getLast?.or
        map[name]? := by
  induction exports generalizing map with
  | nil => simp
  | cons e rest ih =>
      rw [List.foldl_cons, ih, getElem?_addExport]
      by_cases hname : e.name = name
      · rw [if_pos hname, List.filter_cons_of_pos (by simpa using hname),
          List.filterMap_cons]
        cases m.given? e with
        | none => rfl
        | some f => simp [List.getLast?_cons]
      · rw [if_neg hname, List.filter_cons_of_neg (by simpa using hname)]

theorem getElem?_exportedFunctions (m : Module) (name : String) :
    m.exportedFunctions[name]? = (m.functionsOf name).getLast? := by
  rw [exportedFunctions_eq, getElem?_foldl_addExport]
  simp [functionsOf, exportsOf]

/-- All exports of a name are of one thing. -/
def Unambiguous (m : Module) (name : String) : Prop :=
  ∀ e ∈ m.exportsOf name, ∀ e' ∈ m.exportsOf name, e.kind = e'.kind ∧ e.index = e'.index

/-- A call by name and the map find the same function, or neither finds one. -/
def LookupsAgree (m : Module) (name : String) : Prop :=
  ∀ f, m.exportedFunctions[name]? = some f ↔ m.exportedFunction name = .ok f

theorem lookupsAgree_iff (m : Module) (name : String) :
    m.LookupsAgree name ↔
      (m.functionsOf name).getLast? = (m.exportsOf name).head?.bind m.given? := by
  rw [Option.ext_iff]
  apply forall_congr'
  intro f
  rw [getElem?_exportedFunctions, exportedFunction_eq_ok]

theorem given?_mem_functionsOf {m : Module} {name : String} {e : Export}
    {f : ExportedFunction}
    (he : e ∈ m.exportsOf name) (hf : m.given? e = some f) : f ∈ m.functionsOf name :=
  List.mem_filterMap.mpr ⟨e, he, hf⟩

theorem mem_functionsOf_of_ok {m : Module} {name : String} {f : ExportedFunction}
    (h : m.exportedFunction name = .ok f) : f ∈ m.functionsOf name := by
  obtain ⟨first, hfirst, hgiven⟩ :=
    Option.bind_eq_some_iff.mp (exportedFunction_eq_ok.mp h)
  exact given?_mem_functionsOf (List.mem_of_head? hfirst) hgiven

theorem mem_functionsOf_of_getElem? {m : Module} {name : String} {f : ExportedFunction}
    (h : m.exportedFunctions[name]? = some f) : f ∈ m.functionsOf name :=
  List.mem_of_getLast? (m.getElem?_exportedFunctions name ▸ h)

theorem mem_functionsOf_of_found {m : Module} {name : String} {f : ExportedFunction}
    (h : m.exportedFunctions[name]? = some f ∨ m.exportedFunction name = .ok f) :
    f ∈ m.functionsOf name := by
  rcases h with h | h
  · exact mem_functionsOf_of_getElem? h
  · exact mem_functionsOf_of_ok h

/-- A name that gives a function is in the map. -/
theorem mem_exportedFunctions {m : Module} {name : String} {f : ExportedFunction}
    (h : f ∈ m.functionsOf name) : name ∈ m.exportedFunctions := by
  rw [Std.TreeMap.mem_iff_isSome_getElem?, getElem?_exportedFunctions,
    List.getLast?_eq_some_getLast (List.ne_nil_of_mem h)]
  rfl

/-- Functions are given under their name, with their signature. -/
theorem of_mem_functionsOf {m : Module} {name : String} {f : ExportedFunction}
    (h : f ∈ m.functionsOf name) : f.name = name ∧
    m.functionType? f.index = some f.type := by
  obtain ⟨e, he, hgiven⟩ := List.mem_filterMap.mp h
  obtain ⟨-, hname, hindex, htype⟩ := given?_eq_some.mp hgiven
  exact ⟨hname.trans (name_of_mem_exportsOf he), hindex ▸ htype⟩

theorem Unambiguous.given?_eq {m : Module} {name : String} (h : m.Unambiguous name)
    {e e' : Export} (he : e ∈ m.exportsOf name) (he' : e' ∈ m.exportsOf name) :
    m.given? e = m.given? e' := by
  obtain ⟨hkind, hindex⟩ := h e he e' he'
  have hname : e.name = e'.name :=
    (name_of_mem_exportsOf he).trans (name_of_mem_exportsOf he').symm
  rw [given?, given?, hkind, hindex, hname]

theorem Unambiguous.lookupsAgree {m : Module} {name : String} (h : m.Unambiguous name) :
    m.LookupsAgree name := by
  rw [lookupsAgree_iff]
  cases hexports : m.exportsOf name with
  | nil => simp [functionsOf, hexports]
  | cons first rest =>
      have hfirst : first ∈ m.exportsOf name := hexports ▸ List.mem_cons_self
      rw [List.head?_cons, Option.bind_some]
      cases hlast : (m.functionsOf name).getLast? with
      | none =>
          cases hgiven : m.given? first with
          | none => rfl
          | some f =>
              have hmem := given?_mem_functionsOf hfirst hgiven
              rw [List.getLast?_eq_none_iff.mp hlast] at hmem
              cases hmem
      | some f =>
          obtain ⟨e, he, hgiven⟩ := List.mem_filterMap.mp (List.mem_of_getLast? hlast)
          rw [h.given?_eq hfirst he, hgiven]

end Module

/-- What the two lookups of an exported function have to do with each other.  They
agree on a name exactly if the last function that its exports give is the one that the
first of them gives, so they do if all exports of the name are of one thing, and then a
call through the map is a call by name.  A function that is found by name is in the
map, under that name if not the same one.  Whatever is found either way is a function
of that name with the signature that is shown. -/
theorem export_lookups_agree_iff (i : Instance ω σ) (name : String) :
    (i.env.module.LookupsAgree name ↔
      (i.env.module.functionsOf name).getLast? =
        (i.env.module.exportsOf name).head?.bind i.env.module.given?) ∧
    (i.env.module.Unambiguous name → i.env.module.LookupsAgree name) ∧
    (i.env.module.LookupsAgree name → ∀ f,
      i.env.module.exportedFunctions[name]? = some f →
      ∀ fuel args, i.callIndex fuel f.index args = i.call fuel name args) ∧
    (∀ f, i.env.module.exportedFunction name = .ok f →
      name ∈ i.env.module.exportedFunctions) ∧
    ∀ f, i.env.module.exportedFunctions[name]? = some f ∨
      i.env.module.exportedFunction name = .ok f →
      f.name = name ∧ i.env.module.functionType? f.index = some f.type := by
  refine ⟨Module.lookupsAgree_iff _ _, Module.Unambiguous.lookupsAgree, ?_, ?_, ?_⟩
  · intro hagree f hf fuel args
    rw [Instance.call, (hagree f).mp hf]
  · intro f hf
    exact Module.mem_exportedFunctions (Module.mem_functionsOf_of_ok hf)
  · intro f hf
    exact Module.of_mem_functionsOf (Module.mem_functionsOf_of_found hf)

namespace ExportsWitness

/-- Two functions that return one and two. -/
def returns (exports : Array Export) : Module where
  types := #[⟨[], [.i32]⟩]
  functions := #[0, 0]
  exports
  codes := #[⟨#[], 0, .scope 0 .block (.func 0) [.plain 1 (.const (.i32 1))] none⟩,
    ⟨#[], 0, .scope 0 .block (.func 0) [.plain 1 (.const (.i32 2))] none⟩]

def instanceOf (exports : Array Export) : Instance Unit Unit where
  env := { module := returns exports, hosts := #[], observer := .silent, maxDepth := 1 }
  world := ⟨.ofModule (returns exports), (), ()⟩

/-- Both functions are exported as `f`. -/
def bytes : List UInt8 :=
  [0x00, 0x61, 0x73, 0x6d, 0x01, 0x00, 0x00, 0x00,
    0x01, 0x05, 0x01, 0x60, 0x00, 0x01, 0x7f,
    0x03, 0x03, 0x02, 0x00, 0x00,
    0x07, 0x09, 0x02, 0x01, 0x66, 0x00, 0x00, 0x01, 0x66, 0x00, 0x01,
    0x0a, 0x0b, 0x02, 0x04, 0x00, 0x41, 0x01, 0x0b, 0x04, 0x00, 0x41, 0x02, 0x0b]

def both : Array Export :=
  #[⟨"f", .function, 0⟩, ⟨"f", .function, 1⟩]

theorem decode_bytes : Module.decode 0 bytes.toArray = .ok (returns both) := by
  with_unfolding_all rfl

theorem create_both :
    Instance.create (returns both) {} 1 .silent () () = .ok (instanceOf both) := by
  with_unfolding_all rfl

/-- A name that is exported twice: the call by name runs the first function, the map
has the second. -/
theorem repeated_export_differs :
    Module.decode 0 bytes.toArray = .ok (returns both) ∧
    Instance.create (returns both) {} 1 .silent () () = .ok (instanceOf both) ∧
    (returns both).exportedFunction "f" = .ok ⟨"f", 0, ⟨[], [.i32]⟩⟩ ∧
    (returns both).exportedFunctions["f"]? = some ⟨"f", 1, ⟨[], [.i32]⟩⟩ ∧
    ((instanceOf both).call 5 "f" []).1 = .ok [.i32 1] ∧
    ((instanceOf both).callIndex 5 1 []).1 = .ok [.i32 2] := by
  refine ⟨decode_bytes, create_both, rfl, ?_, ?_, ?_⟩
  · rw [Module.getElem?_exportedFunctions]
    rfl
  · with_unfolding_all rfl
  · with_unfolding_all rfl

/-- The first function exported twice, beside a memory. -/
def same : Array Export :=
  #[⟨"f", .function, 0⟩, ⟨"m", .memory, 0⟩, ⟨"f", .function, 0⟩]

theorem repeated_same_agrees :
    (returns same).Unambiguous "f" ∧ (returns same).LookupsAgree "f" ∧
    (returns same).exportedFunctions["f"]? = some ⟨"f", 0, ⟨[], [.i32]⟩⟩ ∧
    (instanceOf same).callIndex 5 0 [] = (instanceOf same).call 5 "f" [] := by
  obtain ⟨-, hagree, hcall, -⟩ := export_lookups_agree_iff (instanceOf same) "f"
  have hsame : (returns same).Unambiguous "f" := by
    have hexports : (returns same).exportsOf "f" =
        [⟨"f", .function, 0⟩, ⟨"f", .function, 0⟩] := by
      decide
    rw [Module.Unambiguous, hexports]
    simp
  have hfound : (returns same).exportedFunctions["f"]? = some ⟨"f", 0, ⟨[], [.i32]⟩⟩ :=
    (hagree hsame _).mpr rfl
  exact ⟨hsame, hagree hsame, hfound, hcall (hagree hsame) _ hfound 5 []⟩

end ExportsWitness

end WasmVm
