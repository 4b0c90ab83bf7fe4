/-
Where the bodies of a decoded module come from.  Each was read whole, by the grammar,
against the module as it stood then; signatures and imports have only been added since.
-/
import WasmVm.Proofs.Decoding.Format
import WasmVm.Proofs.Decoding.Indices

namespace WasmVm

/-- A module at an earlier point of its decoding. -/
structure Module.Precedes (m₀ m : Module) : Prop where
  types : ∃ more, m.types = m₀.types ++ more
  imports : ∃ more, m.imports = m₀.imports ++ more

namespace Module.Precedes

variable {m₀ m m' : Module}

theorem refl (m : Module) : m.Precedes m :=
  ⟨⟨#[], by simp⟩, ⟨#[], by simp⟩⟩

theorem trans (h : m₀.Precedes m) (h' : m.Precedes m') : m₀.Precedes m' := by
  obtain ⟨⟨types, htypes⟩, ⟨imports, himports⟩⟩ := h
  obtain ⟨⟨types', htypes'⟩, ⟨imports', himports'⟩⟩ := h'
  refine ⟨⟨types ++ types', ?_⟩, ⟨imports ++ imports', ?_⟩⟩
  · rw [htypes', htypes, Array.append_assoc]
  · rw [himports', himports, Array.append_assoc]

/-- What was imported under an index still is. -/
theorem functionImport? (h : m₀.Precedes m) {function : Nat} {i : Import}
    (hi : m₀.functionImport? function = some i) :
    m.functionImport? function = some i := by
  obtain ⟨more, himports⟩ := h.imports
  rw [Module.functionImport?, functionImports] at hi ⊢
  rw [himports, Array.toList_append, List.filter_append]
  exact (List.getElem?_append_left (List.getElem?_eq_some_iff.mp hi).1).trans hi

/-- So the call of an import carries what the module says of it in the end. -/
theorem callTarget?_of_source (h : m₀.Precedes m) {function : Nat} {target : CallTarget}
    (htarget : m₀.callTarget? function = some target) (hsource : target.source.isSome) :
    m.callTarget? function = some target := by
  obtain ⟨more, htypes⟩ := h.types
  unfold callTarget? at htarget ⊢
  obtain ⟨typeIndex, hindex, htarget⟩ := Option.bind_eq_some_iff.mp htarget
  obtain ⟨type, htype, htarget⟩ := Option.bind_eq_some_iff.mp htarget
  cases htarget
  obtain ⟨i, hi⟩ : ∃ i, m₀.functionImport? function = some i := by
    rw [Option.isSome_map] at hsource
    exact Option.isSome_iff_exists.mp hsource
  have hi' := h.functionImport? hi
  have htype' : m.types[typeIndex]? = some type := by
    rw [htypes, Array.getElem?_append_left (Array.getElem?_eq_some_iff.mp htype).1,
      htype]
  rw [functionTypeIndex?, hi] at hindex
  rw [functionTypeIndex?, hi', hi]
  simp only [hindex, Option.bind_eq_bind, Option.bind_some, htype']
  rfl

end Module.Precedes

/-- A body of the module, read from these bytes when the module was not complete yet. -/
def Module.ReadBody (m : Module) (type : BlockType) (root : Node) (bytes : List UInt8) :
    Prop :=
  ∃ m₀, Precedes m₀ m ∧ BodyEncodes m₀ type root bytes

theorem Module.ReadBody.later {m m' : Module} {type : BlockType} {root : Node}
    {bytes : List UInt8} (h : m.ReadBody type root bytes) (hlater : m.Precedes m') :
    m'.ReadBody type root bytes := by
  obtain ⟨m₀, hbefore, hbody⟩ := h
  exact ⟨m₀, hbefore.trans hlater, hbody⟩

/-- Every body of a module has been read, an initializer from the bytes that are kept.
-/
structure Module.BodiesRead (m : Module) : Prop where
  codes : ∀ code ∈ m.codes, ∃ typeIndex bytes,
    m.ReadBody (.func typeIndex) code.body bytes
  globals : ∀ g ∈ m.globals, m.ReadBody (.value g.type) g.body g.init

theorem Module.BodiesRead.codes_later {m m' : Module} (hm : m.BodiesRead)
    (h : m.Precedes m') :
    ∀ code ∈ m.codes, ∃ typeIndex bytes,
      m'.ReadBody (.func typeIndex) code.body bytes := by
  intro code hcode
  obtain ⟨typeIndex, bytes, hbody⟩ := hm.codes code hcode
  exact ⟨typeIndex, bytes, hbody.later h⟩

theorem Module.BodiesRead.globals_later {m m' : Module} (hm : m.BodiesRead)
    (h : m.Precedes m') :
    ∀ g ∈ m.globals, m'.ReadBody (.value g.type) g.body g.init :=
  fun g hg => (hm.globals g hg).later h

/-- An initializer is read from the bytes that are kept. -/
theorem Reading.global_encodes_init (m : Module) :
    Yields (fun g => BodyEncodes m (.value g.type) g.body g.init)
      (Reading.global m) := by
  refine .bind_any fun type => .bind_any fun isMutable => ?_
  intro c g c' h
  rw [EStateM.get_bind] at h
  obtain ⟨root, mid, hread, hrest⟩ := EStateM.bind_eq_ok h
  obtain ⟨bytes, hbytes, hahead, rfl⟩ := (Reading.body_reads m _ _ c root mid).mp hread
  rw [EStateM.get_bind] at hrest
  cases hrest
  rw [Cursor.since_advance hahead]
  exact hbytes

namespace Decoding

variable {evaluate : List UInt8 → Except Halt Value} {id : UInt8} {m m' : Module}

/-- Every section only adds signatures and imports. -/
theorem Contributes.precedes (h : Contributes evaluate id m m') : m.Precedes m' := by
  by_cases hid : id = 2
  · subst hid
    cases h with
    | known hreader hread =>
        cases hreader
        refine entries_keep (P := m.Precedes) (fun turn m' hm' => ?_)
          (.refl m) _ _ _ hread
        refine .bind_any fun i => .pure (hm'.trans ⟨⟨#[], by simp⟩, ⟨#[i], ?_⟩⟩)
        exact Array.push_eq_append
    | skipped hreader => cases hreader
  · exact ⟨h.grows.types, #[], by simp [h.grows.imports hid]⟩

theorem globals_bodiesRead (hm : m.BodiesRead) :
    Yields Module.BodiesRead (globals m) := by
  refine entries_keep (fun turn m hm => ?_) hm
  refine (yields_lift (Reading.global_encodes_init m)).bind fun g hg => .pure ?_
  have hsame : m.Precedes { m with globals := m.globals.push g } :=
    { Module.Precedes.refl m with }
  exact ⟨hm.codes_later hsame, forall_mem_push (hm.globals_later hsame) ⟨m, hsame, hg⟩⟩

theorem codes_bodiesRead (hm : m.BodiesRead) : Yields Module.BodiesRead (codes m) := by
  refine .bind_any fun count => ?_
  split
  · rintro c m' c' ⟨⟩
  · refine forRange_yields (P := fun _ => Module.BodiesRead)
      (fun turn m hm => ?_) count 0 hm
    intro c m' c' hread
    obtain ⟨code, typeIndex, type, rfl, -, -, -, bytes, hbytes⟩ :=
      code_yields turn m c m' c' hread
    have hsame : m.Precedes { m with codes := m.codes.push code } :=
      { Module.Precedes.refl m with }
    have hcode : ∃ typeIndex bytes,
        Module.ReadBody { m with codes := m.codes.push code }
          (.func typeIndex) code.body bytes :=
      ⟨typeIndex, bytes, m, hsame, hbytes⟩
    exact ⟨forall_mem_push (hm.codes_later hsame) hcode, hm.globals_later hsame⟩

/-- A section keeps the bodies that are there, and reads its own by the grammar. -/
theorem Contributes.bodiesRead (h : Contributes evaluate id m m') (hm : m.BodiesRead) :
    m'.BodiesRead := by
  by_cases hglobals : id = 6
  · subst hglobals
    cases h with
    | known hreader hread =>
        cases hreader
        exact globals_bodiesRead hm _ _ _ hread
    | skipped hreader => cases hreader
  by_cases hcodes : id = 10
  · subst hcodes
    cases h with
    | known hreader hread =>
        cases hreader
        exact codes_bodiesRead hm _ _ _ hread
    | skipped hreader => cases hreader
  · refine ⟨?_, ?_⟩
    · rw [h.grows.codes hcodes]
      exact hm.codes_later h.precedes
    · rw [h.grows.globals hglobals]
      exact hm.globals_later h.precedes

end Decoding

namespace Module

variable {m : Module} {root : Node}

theorem decodeWith_bodiesRead {evaluate : List UInt8 → Except Halt Value}
    {bytes : Array UInt8} (h : decodeWith evaluate bytes = .ok m) : m.BodiesRead := by
  have hstart : BodiesRead {} := ⟨by simp, by simp⟩
  exact (decodeWith_induction (I := fun _ => BodiesRead) h hstart fun hm hsection =>
    hsection.bodiesRead hm).1

/-- A body that can be run: that of a function or of an initializer. -/
def HasBody (m : Module) (root : Node) : Prop :=
  (∃ code ∈ m.codes, code.body = root) ∨ ∃ g ∈ m.globals, g.body = root

theorem BodiesRead.read (hm : m.BodiesRead) (hroot : m.HasBody root) :
    ∃ type bytes, m.ReadBody type root bytes := by
  rcases hroot with ⟨code, hcode, rfl⟩ | ⟨g, hg, rfl⟩
  · obtain ⟨typeIndex, bytes, hbody⟩ := hm.codes code hcode
    exact ⟨_, bytes, hbody⟩
  · exact ⟨_, g.init, hm.globals g hg⟩

/-- Wherever the call of an import stands, it carries what the whole module says of it.
-/
theorem BodiesRead.callTarget?_eq (hm : m.BodiesRead)
    (hroot : m.HasBody root) {id : Nat}
    {target : CallTarget} (hcall : root.Contains (.plain id (.call target)))
    (hsource : target.source.isSome) : m.callTarget? target.function = some target := by
  obtain ⟨type, bytes, m₀, hbefore, hbody⟩ := hm.read hroot
  exact hbefore.callTarget?_of_source (hbody.resolved id target hcall) hsource

theorem hasBody_of_code? {function : Nat} {code : Code}
    (h : m.code? function = some code) :
    m.HasBody code.body := by
  unfold code? at h
  split at h
  · cases h
  · exact .inl ⟨code, Array.mem_of_getElem? h, rfl⟩

theorem hasBody_of_initializer? {index : Nat} (h : m.initializer? index = some root) :
    m.HasBody root := by
  unfold initializer? at h
  split at h
  · cases h
  · obtain ⟨g, hg, rfl⟩ := Option.map_eq_some_iff.mp h
    exact .inr ⟨g, Array.mem_of_getElem? hg, rfl⟩

end Module

end WasmVm
