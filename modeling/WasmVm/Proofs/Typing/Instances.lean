/-
Instances start out typed.  Linking compares the type of every global it is given
with the import's, and a debugger stops a run in its own name only, so an instance
meets what a sound run starts from.
-/
import WasmVm.Debugger.Session
import WasmVm.Instance
import WasmVm.Proofs.Typing.Soundness

namespace WasmVm

variable {ω σ : Type} {m : Module}

/-- Globals linked so far: one for each import of a global among `seen`, and a value
only of the type that the import asks for. -/
def Linking.Typed (seen : List Import) (l : Linking ω) : Prop :=
  l.globals.size = (seen.filterMap fun i => i.kind.globalType?).length ∧
    ∀ (index : Nat) (v : Value), l.globals[index]? = some (.ready v) →
      (seen.filterMap fun i => i.kind.globalType?)[index]? = some v.type

/-- Binding one more global keeps the linking typed, if its value has the type. -/
theorem Linking.Typed.push {seen : List Import} {l : Linking ω}
    {i : Import} {t : ValType}
    {state : GlobalState} {offered : Imports ω} (h : l.Typed seen)
    (hkind : i.kind.globalType? = some t) (hstate : ∀ v,
      state = .ready v → v.type = t) :
    Linking.Typed (seen ++ [i])
      { l with globals := l.globals.push state, offered } := by
  obtain ⟨hsize, hready⟩ := h
  rw [Linking.Typed, List.filterMap_append]
  simp only [List.filterMap_cons, List.filterMap_nil, hkind]
  refine ⟨by simp [hsize], ?_⟩
  intro index v hget
  rw [Array.getElem?_push] at hget
  split at hget
  · rename_i hindex
    rw [hindex, hsize, List.getElem?_concat_length, hstate v (Option.some.inj hget)]
  · have hlt : index < l.globals.size := (Array.getElem?_eq_some_iff.1 hget).1
    rw [List.getElem?_append_left (by omega)]
    exact hready index v hget

theorem Linking.bind_typed {seen : List Import} {l l' : Linking ω} {i : Import}
    (h : l.Typed seen) (hbind : l.bind i = .ok l') : l'.Typed (seen ++ [i]) := by
  have hother : i.kind.globalType? = none → l'.globals = l.globals →
      l'.Typed (seen ++ [i]) := by
    intro hkind hglobals
    rw [Linking.Typed, hglobals, List.filterMap_append]
    simpa [Linking.Typed, hkind] using h
  unfold Linking.bind at hbind
  split at hbind
  · rename_i typeIndex hkind
    cases hbind
    exact hother (by simp [hkind, ImportKind.globalType?]) rfl
  · rename_i t isMutable hkind
    have htype : i.kind.globalType? = some t := by simp [hkind, ImportKind.globalType?]
    dsimp only at hbind
    split at hbind
    · cases hbind
      exact h.push htype (by simp)
    · split at hbind
      · rename_i hv
        cases hbind
        apply h.push htype
        rintro _ ⟨⟩
        exact hv
      · cases hbind
  · rename_i hfunction hglobal
    cases hbind
    refine hother ?_ rfl
    cases hkind : i.kind <;> simp_all [ImportKind.globalType?]

theorem Linking.foldlM_typed {rest seen : List Import} {l l' : Linking ω}
    (h : l.Typed seen)
    (hfold : rest.foldlM Linking.bind l = .ok l') : l'.Typed (seen ++ rest) := by
  induction rest generalizing seen l with
  | nil =>
      cases hfold
      simpa using h
  | cons i rest ih =>
      rw [List.foldlM_cons] at hfold
      cases hbind : l.bind i with
      | error t =>
          rw [hbind] at hfold
          cases hfold
      | ok next =>
          rw [hbind] at hfold
          simpa using ih (Linking.bind_typed h hbind) hfold

/-- What an instance is made of: what linking leaves, and memory with the active
segments. -/
theorem Instance.create_eq {offered : Imports ω} {maxDepth : Nat}
    {observer : Observer σ} {host : ω} {watch : σ} {i : Instance ω σ}
    (h : Instance.create m offered maxDepth observer host watch = .ok i) :
    ∃ (linking : Linking ω) (memory : Option Memory),
      m.imports.toList.foldlM Linking.bind { offered } = .ok linking ∧
      writeActive 0 m.segments.toList (Store.ofModule m).memory = .ok memory ∧
      i = {
        env := { module := m, hosts := linking.hosts, observer, maxDepth }
        world := ⟨⟨linking.globals ++ m.globals.map fun _ => .pending, memory,
          (Store.ofModule m).segments⟩, host, watch⟩ } := by
  unfold Instance.create at h
  cases hfold : m.imports.toList.foldlM Linking.bind { offered } with
  | error t => simp [hfold, bind, Except.bind] at h
  | ok linking =>
      cases hwrite : writeActive 0 m.segments.toList (Store.ofModule m).memory with
      | error t => simp [hfold, hwrite, bind, Except.bind] at h
      | ok memory =>
          simp only [hfold, hwrite, bind, Except.bind, pure, Except.pure,
            Except.ok.injEq] at h
          exact ⟨linking, memory, rfl, rfl, h.symm⟩

/-- A fresh instance has no global with a value of a wrong type. -/
theorem Instance.create_typed {offered : Imports ω} {maxDepth : Nat}
    {observer : Observer σ} {host : ω} {watch : σ} {i : Instance ω σ}
    (h : Instance.create m offered maxDepth observer host watch = .ok i) :
    i.env.module = m ∧ i.world.store.Typed m := by
  obtain ⟨linking, memory, hfold, -, rfl⟩ := create_eq h
  have hstart : Linking.Typed [] ({ offered } : Linking ω) := ⟨rfl, by simp⟩
  have hlinking := Linking.foldlM_typed hstart hfold
  refine ⟨rfl, ?_⟩
  intro index v hget
  dsimp only at hget
  rw [Array.getElem?_append] at hget
  split at hget
  · have himport := hlinking.2 index v hget
    rw [Module.globalType?, Module.globalImports]
    simp only [List.nil_append] at himport
    rw [himport]
  · simp at hget

/-- A controller can only quit, which is no fault of the program. -/
theorem Debugger.ask_fair {κ : Type} (c : Controller κ) (line : Nat) (v : View)
    (d : Debugger κ) (e : Error) (h : (d.ask m c line v).1 = .error e) : ¬ e.Stuck := by
  fun_induction Debugger.ask m c line v d with
  | case1 d target controller hcommand ih => exact ih h
  | case6 d controller hcommand =>
      cases h
      simp [Error.Stuck, Trap.Stuck, Trap.code]
  | _ => cases h

theorem Debugger.observer_fair {κ : Type} (c : Controller κ) :
    (Debugger.observer m c).Fair := by
  intro view d e h
  simp only [Debugger.observer, Debugger.step] at h
  split at h
  · split at h
    · cases h
    · split at h
      · exact Debugger.ask_fair c _ _ _ e h
      · cases h
  · cases h

end WasmVm
