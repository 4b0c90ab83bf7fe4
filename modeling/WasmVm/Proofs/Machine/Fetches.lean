/-
What runs can fetch.  A scope runs the nodes inside a node that was fetched before it,
and nothing ever goes on with the handlers of a `try`; so every node that a run comes
to lies in a body of the module, and outside all handlers.
-/
import WasmVm.Proofs.Decoding.Origins
import WasmVm.Proofs.Machine.Calls

namespace WasmVm

variable {ω σ : Type}

/-- A node that a run of a body may come to: one of the body itself, or one inside a
scope that it may come to.  Of what follows the first part of a scope only an `else` is
entered. -/
inductive Node.Reaches (root : Node) : Node → Prop
  | top {n} (hn : n ∈ root.body) : Reaches root n
  | inner {outer n} (houter : Reaches root outer) (hn : n ∈ outer.body) : Reaches root n
  | other {id type body alternative n}
      (houter : Reaches root (.scope id .ifThen type body (some alternative)))
      (hn : n ∈ alternative) : Reaches root n

/-! ### Nodes of bodies -/

theorem Node.Contains.trans {a b c : Node} (h : a.Contains b) (h' : b.Contains c) :
    a.Contains c := by
  induction h with
  | self => exact h'
  | body hchild _ ih => exact .body hchild (ih h')
  | alternative hchild _ ih => exact .alternative hchild (ih h')

theorem Node.contains_of_mem_body {root child : Node} (h : child ∈ root.body) :
    root.Contains child := by
  cases root with
  | plain => cases h
  | scope => exact .body h .self

namespace Node.Reaches

variable {root n : Node}

theorem exists_child (h : root.Reaches n) : ∃ child ∈ root.body, child.Contains n := by
  induction h with
  | top hn => exact ⟨_, hn, .self⟩
  | inner _ hn ih =>
      obtain ⟨child, hchild, hcontains⟩ := ih
      exact ⟨child, hchild, hcontains.trans (Node.contains_of_mem_body hn)⟩
  | other _ hn ih =>
      obtain ⟨child, hchild, hcontains⟩ := ih
      exact ⟨child, hchild, hcontains.trans (.alternative hn .self)⟩

theorem contains (h : root.Reaches n) : root.Contains n := by
  obtain ⟨child, hchild, hcontains⟩ := h.exists_child
  exact (Node.contains_of_mem_body hchild).trans hcontains

/-- Outside of handlers the only mark is that of a `delegate`, which ends its `try`. -/
theorem nested (h : root.Reaches n) (hroot : ∀ n ∈ root.body, n.Nested) :
    n.Nested ∨ ∃ id depth, n = .plain id (.delegate depth) := by
  induction h with
  | top hn => exact .inl (hroot _ hn)
  | @inner outer n _ hn ih =>
      cases outer with
      | plain => cases hn
      | scope =>
          have houter := ih.resolve_right (by rintro ⟨_, _, ⟨⟩⟩)
          exact houter.mem_body n hn
  | @other id type body alternative n _ hn ih =>
      have houter := ih.resolve_right (by rintro ⟨_, _, ⟨⟩⟩)
      exact .inl (houter.body_of_ifElse.2 n hn)

end Node.Reaches

/-- A node that some run of the module may come to. -/
def Module.CanFetch (m : Module) (n : Node) : Prop :=
  ∃ root, m.HasBody root ∧ root.Reaches n

namespace Module.CanFetch

variable {m : Module} {n : Node}

/-- It was read as one instruction with its operands, and marks no handler. -/
theorem encodes (h : m.CanFetch n) (hm : m.BodiesRead) :
    (∃ m₀ bytes, m₀.Precedes m ∧ n.item.Encodes m₀ bytes) ∧
      (n.Nested ∨ ∃ id depth, n = .plain id (.delegate depth)) := by
  obtain ⟨root, hroot, hreaches⟩ := h
  obtain ⟨type, bytes, m₀, hbefore, items, nodes, hderives, heach, rfl⟩ := hm.read hroot
  refine ⟨?_, hreaches.nested fun n hn => ?_⟩
  · obtain ⟨child, hchild, hcontains⟩ := hreaches.exists_child
    have hitem := List.mem_append_left [.close] (hderives.item_mem hchild hcontains)
    obtain ⟨front, hfront⟩ := heach.exists_of_mem _ hitem
    exact ⟨m₀, front, hbefore, hfront⟩
  · have hmark := hderives.isMark_eq_false (by decide) n hn
    exact hderives.nested n hn (Node.isCatch_eq_false hmark)

/-- The call of an import carries what the module says of it. -/
theorem callTarget?_eq {id : Nat} {target : CallTarget}
    (h : m.CanFetch (.plain id (.call target))) (hm : m.BodiesRead)
    (hsource : target.source.isSome) : m.callTarget? target.function = some target := by
  obtain ⟨root, hroot, hreaches⟩ := h
  exact hm.callTarget?_eq hroot hreaches.contains hsource

end Module.CanFetch

/-! ### Scopes -/

/-- What holds of a scope holds of the nodes that are run inside it. -/
structure Inherited (P : Node → Prop) : Prop where
  body : ∀ {id kind type body alternative}, P (.scope id kind type body alternative) →
    ∀ n ∈ body, P n
  other : ∀ {id type body other}, P (.scope id .ifThen type body (some other)) →
    ∀ n ∈ other, P n

theorem Module.CanFetch.inherited (m : Module) : Inherited m.CanFetch where
  body := by
    rintro id kind type body alternative ⟨root, hroot, hreaches⟩ n hn
    exact ⟨root, hroot, .inner hreaches hn⟩
  other := by
    rintro id type body other ⟨root, hroot, hreaches⟩ n hn
    exact ⟨root, hroot, .other hreaches hn⟩

/-- A scope goes on with nodes of a kind, and a loop also starts again with such. -/
structure Scope.Within (P : Node → Prop) (scope : Scope) : Prop where
  rest : ∀ n ∈ scope.rest, P n
  again : scope.isLoop = true → ∀ n ∈ scope.body, P n

/-- Whatever a node decides, the scopes go on with nodes of the kind. -/
theorem Moves.within {P : Node → Prop} (hP : Inherited P) {node : Node}
    {decision : Decision} {scopes scopes' : List Scope}
    (h : Moves node decision scopes scopes') (hnode : P node)
    (hscopes : ∀ scope ∈ scopes, scope.Within P) :
    ∀ scope ∈ scopes', scope.Within P := by
  cases h with
  | plain | skip => exact hscopes
  | leave => exact fun _ hscope => absurd hscope List.not_mem_nil
  | enter hrest hbody hloop =>
      refine List.forall_mem_cons.mpr ⟨⟨?_, fun _ => ?_⟩, hscopes⟩
      · rw [hrest]
        exact hP.body hnode
      · rw [hbody]
        exact hP.body hnode
  | other hrest hloop =>
      refine List.forall_mem_cons.mpr ⟨⟨?_, fun hagain => ?_⟩, hscopes⟩
      · rw [hrest]
        exact hP.other hnode
      · rw [hloop] at hagain
        cases hagain
  | @branch _ depth _ outer scope hdrop =>
      have hleft : ∀ inner ∈ scope :: outer, inner.Within P := by
        intro inner hinner
        rw [← hdrop] at hinner
        exact hscopes inner (List.mem_of_mem_drop hinner)
      obtain ⟨hscope, houter⟩ := List.forall_mem_cons.mp hleft
      split
      · next hloop =>
          exact List.forall_mem_cons.mpr ⟨⟨hscope.again hloop, hscope.again⟩, houter⟩
      · exact houter

/-- A frame goes on, past the node that it fetches, as it stood. -/
theorem Frame.fetch?_within {P : Node → Prop} {f g : Frame} {node : Node}
    (hf : ∀ scope ∈ f.scopes, scope.Within P) (h : f.fetch? = some (node, g)) :
    P node ∧ ∀ scope ∈ g.scopes, scope.Within P := by
  obtain ⟨scope, outer, rest, hscopes, hrest, rfl⟩ := Frame.fetch?_eq_some h
  rw [hscopes] at hf
  obtain ⟨hscope, houter⟩ := List.forall_mem_cons.mp hf
  have hnodes := hscope.rest
  rw [hrest] at hnodes
  obtain ⟨hnode, hlater⟩ := List.forall_mem_cons.mp hnodes
  exact ⟨hnode, List.forall_mem_cons.mpr ⟨⟨hlater, hscope.again⟩, houter⟩⟩

/-- A frame before the first instruction of a body is within the module. -/
theorem Frame.ofBody_within {m : Module} {root : Node}
    (hroot : m.HasBody root) (owner : Owner) (locals : Array Value)
    (results : Option Nat) :
    ∀ scope ∈ (Frame.ofBody m owner root locals results).scopes,
      scope.Within m.CanFetch := by
  intro scope hscope
  obtain rfl := List.mem_singleton.mp hscope
  exact ⟨fun n hn => ⟨root, hroot, .top hn⟩, fun hloop => by cases hloop⟩

/-! ### Runs -/

namespace State

variable {env : Env ω σ} {s s' : State ω σ}

/-- All frames are within the module. -/
def Within (env : Env ω σ) (s : State ω σ) : Prop :=
  ∀ scopes ∈ s.control, ∀ scope ∈ scopes, scope.Within env.module.CanFetch

theorem Within.fetches {node : Node} {f : Frame} (h : s.Within env)
    (hfetch : s.calls.top.fetch? = some (node, f)) :
    env.module.CanFetch node ∧ ∀ scope ∈ f.scopes, scope.Within env.module.CanFetch :=
  Frame.fetch?_within (h s.calls.top.scopes List.mem_cons_self) hfetch

theorem Within.canFetch {node : Node} {f : Frame} (h : s.Within env)
    (hfetch : s.calls.top.fetch? = some (node, f)) : env.module.CanFetch node :=
  (h.fetches hfetch).1

theorem Provides.within {m : Module} {action : Action} {callee : Frame}
    (h : Provides m action callee) : ∀ scope ∈ callee.scopes,
      scope.Within m.CanFetch := by
  cases h with
  | function hcallee =>
      unfold Frame.ofFunction at hcallee
      split at hcallee
      · cases hcallee
      · next code hcode =>
          cases hcallee
          exact Frame.ofBody_within (Module.hasBody_of_code? hcode) _ _ _
  | initializer hcallee =>
      obtain ⟨body, hbody, rfl⟩ := Frame.ofGlobal_eq_ok hcallee
      exact Frame.ofBody_within (Module.hasBody_of_initializer? hbody) _ _ _

/-- A step stays within the module. -/
theorem Within.advance (h : s.Within env) (hadvance : s.advance env = .running s') :
    s'.Within env := by
  have htail : ∀ scopes ∈ s.control.tail, ∀ scope ∈ scopes,
      scope.Within env.module.CanFetch :=
    fun scopes hscopes => h scopes (List.mem_of_mem_tail hscopes)
  unfold Within
  rcases advance_control hadvance with ⟨-, hcontrol⟩ |
    ⟨scope, outer, hscopes, -, hcontrol⟩ |
    ⟨node, f, g, action, hfetch, hexecute, hcontrol⟩
  · rw [hcontrol]
    exact htail
  · rw [hcontrol]
    refine List.forall_mem_cons.mpr ⟨fun inner hinner => ?_, htail⟩
    apply h s.calls.top.scopes List.mem_cons_self
    rw [hscopes]
    exact List.mem_cons_of_mem scope hinner
  · obtain ⟨hnode, hf⟩ := h.fetches hfetch
    have hg := (Frame.execute_moves hexecute).within
      (Module.CanFetch.inherited _) hnode hf
    rcases hcontrol with hcontrol | ⟨callee, hcallee, -, hcontrol⟩
    · rw [hcontrol]
      exact List.forall_mem_cons.mpr ⟨hg, htail⟩
    · rw [hcontrol]
      exact List.forall_mem_cons.mpr ⟨hcallee.within,
        List.forall_mem_cons.mpr ⟨hg, htail⟩⟩

theorem Runs.within {log : List Event} (h : Runs env s log s') (hs : s.Within env) :
    s'.Within env := by
  induction h with
  | start => exact hs
  | step _ hadvance ih => exact ih.advance hadvance

end State

/-- A run starts within the module, and so it stays there. -/
theorem Operation.runs_within {env : Env ω σ} (hm : env.module.InRange)
    (hsize : env.module.codes.size = env.module.functions.size) {w : World ω σ}
    {op : Operation}
    {s t : State ω σ} {log : List Event} (hstart : op.start env w = .running s)
    (hruns : State.Runs env s log t) : t.Within env := by
  obtain ⟨henters, hcallers⟩ := Operation.start_enters hm hsize hstart
  refine hruns.within ?_
  rw [State.Within, State.control_eq, hcallers]
  refine List.forall_mem_cons.mpr ⟨?_, fun _ hscopes => absurd hscopes List.not_mem_nil⟩
  cases op with
  | invoke function args =>
      obtain ⟨code, type, hbegins⟩ := henters
      rw [hbegins.scopes]
      exact Frame.ofBody_within (Module.hasBody_of_code? hbegins.code_eq)
        s.calls.top.owner s.calls.top.locals s.calls.top.results
  | readGlobal index =>
      obtain ⟨body, hbody, htop⟩ := henters
      rw [htop]
      exact Frame.ofBody_within (Module.hasBody_of_initializer? hbody) _ _ _

end WasmVm
