/-
Runs without loops end.  Where no body has a loop, an instruction only ever takes from
what its frame has left to run, and a callee starts with no more than all bodies
together.  Since frames do not pile up without end, every step makes a number smaller
in which a frame counts for more than all those that may come to lie on top of it.
-/
import WasmVm.Proofs.Control.Simulation
import WasmVm.Proofs.Decoding.Consistency

namespace WasmVm

/-! ### Bodies -/

/-- There is no loop anywhere in the body. -/
def Node.LoopFree (root : Node) : Prop :=
  ∀ n, root.Contains n → n.opcode ≠ .loop

/-- No function and no initializer has a loop. -/
structure Module.LoopFree (m : Module) : Prop where
  codes : ∀ code ∈ m.codes, code.body.LoopFree
  globals : ∀ g ∈ m.globals, g.body.LoopFree

namespace Node.LoopFree

theorem kind_ne {id : Nat} {kind : ScopeKind} {type : BlockType} {body : List Node}
    {alternative : Option (List Node)}
    (h : (Node.scope id kind type body alternative).LoopFree) : kind ≠ .loop := by
  rintro rfl
  exact h _ .self rfl

theorem body {root : Node} (h : root.LoopFree) : ∀ n ∈ root.body, n.LoopFree := by
  intro n hn inner hinner
  cases root with
  | plain => cases hn
  | scope => exact h inner (.body hn hinner)

theorem alternative {id : Nat} {kind : ScopeKind} {type : BlockType}
    {body other : List Node}
    (h : (Node.scope id kind type body (some other)).LoopFree) :
    ∀ n ∈ other, n.LoopFree :=
  fun _ hn inner hinner => h inner (.alternative hn hinner)

end Node.LoopFree

mutual

/-- A bound on the steps that a node takes, calls and repetitions aside. -/
def Node.weight : Node → Nat
  | .plain .. => 1
  | .scope _ _ _ body alternative =>
    2 + weightAll body + (match alternative with
      | none => 0
      | some nodes => weightAll nodes)
termination_by structural node => node

/-- The weight of a run of nodes. -/
def weightAll : List Node → Nat
  | [] => 0
  | node :: nodes => node.weight + weightAll nodes
termination_by structural nodes => nodes

end

theorem Node.weight_scope (id : Nat) (kind : ScopeKind) (type : BlockType)
    (body : List Node) (alternative : Option (List Node)) :
    (Node.scope id kind type body alternative).weight =
      2 + weightAll body + alternative.elim 0 weightAll := by
  cases alternative <;> rfl

theorem weight_le_weightAll {node : Node} {nodes : List Node} (h : node ∈ nodes) :
    node.weight ≤ weightAll nodes := by
  induction nodes with
  | nil => cases h
  | cons first nodes ih =>
      rw [weightAll]
      rcases List.mem_cons.mp h with rfl | h
      · exact Nat.le_add_right _ _
      · exact Nat.le_trans (ih h) (Nat.le_add_left _ _)

theorem weightAll_body_lt (root : Node) : weightAll root.body < root.weight := by
  cases root with
  | plain => exact Nat.zero_lt_one
  | scope =>
      rw [Node.weight_scope, Node.body]
      omega

/-- The weight of all bodies together. -/
def Module.weight (m : Module) : Nat :=
  weightAll (m.codes.toList.map (·.body)) + weightAll (m.globals.toList.map (·.body))

/-! ### Frames -/

/-- A scope that is passed through once. -/
structure Scope.Straight (scope : Scope) : Prop where
  isLoop : scope.isLoop = false
  rest : ∀ n ∈ scope.rest, n.LoopFree

/-- How much a frame with these scopes has left to run. -/
def workLeft : List Scope → Nat
  | [] => 1
  | scope :: scopes => 1 + weightAll scope.rest + workLeft scopes

theorem workLeft_pos (scopes : List Scope) : 0 < workLeft scopes := by
  cases scopes with
  | nil => exact Nat.zero_lt_one
  | cons scope scopes =>
      rw [workLeft]
      omega

theorem workLeft_drop_le (scopes : List Scope) (depth : Nat) :
    workLeft (scopes.drop depth) ≤ workLeft scopes := by
  induction scopes generalizing depth with
  | nil => simp
  | cons scope scopes ih =>
      cases depth with
      | zero => exact Nat.le_refl _
      | succ depth => exact Nat.le_trans (ih depth) (Nat.le_add_left _ _)

/-- An instruction adds less to what is left than its own weight. -/
theorem Moves.workLeft_lt {node : Node} {decision : Decision}
    {scopes scopes' : List Scope}
    (h : Moves node decision scopes scopes') (hnode : node.LoopFree)
    (hscopes : ∀ scope ∈ scopes, scope.Straight) :
    workLeft scopes' < workLeft scopes + node.weight ∧ ∀ scope ∈ scopes',
      scope.Straight := by
  have hweight : 0 < node.weight := Nat.zero_lt_of_lt (weightAll_body_lt node)
  cases h with
  | plain | skip => exact ⟨by omega, hscopes⟩
  | @enter id kind type body alternative scopes scope hrest hbody hloop =>
      refine ⟨?_, List.forall_mem_cons.mpr ⟨⟨?_, ?_⟩, hscopes⟩⟩
      · rw [workLeft, hrest, Node.weight_scope]
        omega
      · rw [hloop, beq_eq_false_iff_ne]
        exact hnode.kind_ne
      · exact hrest ▸ Node.LoopFree.body hnode
  | @other id type body other scopes scope hrest hloop =>
      refine ⟨?_, List.forall_mem_cons.mpr ⟨⟨hloop, ?_⟩, hscopes⟩⟩
      · rw [workLeft, hrest, Node.weight_scope, Option.elim]
        omega
      · exact hrest ▸ Node.LoopFree.alternative hnode
  | @branch _ depth _ outer scope hdrop =>
      have hmem {inner : Scope} (hinner : inner ∈ scope :: outer) : inner ∈ scopes :=
        List.mem_of_mem_drop (hdrop ▸ hinner)
      have hleft := workLeft_drop_le scopes depth
      rw [hdrop, workLeft] at hleft
      -- No scope is a loop, so a branch leaves the one that it goes to.
      rw [(hscopes scope (hmem List.mem_cons_self)).isLoop, if_neg Bool.false_ne_true]
      exact ⟨by omega,
        fun inner hinner => hscopes inner (hmem (List.mem_cons_of_mem _ hinner))⟩
  | leave =>
      have hpos := workLeft_pos scopes
      exact ⟨by rw [workLeft]; omega, nofun⟩

namespace Frame

variable {m : Module} {f : Frame}

/-- Running the next instruction leaves less to run. -/
theorem workLeft_lt_of_execute {g after : Frame} {node : Node}
    {action : Action} {store : Store} (hfetch : f.fetch? = some (node, g))
    (hexecute : g.execute m store node = .ok (after, action))
    (hscopes : ∀ scope ∈ f.scopes, scope.Straight) :
    workLeft after.scopes < workLeft f.scopes ∧ ∀ scope ∈ after.scopes,
      scope.Straight := by
  obtain ⟨scope, outer, rest, hf, hrest, rfl⟩ := fetch?_eq_some hfetch
  rw [hf] at hscopes ⊢
  obtain ⟨hscope, houter⟩ := List.forall_mem_cons.mp hscopes
  have hnodes := hscope.rest
  rw [hrest, List.forall_mem_cons] at hnodes
  have hpast : ∀ s ∈ ({ scope with rest } :: outer : List Scope), s.Straight :=
    List.forall_mem_cons.mpr ⟨⟨hscope.isLoop, hnodes.2⟩, houter⟩
  obtain ⟨hless, hafter⟩ := (execute_moves hexecute).workLeft_lt hnodes.1 hpast
  refine ⟨Nat.lt_of_lt_of_le hless ?_, hafter⟩
  simp only [workLeft, hrest, weightAll]
  omega

/-- A frame before the first instruction of a body without loops. -/
theorem ofBody_straight {root : Node} (hroot : root.LoopFree) (owner : Owner)
    (locals : Array Value) (results : Option Nat) :
    ∀ scope ∈ (ofBody m owner root locals results).scopes, scope.Straight :=
  List.forall_mem_singleton.mpr ⟨rfl, hroot.body⟩

theorem ofBody_workLeft (root : Node) (owner : Owner) (locals : Array Value)
    (results : Option Nat) :
    workLeft (ofBody m owner root locals results).scopes ≤ root.weight + 1 := by
  have hbody := weightAll_body_lt root
  simp only [ofBody, workLeft]
  omega

/-- A function starts straight, with less to run than all bodies have. -/
theorem ofFunction_straight (hm : m.LoopFree) {owner : Owner} {function : Nat}
    {args : List Value} {results : Option Nat}
    (h : ofFunction m owner function args results = .ok f) :
    (∀ scope ∈ f.scopes, scope.Straight) ∧ workLeft f.scopes ≤ m.weight + 1 := by
  unfold ofFunction at h
  split at h
  · cases h
  · next code hcode =>
      cases h
      have hmem : code ∈ m.codes := by
        unfold Module.code? at hcode
        split at hcode
        · cases hcode
        · exact Array.mem_of_getElem? hcode
      have hweight : code.body.weight ≤ weightAll (m.codes.toList.map (·.body)) :=
        weight_le_weightAll (List.mem_map_of_mem (Array.mem_toList_iff.mpr hmem))
      refine ⟨ofBody_straight (hm.codes code hmem) _ _ _, ?_⟩
      refine Nat.le_trans (ofBody_workLeft _ _ _ _) ?_
      unfold Module.weight
      omega

theorem ofGlobal_straight (hm : m.LoopFree) {index : Nat}
    (h : ofGlobal m index = .ok f) :
    (∀ scope ∈ f.scopes, scope.Straight) ∧ workLeft f.scopes ≤ m.weight + 1 := by
  unfold ofGlobal at h
  split at h
  · cases h
  · next body hbody =>
      cases h
      obtain ⟨g, hmem, rfl⟩ : ∃ g ∈ m.globals, g.body = body := by
        unfold Module.initializer? at hbody
        split at hbody
        · cases hbody
        · obtain ⟨g, hg, rfl⟩ := Option.map_eq_some_iff.mp hbody
          exact ⟨g, Array.mem_of_getElem? hg, rfl⟩
      have hweight : g.body.weight ≤ weightAll (m.globals.toList.map (·.body)) :=
        weight_le_weightAll (List.mem_map_of_mem (Array.mem_toList_iff.mpr hmem))
      refine ⟨ofBody_straight (hm.globals g hmem) _ _ _, ?_⟩
      refine Nat.le_trans (ofBody_workLeft _ _ _ _) ?_
      unfold Module.weight
      omega

end Frame

/-! ### Runs -/

/-- The number that every step makes smaller.  What a frame has left counts `base`
times as much as that of the frame on top of it. -/
def potential (base levels : Nat) : List (List Scope) → Nat
  | [] => 0
  | scopes :: callers =>
    workLeft scopes * base ^ (levels - (callers.length + 1)) +
      potential base levels callers

theorem potential_lt_of_workLeft_lt {base levels : Nat} (hbase : 0 < base)
    {scopes scopes' : List Scope} (h : workLeft scopes' < workLeft scopes)
    (callers : List (List Scope)) :
    potential base levels (scopes' :: callers) < potential base levels
      (scopes :: callers) :=
  Nat.add_lt_add_right (Nat.mul_lt_mul_of_pos_right h (Nat.pow_pos hbase)) _

/-- A callee has less to run than its caller gets done by calling it. -/
theorem potential_push_lt {base levels : Nat} {scopes scopes' callee : List Scope}
    {callers : List (List Scope)} (h : workLeft scopes' < workLeft scopes)
    (hcallee : workLeft callee < base) (hlevels : callers.length + 2 ≤ levels) :
    potential base levels (callee :: scopes' :: callers) <
      potential base levels (scopes :: callers) := by
  obtain ⟨more, rfl⟩ := Nat.exists_eq_add_of_le hlevels
  have hcaller : callers.length + 2 + more - (callers.length + 1) = more + 1 := by omega
  have htop : callers.length + 2 + more - ((scopes' :: callers).length + 1) = more := by
    rw [List.length_cons]
    omega
  -- The caller gives up one unit of its own level, `base` units of the next one.
  simp only [potential, hcaller, htop, Nat.pow_succ, ← Nat.add_assoc]
  refine Nat.add_lt_add_right ?_ _
  have hpow : 0 < base ^ more := Nat.pow_pos (Nat.zero_lt_of_lt hcallee)
  calc workLeft callee * base ^ more + workLeft scopes' * (base ^ more * base)
      < base * base ^ more + workLeft scopes' * (base ^ more * base) :=
        Nat.add_lt_add_right (Nat.mul_lt_mul_of_pos_right hcallee hpow) _
    _ = (workLeft scopes' + 1) * (base ^ more * base) := by
        rw [Nat.mul_comm base, Nat.succ_mul, Nat.add_comm]
    _ ≤ workLeft scopes * (base ^ more * base) := Nat.mul_le_mul_right _ h

namespace State

variable {ω σ : Type} {env : Env ω σ} {s s' : State ω σ}

/-- A run that comes past no loop. -/
structure Straight (env : Env ω σ) (s : State ω σ) : Prop where
  scopes : ∀ scopes ∈ s.control, ∀ scope ∈ scopes, scope.Straight
  depth : s.control.length ≤ env.maxDepth + 1

/-- A bound on the steps that are left. -/
def stepsLeft (env : Env ω σ) (s : State ω σ) : Nat :=
  potential (env.module.weight + 2) (env.maxDepth + 1) s.control

theorem Provides.straight {m : Module} (hm : m.LoopFree) {action : Action}
    {callee : Frame} (h : Provides m action callee) :
    (∀ scope ∈ callee.scopes, scope.Straight) ∧
    workLeft callee.scopes ≤ m.weight + 1 := by
  cases h with
  | function h => exact Frame.ofFunction_straight hm h
  | initializer h => exact Frame.ofGlobal_straight hm h

/-- A step stays away from loops and leaves fewer steps. -/
theorem advance_stepsLeft_lt (hm : env.module.LoopFree) (hs : s.Straight env)
    (h : advance env s = .running s') : s'.Straight env ∧
    s'.stepsLeft env < s.stepsLeft env := by
  obtain ⟨hscopes, hdepth⟩ := hs
  have hlength := s.calls.depth_eq
  rw [s.length_control] at hdepth
  rw [s.control_eq, List.forall_mem_cons] at hscopes
  obtain ⟨htop, hcallers⟩ := hscopes
  have hbase : 0 < env.module.weight + 2 := Nat.succ_pos _
  have hbelow : (s.calls.callers.map (·.scopes)).length = s.calls.callers.length :=
    List.length_map _
  unfold stepsLeft
  rcases advance_control h with ⟨-, hnext⟩ | ⟨scope, outer, hscopes, -, hnext⟩ |
    ⟨node, f, g, action, hfetch, hexecute, hnext⟩
  · rw [s.control_eq, List.tail_cons] at hnext
    refine ⟨⟨by rwa [hnext], by rw [hnext, hbelow]; omega⟩, ?_⟩
    rw [hnext, s.control_eq, potential]
    exact Nat.lt_add_of_pos_left (Nat.mul_pos (workLeft_pos _) (Nat.pow_pos hbase))
  · rw [s.control_eq, List.tail_cons] at hnext
    rw [hscopes, List.forall_mem_cons] at htop
    refine ⟨⟨by rw [hnext]; exact List.forall_mem_cons.mpr ⟨htop.2, hcallers⟩, ?_⟩, ?_⟩
    · rw [hnext, List.length_cons, hbelow]
      exact hdepth
    · rw [hnext, s.control_eq, hscopes]
      exact potential_lt_of_workLeft_lt hbase (by rw [workLeft]; omega) _
  · rw [s.control_eq, List.tail_cons] at hnext
    obtain ⟨hless, hg⟩ := Frame.workLeft_lt_of_execute hfetch hexecute htop
    have hmoved := List.forall_mem_cons.mpr ⟨hg, hcallers⟩
    rcases hnext with hnext | ⟨callee, hcallee, hroom, hnext⟩
    · refine ⟨⟨by rwa [hnext], by rw [hnext, List.length_cons, hbelow]; exact hdepth⟩,
        ?_⟩
      rw [hnext, s.control_eq]
      exact potential_lt_of_workLeft_lt hbase hless _
    · obtain ⟨hstraight, hwork⟩ := hcallee.straight hm
      refine ⟨⟨by rw [hnext]; exact List.forall_mem_cons.mpr ⟨hstraight, hmoved⟩, ?_⟩,
        ?_⟩
      · rw [hnext, List.length_cons, List.length_cons, hbelow]
        omega
      · rw [hnext, s.control_eq]
        exact potential_push_lt hless (by omega) (by rw [hbelow]; omega)

/-- Runs that come past no loop end. -/
theorem run_ne_outOfFuel (hm : env.module.LoopFree) (hs : s.Straight env) {fuel : Nat}
    (hfuel : s.stepsLeft env < fuel) : (s.run env fuel).1 ≠ .error .outOfFuel := by
  induction fuel generalizing s with
  | zero => exact absurd hfuel (Nat.not_lt_zero _)
  | succ fuel ih =>
      rw [run]
      cases hadvance : advance env s with
      | running s' =>
          obtain ⟨hs', hless⟩ := advance_stepsLeft_lt hm hs hadvance
          exact ih hs' (by omega)
      | done result world => cases result <;> exact nofun

/-- What a run comes to does not change with more fuel. -/
theorem run_eq_of_le {fuel fuel' : Nat} (hends : (s.run env fuel).1 ≠ .error .outOfFuel)
    (hle : fuel ≤ fuel') : s.run env fuel' = s.run env fuel := by
  induction fuel generalizing s fuel' with
  | zero => exact absurd rfl hends
  | succ fuel ih =>
      obtain ⟨fuel', rfl⟩ := Nat.exists_eq_add_of_le'
        (Nat.le_trans (Nat.le_add_left 1 fuel) hle)
      rw [run] at hends
      rw [run, run]
      cases hadvance : advance env s with
      | running s' =>
          rw [hadvance] at hends
          exact ih hends (Nat.le_of_succ_le_succ hle)
      | done result world => cases result <;> rfl

end State

namespace Env

variable {ω σ : Type} {env : Env ω σ} {w : World ω σ} {function : Nat}

/-- Without loops every function comes to an end. -/
theorem exists_evaluate_ne_outOfFuel (hm : env.module.LoopFree) (w : World ω σ)
    (function : Nat) :
    ∃ fuel, (env.evaluate fuel w function).1 ≠ .error .outOfFuel := by
  unfold evaluate
  cases hframe : Frame.ofFunction env.module .constant function [] none with
  | error t => exact ⟨0, nofun⟩
  | ok frame =>
      obtain ⟨hscopes, -⟩ := Frame.ofFunction_straight hm hframe
      let s : State ω σ := ⟨.ofFrame frame, w.mapWatch (env.observer.enter frame.owner)⟩
      have hs : s.Straight env :=
        ⟨List.forall_mem_singleton.mpr hscopes, Nat.le_add_left _ _⟩
      exact ⟨s.stepsLeft env + 1, s.run_ne_outOfFuel hm hs (Nat.lt_succ_self _)⟩

theorem evaluate_eq_of_le {fuel fuel' : Nat}
    (hends : (env.evaluate fuel w function).1 ≠ .error .outOfFuel)
    (hle : fuel ≤ fuel') :
    env.evaluate fuel' w function = env.evaluate fuel w function := by
  unfold evaluate at hends ⊢
  cases hframe : Frame.ofFunction env.module .constant function [] none with
  | error t => rfl
  | ok frame =>
      rw [hframe] at hends
      exact State.run_eq_of_le hends hle

end Env

end WasmVm
