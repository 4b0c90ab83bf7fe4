/-
The decoder and the machine know the same instructions.  What a run fetches was read as
an opcode with the operands of that opcode, and is neither a mark nor a handler; and
the machine has a rule for all of that but `call_indirect`.
-/
import WasmVm.Proofs.Machine.Fetches
import WasmVm.Proofs.Machine.Traps
import WasmVm.Proofs.Observing.Noninterference

namespace WasmVm

variable {ω σ : Type}

/-! ### Opcodes -/

/-- The opcode that an instruction is listed under. -/
def Item.opcode : Item → Opcode
  | nop => .nop
  | openScope kind _ => kind.opcode
  | otherwise => .elseThen
  | catchTag _ => .catchTag
  | catchAll => .catchAll
  | delegate _ => .delegate
  | close => .endScope
  | plain instr => instr.opcode

theorem Node.opcode_item (n : Node) : n.item.opcode = n.opcode := by
  cases n with
  | plain id instr => cases instr <;> rfl
  | scope => rfl

/-- Operands of an opcode make an instruction of that opcode; a `select` that names its
types is one like any other. -/
theorem Operands.opcode_eq {m : Module} {op : Opcode} {item : Item} {bytes : List UInt8}
    (h : Operands m op.layout item bytes) :
    item.opcode = op ∨ op = .selectTyped ∧ item.opcode = .select := by
  generalize hlayout : op.layout = layout at h
  cases op <;> cases hlayout <;> cases h <;> first | exact .inl rfl |
    exact .inr ⟨rfl, rfl⟩

/-- The loads are numbered from `0x28` to `0x35`, and nothing else is. -/
theorem Opcode.eq_load {op : Opcode} (hleast : 0x28 ≤ op.code)
    (hmost : op.code ≤ 0x35) :
    ∃ access, op = .load access := by
  have hall : ∀ op ∈ all, 0x28 ≤ op.code → op.code ≤ 0x35 →
      op ∈ LoadOp.all.map load := by
    decide +kernel
  obtain ⟨access, -, rfl⟩ := List.mem_map.mp (hall op op.mem_all hleast hmost)
  exact ⟨access, rfl⟩

/-- The stores are numbered from `0x36` to `0x3e`, and nothing else is. -/
theorem Opcode.eq_store {op : Opcode} (hleast : 0x36 ≤ op.code)
    (hmost : op.code ≤ 0x3e) :
    ∃ access, op = .store access := by
  have hall : ∀ op ∈ all, 0x36 ≤ op.code → op.code ≤ 0x3e →
      op ∈ StoreOp.all.map store := by
    decide +kernel
  obtain ⟨access, -, rfl⟩ := List.mem_map.mp (hall op op.mem_all hleast hmost)
  exact ⟨access, rfl⟩

/-- A node that was read as an instruction of the module and that a run knows what to do
with. -/
structure Node.Covered (m : Module) (node : Node) : Prop where
  /-- Behind the opcode stood the operands that the opcode has. -/
  read : ∃ m₀ op front back, Module.Precedes m₀ m ∧ Opcode.Encodes op front ∧
    Operands m₀ op.layout node.item back ∧
    (node.opcode = op ∨ op = .selectTyped ∧ node.opcode = .select)
  /-- It is no mark and no handler. -/
  runs : node.opcode ∉ [.nop, .elseThen, .endScope, .catchTag, .catchAll]
  load : 0x28 ≤ node.opcode.code → node.opcode.code ≤ 0x35 →
    ∃ id op arg, node = .plain id (.load op arg)
  store : 0x36 ≤ node.opcode.code → node.opcode.code ≤ 0x3e →
    ∃ id op arg, node = .plain id (.store op arg)

theorem Module.CanFetch.isCatch_eq_false {m : Module} {node : Node}
    (h : m.CanFetch node) (hm : m.BodiesRead) : node.isCatch = false := by
  rcases (h.encodes hm).2 with hnested | ⟨id, depth, rfl⟩
  · exact Node.isCatch_eq_false hnested.isMark_eq_false
  · rfl

/-- Whatever can be fetched is covered. -/
theorem Module.CanFetch.covered {m : Module} {node : Node} (h : m.CanFetch node)
    (hm : m.BodiesRead) : node.Covered m := by
  have hcatch := h.isCatch_eq_false hm
  obtain ⟨⟨m₀, bytes, hbefore, hop, hoperands⟩, -⟩ := h.encodes hm
  refine ⟨⟨m₀, _, _, _, hbefore, hop, hoperands, ?_⟩, ?_, ?_, ?_⟩
  · rw [← node.opcode_item]
    exact hoperands.opcode_eq
  · cases node with
    | plain id instr =>
        cases instr <;> first | (cases hcatch; done) | simp [Node.opcode, Instr.opcode]
    | scope id kind => cases kind <;> simp [Node.opcode, ScopeKind.opcode]
  · intro hleast hmost
    obtain ⟨access, hload⟩ := Opcode.eq_load hleast hmost
    cases node with
    | plain id instr =>
        cases instr <;> cases hload
        exact ⟨_, _, _, rfl⟩
    | scope id kind => cases kind <;> cases hload
  · intro hleast hmost
    obtain ⟨access, hstore⟩ := Opcode.eq_store hleast hmost
    cases node with
    | plain id instr =>
        cases instr <;> cases hstore
        exact ⟨_, _, _, rfl⟩
    | scope id kind => cases kind <;> cases hstore

/-! ### Messages -/

/-- The text begins with another letter than messages about opcodes do. -/
def BeginsOtherwise (text : String) : Prop :=
  ∃ first, text.toList.head? = some first ∧ first ≠ 'o'

namespace BeginsOtherwise

variable {text : String}

theorem append (h : BeginsOtherwise text) (more : String) :
    BeginsOtherwise (text ++ more) := by
  obtain ⟨first, htext, hfirst⟩ := h
  exact ⟨first, by simp [htext], hfirst⟩

theorem ne_opcode (h : BeginsOtherwise text) (more : String) :
    text ≠ "opcode " ++ more := by
  rintro rfl
  obtain ⟨first, htext, hfirst⟩ := h
  rw [String.toList_append] at htext
  exact hfirst (Option.some.inj htext).symm

theorem ofDigits {digits : List Char} (hsome : digits ≠ [])
    (h : ∀ c ∈ digits, c.isDigit = true) : BeginsOtherwise (String.ofList digits) := by
  obtain ⟨first, rest, rfl⟩ := List.exists_cons_of_ne_nil hsome
  refine ⟨first, by simp, ?_⟩
  rintro rfl
  have hdigit := h 'o' List.mem_cons_self
  revert hdigit
  decide

theorem natural (n : Nat) : BeginsOtherwise (toString n) := by
  have hn : toString n = String.ofList (Nat.toDigits 10 n) := by
    rw [← Nat.toList_repr, String.ofList_toList]
    rfl
  rw [hn]
  exact ofDigits Nat.toDigits_ne_nil fun c =>
    Nat.isDigit_of_mem_toDigits (by decide) (by decide)

/-- A decimal begins with a digit. -/
theorem positional (d : Decimal.Numeral) : BeginsOtherwise d.positional := by
  have hdigits : ∀ c ∈ Nat.toDigits 10 d.digits, c.isDigit = true :=
    fun c => Nat.isDigit_of_mem_toDigits (by decide) (by decide)
  unfold Decimal.Numeral.positional
  dsimp only
  split
  · refine ofDigits (by simp [Nat.toDigits_ne_nil]) fun c hc => ?_
    rcases List.mem_append.mp hc with hc | hc
    · exact hdigits c hc
    · rw [List.eq_of_mem_replicate hc]
      rfl
  · split
    · refine append (append (ofDigits ?_ fun c hc =>
        hdigits c (List.mem_of_mem_take hc)) _) _
      intro hnone
      have hlength := congrArg List.length hnone
      rw [List.length_take, List.length_nil] at hlength
      omega
    · exact append ⟨'0', rfl, by decide⟩ _

theorem float (f : Ieee.Format) (bits : Nat) :
    BeginsOtherwise (Decimal.ofBits f bits) := by
  have hsign : ∀ (negative : Bool) {text : String}, BeginsOtherwise text →
      BeginsOtherwise ((if negative then "-" else "") ++ text) := by
    intro negative text htext
    cases negative with
    | true => exact append ⟨'-', rfl, by decide⟩ _
    | false => simpa using htext
  unfold Decimal.ofBits
  dsimp only
  split
  · exact ⟨'N', rfl, by decide⟩
  · exact hsign _ ⟨'i', rfl, by decide⟩
  · split
    · exact hsign _ ⟨'0', rfl, by decide⟩
    · exact hsign _ (positional _)

end BeginsOtherwise

/-- Only what is not implemented is reported as a matter of its opcode, unless the text
comes from outside. -/
theorem Trap.message_begins {t : Trap} (hknown : ∀ code, t ≠ .notImplemented code)
    (hinside : t.code ≠ .interrupted) (hidle : t.code ≠ .reentrant)
    (hreported : ∀ code text, t ≠ .reported code text) : BeginsOtherwise t.message := by
  unfold message
  cases t with
  | notImplemented code => exact absurd rfl (hknown code)
  | interrupted text => exact absurd rfl hinside
  | busyCall | busyObserver => exact absurd rfl hidle
  | reported code text => exact absurd rfl (hreported code text)
  | divisionByZero w op =>
      refine .append (.append (.append ?_ _) _) _
      cases w <;> exact ⟨'i', rfl, by decide⟩
  | divisionOverflow w =>
      refine .append ?_ _
      cases w <;> exact ⟨'i', rfl, by decide⟩
  | outOfRange bits target s => exact .append (.append (.float _ _) _) _
  | segmentRange length start segment size =>
      exact .append (.append (.append (.append (.append (.append (.append
        (.natural _) _) _) _) _) _) _) _
  | shortStack wanted found => exact .append (.append (.append (.natural _) _) _) _
  | _ =>
      -- All other messages begin with a text that is given.
      dsimp only
      repeat with_reducible apply BeginsOtherwise.append
      exact ⟨_, rfl, by decide⟩

/-- A trap that does not call its instruction unknown. -/
theorem Trap.message_ne_opcode {t : Trap}
    (h : t.Ordinary ∨ t = .callIndirect ∨ ∃ n, t = .noFunction n)
    (text : String) : t.message ≠ "opcode " ++ text := by
  refine (message_begins ?_ ?_ ?_ ?_).ne_opcode text
  all_goals
    rcases h with h | rfl | ⟨n, rfl⟩
    · cases t <;> first | exact h.elim | exact nofun
    · exact nofun
    · exact nofun

/-! ### Runs -/

namespace State

variable {env : Env ω σ} {t : State ω σ}

/-- The next instruction is a `call_indirect`. -/
def CallsIndirectly (t : State ω σ) : Prop :=
  ∃ id typeIndex table f,
    t.calls.top.fetch? = some (.plain id (.callIndirect typeIndex table), f)

/-- Within a module whose bodies have been read, every other step that is permitted
fails with an ordinary trap at most. -/
theorem Within.advance_failsWith (h : t.Within env) (hm : env.module.BodiesRead)
    (hpermitted : t.Permitted env) (hother : ¬ t.CallsIndirectly) :
    (t.advance env).FailsWith Trap.Ordinary := by
  refine State.advance_failsWith hpermitted fun node f hfetch => ⟨?_, ?_⟩
  · exact (h.canFetch hfetch).isCatch_eq_false hm
  · rintro id typeIndex table rfl
    exact hother ⟨id, typeIndex, table, f, hfetch⟩

/-- So the cause of a failure is ordinary, or that there are no tables. -/
theorem Within.cause_of_advance (h : t.Within env) (hm : env.module.BodiesRead)
    (hpermitted : t.Permitted env) {cause : Trap} {site : Option Site} {w : World ω σ}
    (hadvance : t.advance env = .done (.error (.trap cause site)) w) :
    (t.CallsIndirectly ∧ cause = .callIndirect) ∨
    (¬ t.CallsIndirectly ∧ cause.Ordinary) := by
  by_cases hindirect : t.CallsIndirectly
  · obtain ⟨id, typeIndex, table, f, hfetch⟩ := hindirect
    obtain ⟨site', w', hcall⟩ := advance_of_callIndirect hpermitted hfetch
    cases hadvance.symm.trans hcall
    exact .inl ⟨⟨id, typeIndex, table, f, hfetch⟩, rfl⟩
  · have hfails := h.advance_failsWith hm hpermitted hindirect
    rw [hadvance] at hfails
    exact .inr ⟨hindirect, hfails⟩

end State

/-- What an operation fails with before its run starts. -/
theorem Operation.cause_of_start {env : Env ω σ} {w w' : World ω σ} {op : Operation}
    {cause : Trap} {site : Option Site}
    (h : op.start env w = .done (.error (.trap cause site)) w') :
    cause.Ordinary ∨ ∃ function, cause = .noFunction function := by
  have henter : ∀ {w : World ω σ} {frame : Except Trap Frame},
    Raises Trap.Ordinary frame →
      w.enter env frame = .done (.error (.trap cause site)) w' → cause.Ordinary := by
    intro w frame hframe henter
    cases frame with
    | error t =>
        cases henter
        exact hframe
    | ok f => cases henter
  cases op with
  | invoke function args =>
      rw [start] at h
      split at h
      · cases h
        exact .inr ⟨function, rfl⟩
      · split at h
        · have hhost := w.callHost_raises env function args
          split at h
          · cases h
          · next t w'' hreply =>
              cases h
              rw [hreply] at hhost
              exact .inl hhost
        · exact .inl (henter (Frame.ofFunction_raises ..) h)
  | readGlobal index =>
      rw [start] at h
      split at h
      · next t hread =>
          cases h
          exact .inl ((w.store.readGlobal_raises index).of_error hread)
      · cases h
      · exact .inl (henter (Frame.ofGlobal_raises ..) h)

theorem Operation.answer_eq_error {op : Operation}
    {result : Except Halt (List Value)} {h : Halt}
    (hanswer : op.answer result = .error h) :
    result = .error h ∨ ∃ index, h = .error (.trap (.globalEmpty index) none) := by
  unfold answer at hanswer
  split at hanswer
  · exact .inl hanswer
  · cases hanswer
  · next index =>
      cases hanswer
      exact .inr ⟨index, rfl⟩
  · cases hanswer
    exact .inl rfl

/-- An operation fails before its run starts, by one of its steps, or because an
initializer has left nothing. -/
theorem Operation.cause_of_perform {env : Env ω σ} {w : World ω σ}
    {op : Operation} {fuel : Nat} {cause : Trap} {site : Option Site}
    (hpermissive : env.observer.Permissive)
    (hperform : (op.perform env fuel w).1 = .error (.error (.trap cause site)))
    (hsteps : ∀ {s log t w'}, op.start env w = .running s → State.Runs env s log t →
      t.Permitted env → t.advance env = .done (.error (.trap cause site)) w' →
        cause.Ordinary ∨ cause = .callIndirect) :
    cause.Ordinary ∨ cause = .callIndirect ∨ ∃ function,
      cause = .noFunction function := by
  rw [perform_eq] at hperform
  cases hstart : op.start env w with
  | done result w' =>
      rw [hstart] at hperform
      cases result with
      | ok values => cases hperform
      | error e =>
          cases hperform
          exact (cause_of_start hstart).imp_right .inr
  | running s =>
      rw [hstart] at hperform
      rcases answer_eq_error hperform with hrun | ⟨index, hempty⟩
      · obtain ⟨log, t, w', hruns, hadvance⟩ := State.exists_step_of_run_error hrun
        have hpermitted := State.permitted_of_permissive hpermissive t
        exact (hsteps hstart hruns hpermitted hadvance).imp_right .inl
      · cases hempty
        exact .inl trivial

/-- The decoder and the machine cover the same instructions.  Every node that a run of
a decoded module fetches was read with the operands of its opcode and is neither a mark
nor a handler; no step and no operation fails because an opcode is unknown, or is no
load or no store; and of all instructions only `call_indirect` is not implemented,
which always traps.  What an observer refuses in its own words is left out. -/
theorem decoded_instructions_covered {env : Env ω σ} {fuel : Nat} {bytes : Array UInt8}
    (hmodule : Module.decode fuel bytes = .ok env.module) (w : World ω σ)
    (op : Operation) :
    (∀ s log t, op.start env w = .running s → State.Runs env s log t →
      (∀ node f, t.calls.top.fetch? = some (node, f) → node.Covered env.module) ∧
      (t.Permitted env →
        (∀ cause site w', t.advance env = .done (.error (.trap cause site)) w' →
          ∀ text, cause.message ≠ "opcode " ++ text) ∧
        ((∃ cause site w', t.advance env = .done (.error (.trap cause site)) w' ∧
          cause.code = .unimplemented) ↔ t.CallsIndirectly))) ∧
    (env.observer.Permissive → ∀ fuel cause site,
      (op.perform env fuel w).1 = .error (.error (.trap cause site)) →
        ∀ text, cause.message ≠ "opcode " ++ text) := by
  obtain ⟨hrange, hsize⟩ := Module.decodeWith_inRange hmodule
  have hm := Module.decodeWith_bodiesRead hmodule
  have hcause : ∀ {s log t cause site w'}, op.start env w = .running s →
      State.Runs env s log t → t.Permitted env →
        t.advance env = .done (.error (.trap cause site)) w' →
      (t.CallsIndirectly ∧ cause = .callIndirect) ∨
      (¬ t.CallsIndirectly ∧ cause.Ordinary) :=
    fun hstart hruns hpermitted hadvance =>
      (Operation.runs_within hrange hsize hstart hruns).cause_of_advance hm
        hpermitted hadvance
  refine ⟨fun s log t hstart hruns =>
    ⟨fun node f hfetch => ?_, fun hpermitted => ⟨?_, ?_, ?_⟩⟩, ?_⟩
  · have hwithin := Operation.runs_within hrange hsize hstart hruns
    exact (hwithin.canFetch hfetch).covered hm
  · intro cause site w' hadvance
    rcases hcause hstart hruns hpermitted hadvance with ⟨-, hcause⟩ | ⟨-, hcause⟩
    · exact Trap.message_ne_opcode (.inr (.inl hcause))
    · exact Trap.message_ne_opcode (.inl hcause)
  · rintro ⟨cause, site, w', hadvance, hcode⟩
    rcases hcause hstart hruns hpermitted hadvance with ⟨hindirect, -⟩ | ⟨-, hordinary⟩
    · exact hindirect
    · exact absurd hcode hordinary.code_ne
  · rintro ⟨id, typeIndex, table, f, hfetch⟩
    obtain ⟨site, w', hadvance⟩ := State.advance_of_callIndirect hpermitted hfetch
    exact ⟨_, site, w', hadvance, rfl⟩
  · intro hpermissive fuel cause site hperform
    refine Trap.message_ne_opcode (Operation.cause_of_perform hpermissive hperform ?_)
    exact fun hstart hruns hpermitted hadvance =>
      (hcause hstart hruns hpermitted hadvance).symm.imp And.right And.right

namespace CoverageWitness

/-- A function with a `nop`, a `try` with nothing but a handler, and a `call_indirect`.
-/
def bytes : List UInt8 :=
  [0x00, 0x61, 0x73, 0x6d, 0x01, 0x00, 0x00, 0x00,
    0x01, 0x04, 0x01, 0x60, 0x00, 0x00,
    0x03, 0x02, 0x01, 0x00,
    0x0a, 0x0d, 0x01, 0x0b, 0x00, 0x01, 0x06, 0x40, 0x19, 0x00, 0x0b, 0x11,
      0x00, 0x00, 0x0b]

def body : List Node :=
  [.scope 2 .tryBlock .empty [] (some [.plain 3 .catchAll, .plain 4 .unreachable]),
    .plain 6 (.callIndirect 0 0)]

def module : Module where
  types := #[⟨[], []⟩]
  functions := #[0]
  codes := #[⟨#[], 0, .scope 0 .block (.func 0) body none⟩]

theorem decode_bytes : Module.decode 0 bytes.toArray = .ok module := by
  with_unfolding_all rfl

def env : Env Unit Unit :=
  { module, hosts := #[], observer := .silent, maxDepth := 1 }

def world : World Unit Unit :=
  ⟨.ofModule module, (), ()⟩

/-- The function with these scopes open. -/
def state (scopes : List Scope) : State Unit Unit :=
  ⟨.ofFrame ⟨.function 0, #[], [], scopes, some 0⟩, world⟩

/-- The function behind its `try`. -/
def reached : State Unit Unit :=
  state [⟨[.plain 6 (.callIndirect 0 0)], body, 0, 0, false⟩]

theorem runs_past_handler :
    ∃ log, State.Runs env (state [⟨body, body, 0, 0, false⟩]) log reached := by
  have henter : (state [⟨body, body, 0, 0, false⟩]).advance env =
      .running (state [⟨[], [], 0, 0, false⟩,
        ⟨[.plain 6 (.callIndirect 0 0)], body, 0, 0, false⟩]) :=
    rfl
  exact ⟨_, (State.Runs.start.step henter).step rfl⟩

/-- The handler is passed over, and the `call_indirect` behind it traps in words of its
own. -/
theorem handler_passed_over :
    Module.decode 0 bytes.toArray = .ok module ∧ reached.CallsIndirectly ∧
    (∃ log, State.Runs env (state [⟨body, body, 0, 0, false⟩]) log reached) ∧
    ∃ cause site w, reached.advance env = .done (.error (.trap cause site)) w ∧
      cause.code = .unimplemented ∧ ∀ text, cause.message ≠ "opcode " ++ text := by
  have hmodule : Module.decode 0 bytes.toArray = .ok env.module := decode_bytes
  obtain ⟨log, hruns⟩ := runs_past_handler
  obtain ⟨-, hsteps⟩ :=
    (decoded_instructions_covered hmodule world (.invoke 0 [])).1 _ log
      reached rfl hruns
  obtain ⟨hmessage, hcode⟩ := hsteps fun _ _ _ => rfl
  have hindirect : reached.CallsIndirectly := ⟨6, 0, 0, _, rfl⟩
  obtain ⟨cause, site, w, hadvance, hunimplemented⟩ := hcode.mpr hindirect
  exact ⟨decode_bytes, hindirect, ⟨log, hruns⟩, cause, site, w,
    hadvance, hunimplemented,
    hmessage cause site w hadvance⟩

end CoverageWitness

end WasmVm
