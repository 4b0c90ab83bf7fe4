/-
What decoding asks.  Offsets of data segments are evaluated while a module is decoded.
What comes of it depends on finitely many of these evaluations: they all end, or the
last one is waited for in vain.
-/
import WasmVm.Proofs.Decoding.Sections

namespace WasmVm

/-- A way to evaluate constant expressions. -/
abbrev Evaluator := List UInt8 → Except Halt Value

/-- What comes of a segment whose offset has no value. -/
def Halt.atOffset (segment : Nat) : Halt → Halt
  | error e => error (.format (.dataOffset segment e.text))
  | h => h

namespace Decoding

variable {α β : Type}

/-- What a computation asks of its evaluator, given what it comes to with each of them.
-/
inductive Consults (x : Evaluator → EStateM.Result Halt Cursor α)
    (evaluate : Evaluator) : Prop
  /-- All questions have an answer, and any evaluator with the same answers will do. -/
  | ends (asked : List (List UInt8))
      (hanswered : ∀ expr ∈ asked, evaluate expr ≠ .error .outOfFuel)
      (hends : ∀ c, x evaluate ≠ .error .outOfFuel c)
      (hsame : ∀ other : Evaluator, (∀ expr ∈ asked, other expr = evaluate expr) →
        x other = x evaluate)
  /-- All questions but the last have an answer.  The last is the offset of a segment,
  and an evaluator that fails there makes the computation fail for it. -/
  | waits (asked : List (List UInt8)) (last : List UInt8) (segment : Nat) (c : Cursor)
      (hanswered : ∀ expr ∈ asked, evaluate expr ≠ .error .outOfFuel)
      (hwaits : evaluate last = .error .outOfFuel)
      (hfails : ∀ (other : Evaluator) (h : Halt),
        (∀ expr ∈ asked, other expr = evaluate expr) → other last = .error h →
          x other = .error (h.atOffset segment) c)

namespace Consults

variable {x : Evaluator → Decoding α} {f : Evaluator → α → Decoding β}
  {evaluate : Evaluator}
  {c : Cursor}

/-- The questions of two computations, one after the other. -/
theorem bind (hx : Consults (fun e => x e c) evaluate)
    (hf : ∀ a c', x evaluate c = .ok a c' → Consults (fun e => f e a c') evaluate) :
    Consults (fun e => (x e >>= f e) c) evaluate := by
  cases hx with
  | waits asked last segment c' hanswered hwaits hfails =>
      exact .waits asked last segment c' hanswered hwaits fun other h hsame hlast =>
        EStateM.bind_of_error (hfails other h hsame hlast)
  | ends asked hanswered hends hsame =>
      cases hresult : x evaluate c with
      | error h c' =>
          simp only [hresult] at hends hsame
          refine .ends asked hanswered (fun c'' herror => ?_) fun other hother => ?_
          · rw [EStateM.bind_of_error hresult] at herror
            cases herror
            exact hends c' rfl
          · rw [EStateM.bind_of_error hresult,
              EStateM.bind_of_error (hsame other hother)]
      | ok a c' =>
          -- The answers so far fix `a`, so the second computation is the same too.
          simp only [hresult] at hsame
          cases hf a c' hresult with
          | ends asked' hanswered' hends' hsame' =>
              refine .ends (asked ++ asked')
                (List.forall_mem_append.mpr ⟨hanswered, hanswered'⟩) ?_
                  fun other hother => ?_
              · rw [EStateM.bind_of_ok hresult]
                exact hends'
              · obtain ⟨hfirst, hsecond⟩ := List.forall_mem_append.mp hother
                rw [EStateM.bind_of_ok hresult, EStateM.bind_of_ok (hsame other hfirst)]
                exact hsame' other hsecond
          | waits asked' last segment c'' hanswered' hwaits hfails =>
              refine .waits (asked ++ asked') last segment c''
                (List.forall_mem_append.mpr ⟨hanswered, hanswered'⟩) hwaits
                fun other h hother hlast => ?_
              obtain ⟨hfirst, hsecond⟩ := List.forall_mem_append.mp hother
              rw [EStateM.bind_of_ok (hsame other hfirst)]
              exact hfails other h hsecond hlast

theorem within {inner : Cursor} (h : Consults (fun e => x e inner) evaluate) :
    Consults (fun e => within inner (x e) c) evaluate := by
  unfold Decoding.within
  cases h with
  | ends asked hanswered hends hsame =>
      refine .ends asked hanswered (fun c' herror => ?_) fun other hother => ?_
      · split at herror
        · cases herror
        · next hinner =>
            cases herror
            exact hends _ hinner
      · rw [hsame other hother]
  | waits asked last segment _ hanswered hwaits hfails =>
      refine .waits asked last segment c hanswered hwaits fun other h hother hlast => ?_
      rw [hfails other h hother hlast]

end Consults

/-- A computation that consults every evaluator, wherever it starts. -/
def Consulting (x : Evaluator → Decoding α) : Prop :=
  ∀ evaluate c, Consults (fun e => x e c) evaluate

namespace Consulting

variable {x y : Evaluator → Decoding α} {f : Evaluator → α → Decoding β}

/-- Computations that have nothing to ask. -/
theorem of_fixed {x : Decoding α} (h : ∀ c c', x c ≠ .error .outOfFuel c') :
    Consulting fun _ => x :=
  fun _ c => .ends [] nofun (h c) fun _ _ => rfl

theorem pure (a : α) : Consulting fun _ => Pure.pure a :=
  .of_fixed fun _ _ => nofun

theorem fail (e : Error) : Consulting fun _ => (Decoding.fail e : Decoding α) :=
  .of_fixed fun _ _ => nofun

theorem lift (r : Reading α) : Consulting fun _ => liftM r := by
  refine .of_fixed fun c c' herror => ?_
  change ofReading r c = _ at herror
  unfold ofReading at herror
  split at herror <;> cases herror

theorem get_bind {f : Evaluator → Cursor → Decoding β}
    (h : ∀ evaluate c, Consults (fun e => f e c c) evaluate) :
    Consulting fun e => get >>= f e :=
  h

theorem bind (hx : Consulting x) (hf : ∀ a, Consulting fun e => f e a) :
    Consulting fun e => x e >>= f e :=
  fun evaluate c => (hx evaluate c).bind fun a c' _ => hf a evaluate c'

theorem ite {p : Prop} [Decidable p] (hx : Consulting x) (hy : Consulting y) :
    Consulting fun e => if p then x e else y e := by
  split
  · exact hx
  · exact hy

theorem within (inner : Cursor) (hx : Consulting x) :
    Consulting fun e => within inner (x e) :=
  fun evaluate _ => (hx evaluate inner).within

theorem forRange {x : Evaluator → Nat → α → Decoding α}
    (h : ∀ turn a, Consulting fun e => x e turn a) (left turn : Nat) (a : α) :
    Consulting fun e => forRange (x e) left turn a := by
  induction left generalizing turn a with
  | zero => exact .pure a
  | succ left ih => exact (h turn a).bind fun a => ih (turn + 1) a

theorem entries {add : Evaluator → Nat → Module → Decoding Module}
    (h : ∀ turn m, Consulting fun e => add e turn m) (m : Module) :
    Consulting fun e => entries (add e) m :=
  (Consulting.lift Reading.u32).bind fun count => forRange h count 0 m

/-- Nothing to ask is nothing to wait for. -/
theorem ne_outOfFuel {x : Decoding α} (h : Consulting fun _ => x) (c c' : Cursor) :
    x c ≠ .error .outOfFuel c' := by
  cases h (fun _ => .error .outOfFuel) c with
  | ends _ _ hends => exact hends c'
  | waits asked _ _ _ hanswered _ hfails =>
      -- An evaluator that fails in another way would make `x` fail in that way.
      intro herror
      have hbroken := hfails (fun _ => .error .badIndex) .badIndex
        (fun expr hexpr => absurd rfl (hanswered expr hexpr)) rfl
      cases herror.symm.trans hbroken

end Consulting

/-! ### Sections -/

theorem code_consulting (turn : Nat) (m : Module) :
    Consulting fun _ => code turn m := by
  refine (Consulting.lift _).bind fun size => (Consulting.lift _).bind fun entry => ?_
  have hhalt : Consulting fun _ => (halt .badIndex : Decoding Module) :=
    .of_fixed fun _ _ => nofun
  cases m.functions[turn]? with
  | none => exact hhalt
  | some typeIndex =>
      dsimp only
      cases m.types[typeIndex]? with
      | none => exact hhalt
      | some type =>
          exact (Consulting.within entry (.lift _)).bind fun _ => .pure _

theorem codes_consulting (m : Module) : Consulting fun _ => codes m :=
  (Consulting.lift _).bind fun count => .ite (.fail _)
  (.forRange code_consulting count 0 m)

/-- The offset of a segment is the only thing that is asked for. -/
theorem activeOffset_consulting (m : Module) (segment : Nat) :
    Consulting fun e => activeOffset e m segment := by
  refine .get_bind fun evaluate c => ((Consulting.lift _).bind fun _ => ?_) evaluate c
  refine .get_bind fun evaluate after => ?_
  generalize after.since c.pos = expr
  by_cases hanswer : evaluate expr = .error .outOfFuel
  · refine .waits [] expr segment after nofun hanswer fun other h _ hlast => ?_
    rw [hlast]
    cases h <;> rfl
  · refine .ends [expr] (List.forall_mem_singleton.mpr hanswer) (fun c' herror => ?_)
      fun other hother => ?_
    · cases hvalue : evaluate expr with
      | error h =>
          rw [hvalue] at herror hanswer
          cases h with
          | outOfFuel => exact hanswer rfl
          | _ => cases herror
      | ok v =>
          rw [hvalue] at herror
          cases v <;> cases herror
    · rw [List.forall_mem_singleton.mp hother]

theorem dataMode_consulting (m : Module) (segment : Nat) :
    Consulting fun e => dataMode e m segment := by
  have hoffset := activeOffset_consulting m segment
  refine (Consulting.lift _).bind fun flags => ?_
  match flags with
  | 0 => exact hoffset.bind fun _ => .pure _
  | 1 => exact .pure _
  | 2 => exact (Consulting.lift _).bind fun _ => hoffset.bind fun _ => .pure _
  | _ + 3 => exact .fail _

theorem segments_consulting (m : Module) : Consulting fun e => segments e m := by
  refine .entries (fun turn m => ?_) m
  exact (dataMode_consulting m turn).bind fun _ => (Consulting.lift _).bind fun _ =>
    (Consulting.lift _).bind fun _ => .pure _

/-- Sections of other numbers than that of data segments ask nothing. -/
theorem sectionReader_consulting {evaluate : Evaluator} {id : UInt8} (hid : id ≠ 11)
    {read : Module → Decoding Module} (h : sectionReader evaluate id = some read) :
    ∀ m, Consulting fun _ => read m := by
  revert hid
  refine sectionReader_cases (P := fun id read => id ≠ 11 →
    ∀ m, Consulting fun _ => read m)
    ?types ?imports ?functions ?memories ?globals ?exports ?codes
      ?segments ?count ?tags h
  case segments => exact fun hid => absurd rfl hid
  case codes => exact fun _ => codes_consulting
  case count => exact fun _ m => (Consulting.lift _).bind fun _ => .pure _
  all_goals
    exact fun _ m => .entries (fun _ m => (Consulting.lift _).bind fun _ => .pure _) m

theorem sectionReader_eq {id : UInt8} (hid : id ≠ 11) (evaluate other : Evaluator) :
    sectionReader evaluate id = sectionReader other id := by
  simp only [sectionReader, hid, if_false]

theorem custom_consulting (m : Module) : Consulting fun _ => custom m :=
  (Consulting.lift _).bind fun _ =>
    .ite (.get_bind fun _ _ => Consulting.pure _ _ _) (.pure m)

/-- What follows the header of a section. -/
theorem contents_consulting (m : Module) (id : UInt8) (start size : Nat)
    (contents : Cursor) :
    Consulting fun e => (match sectionReader e id with
      | some read => do
        let (m, after) ← within contents (read m)
        if after.isFinished then return m
        else fail (.format (.sectionLeft id start size after.remaining))
      | none =>
        if id = 0 then do
          let (m, _) ← within contents (custom m)
          return m
        else return m : Decoding Module) := by
  by_cases hid : id = 11
  · subst hid
    exact (Consulting.within contents (segments_consulting m)).bind fun _ =>
      .ite (.pure _) (.fail _)
  · simp only [fun e => sectionReader_eq hid e fun _ => .error .outOfFuel]
    cases hreader : sectionReader (fun _ => .error .outOfFuel) id with
    | some read =>
        exact (Consulting.within contents (sectionReader_consulting hid hreader m)).bind
          fun _ =>
          .ite (.pure _) (.fail _)
    | none =>
        exact .ite ((Consulting.within contents (custom_consulting m)).bind fun _ =>
          .pure _)
          (.pure m)

theorem oneSection_consulting (m : Module) : Consulting fun e => oneSection e m :=
  (Consulting.lift _).bind fun id => (Consulting.lift _).bind fun size =>
    (Consulting.lift _).bind fun start => (Consulting.lift _).bind fun contents =>
      contents_consulting m id start size contents

theorem sections_consulting (fuel : Nat) (m : Module) :
    Consulting fun e => sections e fuel m := by
  induction fuel generalizing m with
  | zero => exact .pure m
  | succ fuel ih =>
      exact .get_bind fun evaluate c =>
        Consulting.ite (.pure m) ((oneSection_consulting m).bind fun m =>
          ih m) evaluate c

theorem wholeModule_consulting : Consulting wholeModule :=
  (Consulting.lift _).bind fun _ => .get_bind fun evaluate c =>
    ((sections_consulting c.remaining {}).bind fun _ =>
      .ite (.pure _) (.fail _)) evaluate c

/-! ### Binaries without data segments -/

/-- A read is not waited for. -/
theorem lift_bind_eq_outOfFuel {r : Reading α} {f : α → Decoding β} {c c' : Cursor}
    (h : (liftM r >>= f) c = .error .outOfFuel c') :
    ∃ a mid, r c = .ok a mid ∧ f a mid = .error .outOfFuel c' := by
  rcases EStateM.bind_eq_error h with hread | ⟨a, mid, hread, hrest⟩
  · exact absurd hread ((Consulting.lift r).ne_outOfFuel c c')
  · exact ⟨a, mid, ofReading_eq_ok hread, hrest⟩

/-- Only a section of data segments is waited for. -/
theorem subsection_of_oneSection_waits {evaluate : Evaluator}
    {m : Module} {c c' : Cursor} (h : oneSection evaluate m c = .error .outOfFuel c') :
    ∃ contents after, Names.subsection c = .ok (11, contents) after := by
  obtain ⟨id, c₁, hid, hafterId⟩ := lift_bind_eq_outOfFuel h
  obtain ⟨size, c₂, hsize, hafterSize⟩ := lift_bind_eq_outOfFuel hafterId
  obtain ⟨start, c₃, hstart, hafterStart⟩ := lift_bind_eq_outOfFuel hafterSize
  cases hstart
  obtain ⟨contents, c₄, hwindow, hcontents⟩ := lift_bind_eq_outOfFuel hafterStart
  have hsubsection : Names.subsection c = .ok (id, contents) c₄ := by
    unfold Names.subsection
    rw [EStateM.bind_of_ok hid, EStateM.bind_of_ok hsize, EStateM.bind_of_ok hwindow]
    rfl
  by_cases hdata : id = 11
  · exact ⟨contents, c₄, hdata ▸ hsubsection⟩
  · have hfixed := contents_consulting m id c₂.offset size contents
    simp only [fun e => sectionReader_eq hdata e evaluate] at hfixed
    exact absurd hcontents (hfixed.ne_outOfFuel c₄ c')

theorem mem_sectionIds_of_waits {evaluate : Evaluator} {fuel : Nat}
    {m : Module} {c c' : Cursor}
    (h : sections evaluate fuel m c = .error .outOfFuel c') :
    11 ∈ sectionIds fuel c := by
  induction fuel generalizing m c with
  | zero => cases h
  | succ fuel ih =>
      rw [sections_succ] at h
      rw [sectionIds]
      split at h
      · cases h
      · next hmore =>
          rw [if_neg hmore]
          rcases EStateM.bind_eq_error h with hone | ⟨m', after, hone, hrest⟩
          · obtain ⟨contents, after, hsection⟩ := subsection_of_oneSection_waits hone
            rw [hsection]
            exact List.mem_cons_self
          · obtain ⟨id, contents, hsection, -⟩ := oneSection_contributes hone
            rw [hsection]
            exact List.mem_cons_of_mem _ (ih hrest)

end Decoding

/-- A binary without data segments is decoded without waiting. -/
theorem Module.mem_sectionIds_of_waits {evaluate : Evaluator} {bytes : Array UInt8}
    (h : decodeWith evaluate bytes = .error .outOfFuel) : 11 ∈ sectionIds bytes := by
  unfold decodeWith at h
  split at h
  · cases h
  · next halt c' hwhole =>
      cases h
      obtain ⟨⟨⟩, c₁, hheader, hrest⟩ := Decoding.lift_bind_eq_outOfFuel hwhole
      obtain rfl := Reading.header_eq_ok hheader
      rcases EStateM.bind_eq_error hrest with hget | ⟨c₂, c₃, hget, hsections⟩
      · cases hget
      · cases hget
        rcases EStateM.bind_eq_error hsections with hsections | ⟨m, c₄, -, hcheck⟩
        · exact Decoding.mem_sectionIds_of_waits hsections
        · split at hcheck <;> cases hcheck

end WasmVm
