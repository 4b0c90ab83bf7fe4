/-
Bodies decode alike with and without checks.  While instructions are nested some scope
is always open, and each of them takes a byte, so that the loop has fuel enough.
-/
import WasmVm.Proofs.Decoding.CheckedReads

namespace WasmVm.Checked

open Decoding

variable {α β : Type} {c : Cursor}

theorem require_bind_agrees {P : α → Prop} {p : Prop} [Decidable p]
    {f : Unit → Decoding α}
    {y : Decoding α} (hp : p) (h : Agrees P (f ()) y) :
    Agrees P (require p >>= f) y := by
  intro c hc
  unfold AgreesAt
  rw [EStateM.bind_of_ok (require_of hp)]
  exact h c hc

theorem fixed_bind_agrees {Q : β → Prop} {count : Nat} {f : Nat → Decoding β}
    {g : Array UInt8 → Decoding β}
    (hf : ∀ taken, Agrees Q (f (ofLittleEndian taken.toList)) (g taken)) :
    Agrees Q (fixed count >>= f) (liftM (Reading.bytes count) >>= g) := by
  unfold fixed
  rw [bind_assoc]
  refine (bytes_agrees count).bind fun taken htaken => ?_
  rw [bind_assoc]
  exact require_bind_agrees htaken (hf taken)

theorem constant_agrees (t : ValType) :
    Agrees (fun _ => True) (constant t) (liftM (Reading.constant t)) := by
  cases t with
  | i32 | i64 => exact .lift_any (Reading.constant_reads _).onward
  | f32 =>
      unfold Reading.constant Reading.f32
      rw [lift_bind, lift_bind, bind_assoc]
      exact fixed_bind_agrees fun taken => .pure trivial
  | f64 =>
      unfold Reading.constant Reading.f64
      rw [lift_bind, lift_bind, bind_assoc]
      exact fixed_bind_agrees fun taken => .pure trivial

theorem callTarget_agrees (m : Module) (owner : String) :
    Agrees (fun _ => True) (callTarget m owner)
      (liftM (Reading.callTarget m owner)) := by
  unfold callTarget Reading.callTarget
  simp only [lift_bind]
  refine (Agrees.lift_any Reading.offset_onward).bind fun start _ => ?_
  refine (Agrees.lift_any Reading.u32_onward).bind fun function _ => ?_
  have hdefined : (m.functionImport? function).isNone →
      m.importedFunctions ≤ function :=
    fun hnone => List.getElem?_eq_none_iff.mp (Option.isNone_iff_eq_none.mp hnone)
  refine require_bind_agrees hdefined ?_
  cases m.callTarget? function with
  | some target => exact .pure trivial
  | none => exact .fail _

theorem item_agrees (m : Module) (owner : String) :
    Agrees (fun _ => True) (item m owner) (liftM (Reading.item m owner)) := by
  unfold item Reading.item
  rw [lift_bind]
  refine (Agrees.lift_any Reading.opcode_reads.onward).bind fun op _ => ?_
  cases op with
  | const t =>
      unfold Reading.operands
      rw [lift_bind]
      exact (constant_agrees t).bind fun _ _ => .pure trivial
  | call =>
      unfold Reading.operands
      rw [lift_bind]
      exact (callTarget_agrees m owner).bind fun _ _ => .pure trivial
  | _ => exact .lift_any (Reading.operands_reads _).onward

/-- At the bottom of the open scopes is the body itself. -/
def Grounded (scopes : List OpenScope) : Prop :=
  ∃ root, scopes.getLast? = some root ∧ root.kind = .block

/-- The open scopes as a stack. -/
def stack (s : Scopes) : List OpenScope :=
  s.top :: s.outer

/-- What placing an instruction leads to, with the open scopes as a stack. -/
def ofPlaced : Except StructureFault WasmVm.Placed → Except Halt Placed
  | .error fault => refuse fault
  | .ok (.done root) => .ok (.done root)
  | .ok (.more s) => .ok (.more (stack s))

section Grounded

variable {s : Scopes}

/-- The innermost scope may change in what it holds. -/
theorem Grounded.setTop (h : Grounded (stack s)) {scope : OpenScope}
    (hkind : scope.kind = s.top.kind) : Grounded (scope :: s.outer) := by
  obtain ⟨root, hroot, hblock⟩ := h
  unfold stack at hroot
  cases houter : s.outer with
  | nil =>
      rw [houter] at hroot
      cases hroot
      exact ⟨scope, rfl, hkind.trans hblock⟩
  | cons next outer =>
      rw [houter, List.getLast?_cons_cons] at hroot
      exact ⟨root, by rw [List.getLast?_cons_cons, hroot], hblock⟩

/-- A scope that is not a block is not at the bottom. -/
theorem Grounded.nested (h : Grounded (stack s)) (hkind : s.top.kind ≠ .block) :
    1 < (stack s).length := by
  obtain ⟨root, hroot, hblock⟩ := h
  unfold stack at hroot ⊢
  cases houter : s.outer with
  | nil =>
      rw [houter] at hroot
      cases hroot
      exact absurd hblock hkind
  | cons next outer => simp

theorem kind_push (scope : OpenScope) (node : Node) :
    (scope.push node).kind = scope.kind := by
  unfold OpenScope.push
  split <;> rfl

/-- A scope that is around another one. -/
theorem Grounded.close (h : Grounded (stack s)) {s' : Scopes}
    (hclose : s.close = .more s') :
    Grounded (stack s') := by
  obtain ⟨root, hroot, hblock⟩ := h
  unfold Scopes.close at hclose
  unfold stack at hroot
  cases houter : s.outer with
  | nil =>
      rw [houter] at hclose
      cases hclose
  | cons next outer =>
      rw [houter] at hclose hroot
      cases hclose
      rw [List.getLast?_cons_cons] at hroot
      exact Grounded.setTop (s := ⟨next, outer⟩) ⟨root, hroot, hblock⟩ (kind_push _ _)

theorem leave_eq (hnested : 1 < (stack s).length) :
    leave (stack s) = ofPlaced (.ok s.close) := by
  unfold stack at hnested ⊢
  unfold Scopes.close
  cases houter : s.outer with
  | nil =>
      rw [houter] at hnested
      simp at hnested
  | cons next outer => rfl

/-- A mark that its scope takes is not at the bottom, so that need not be asked. -/
theorem mark_eq {takes : Bool} (hnested : takes = true → 1 < (stack s).length)
    {α : Type} (x y : α) :
    (if 1 < (stack s).length ∧ takes = true then x else y) = if takes then x
      else y := by
  by_cases htakes : takes = true
  · rw [if_pos ⟨hnested htakes, htakes⟩, if_pos htakes]
  · rw [if_neg (fun hboth => htakes hboth.2), if_neg htakes]

end Grounded

/-- Placing an instruction never finds the stack of scopes empty. -/
theorem place_eq (owner : String) (id offset : Nat) {s : Scopes}
    (h : Grounded (stack s)) (item : Item) :
    place owner id offset (stack s) item = ofPlaced (s.place owner id offset item) := by
  -- The marks are taken by scopes of other kinds than that of the body at the bottom.
  have hnested {kind : ScopeKind} (hkind : kind ≠ .block) {more : Bool}
      (htakes : (s.top.kind == kind && more) = true) : 1 < (stack s).length := by
    obtain ⟨htop, -⟩ := Bool.and_eq_true_iff.mp htakes
    rw [beq_iff_eq] at htop
    exact h.nested (htop ▸ hkind)
  have helse : s.top.takesElse = true → 1 < (stack s).length := hnested (by decide)
  have hhandler : s.top.takesHandler = true → 1 < (stack s).length :=
    hnested (by decide)
  have hdelegate : s.top.takesDelegate = true → 1 < (stack s).length :=
    hnested (by decide)
  cases item with
  | nop | openScope | plain => rfl
  | otherwise =>
      refine (mark_eq helse _ _).trans ?_
      simp only [Scopes.place]
      split <;> rfl
  | catchTag tag =>
      refine (mark_eq hhandler _ _).trans ?_
      simp only [Scopes.place]
      split <;> rfl
  | catchAll =>
      refine (mark_eq hhandler _ _).trans ?_
      simp only [Scopes.place]
      split <;> rfl
  | delegate depth =>
      refine (mark_eq hdelegate _ _).trans ?_
      simp only [Scopes.place]
      split
      · next htakes =>
          exact leave_eq (s := s.push (.plain id (.delegate depth))) (hdelegate htakes)
      · rfl
  | close =>
      change (if (stack s).length = 1 then _ else leave (stack s)) =
        ofPlaced (.ok s.close)
      by_cases hbottom : (stack s).length = 1
      · have houter : s.outer = [] := List.length_eq_zero_iff.mp (Nat.succ.inj hbottom)
        rw [if_pos hbottom, Scopes.close, houter]
        rfl
      · rw [if_neg hbottom]
        exact leave_eq (by
          unfold stack at hbottom ⊢
          rw [List.length_cons] at hbottom ⊢
          omega)

/-- The body stays at the bottom. -/
theorem place_grounded {id : Nat} {s s' : Scopes} {item : Item} (h : Grounded (stack s))
    (hplaces : s.Places id item (.more s')) : Grounded (stack s') := by
  generalize hplaced : WasmVm.Placed.more s' = placed at hplaces
  cases hplaces with
  | nop =>
      cases hplaced
      exact h
  | openScope =>
      cases hplaced
      obtain ⟨root, hroot, hblock⟩ := h
      exact ⟨root, hroot, hblock⟩
  | otherwise | catchTag | catchAll =>
      cases hplaced
      exact h.setTop rfl
  | plain =>
      cases hplaced
      exact h.setTop (kind_push _ _)
  | close => exact h.close hplaced.symm
  | @delegate depth _ =>
      exact Grounded.close (s := s.push (.plain id (.delegate depth)))
        (h.setTop (kind_push _ _)) hplaced.symm

/-- The loop that nests instructions.  Every turn takes a byte, so there is always fuel
for the next one. -/
theorem nest_eq (m : Module) (owner : String) {fuel id : Nat} {s : Scopes}
    (h : Grounded (stack s)) (hc : c.InWindow) (hfuel : c.remaining ≤ fuel) :
    nest m owner (fuel + 1) id (stack s) c =
      (liftM (Reading.nest m owner fuel id s) : Decoding Node) c := by
  induction fuel generalizing id s c with
  | zero =>
      have hfinished := Cursor.isFinished_iff_remaining.mpr (Nat.le_zero.mp hfuel)
      rw [nest, EStateM.get_bind, if_pos hfinished]
      rfl
  | succ fuel ih =>
      rw [nest, EStateM.get_bind]
      change _ = ofReading (Reading.nest m owner (fuel + 1) id s) c
      unfold ofReading Reading.nest
      by_cases hfinished : c.isFinished = true
      · rw [if_pos hfinished, if_pos hfinished]
        rfl
      rw [if_neg hfinished, if_neg hfinished,
        EStateM.bind_of_ok
          (lift_of_ok (show Reading.offset c = .ok c.offset c from rfl))]
      obtain ⟨hsame, hsafe⟩ := item_agrees m owner c hc
      cases hitem : Reading.item m owner c with
      | error e c' =>
          have hlift := hsame.trans (lift_of_error hitem)
          rw [EStateM.bind_of_error hlift]
      | ok item after =>
          have hlift := hsame.trans (lift_of_ok hitem)
          rw [lift_of_ok hitem] at hsafe
          rw [EStateM.bind_of_ok hlift, place_eq owner id c.offset h]
          dsimp only
          cases hplace : s.place owner id c.offset item with
          | error fault => rfl
          | ok placed =>
              cases placed with
              | done root => rfl
              | more s' =>
                  obtain ⟨bytes, hbytes, hahead, rfl⟩ :=
                    (Reading.item_reads c item after).mp hitem
                  have hpos := hbytes.length_pos
                  have hlength := hahead.length_le
                  rw [Cursor.length_rest] at hlength
                  have hless : (c.advance bytes.length).remaining ≤ fuel := by
                    simp only [Cursor.remaining, Cursor.bytes_advance,
                      Cursor.pos_advance]
                      at hfuel hlength ⊢
                    omega
                  exact ih (place_grounded h (Scopes.place_eq_ok.mp hplace))
                    hsafe.2.inWindow hless

theorem body_agrees (m : Module) (owner : String) (type : BlockType) :
    Agrees (fun _ => True) (body m owner type) (liftM (Reading.body m owner type)) := by
  intro c hc
  refine ⟨?_, (Agrees.lift_any (Reading.body_reads m owner type).onward c hc).2⟩
  have hbottom : Grounded (stack (.start type)) := ⟨_, rfl, rfl⟩
  exact nest_eq m owner hbottom hc (Nat.le_refl _)

end WasmVm.Checked
