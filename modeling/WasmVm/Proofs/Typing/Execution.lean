/-
One instruction of a typed body.  It never gets stuck, and afterwards its frame is
typed again, or will be once the values it asked for have been handed over.
-/
import WasmVm.Proofs.Typing.Frames

namespace WasmVm

variable {m : Module} {store : Store} {f : Frame} {Γ : Context}
  {answer taken left extra below : StackType}

/-- What an instruction leads to: an action, and a frame that is typed as soon as
what the action awaits is there. -/
def Continues (m : Module) (answer : StackType) (r : Frame × Action) : Prop :=
  ∃ waiting, r.2.Awaits m waiting ∧ FrameTyped m r.1 waiting answer

theorem Continues.proceed (h : FrameTyped m f [] answer) :
    Continues m answer (f, .proceed) :=
  ⟨[], .proceed, h⟩

/-- An instruction that changes nothing of its frame but the stack. -/
theorem Resumes.continues {stack : Stack} {waiting : StackType} {action : Action}
    (hframe : Resumes m f Γ answer (left ++ extra) below)
    (haction : action.Awaits m waiting)
    (hstack : waiting ++ stack.types = left ++ (extra ++ below)) :
    Continues m answer ({ f with stack }, action) := by
  refine ⟨waiting, haction, Γ, left ++ extra, below, ?_, hframe.withStack stack⟩
  rw [List.append_assoc]
  exact hstack

section Memory

theorem Memory.check_sound (memory : Memory) (start length : Nat) :
    Sound (fun _ => True) (memory.check start length) := by
  unfold Memory.check
  split
  · simp [Sound, Trap.Stuck, Trap.code]
  · exact trivial

theorem Store.needMemory_sound (store : Store) :
    Sound (fun _ => True) store.needMemory := by
  unfold Store.needMemory
  split
  · exact trivial
  · simp [Sound, Trap.Stuck, Trap.code]

/-- Instructions on memory and segments exchange operands for results; any other
one is not implemented there, which types do not rule out. -/
theorem Frame.executeMemory_sound {instr : Instr} {stack : Stack} {types : StackType}
    (hinstr : InstrTyped m Γ instr taken left) (hstack : stack.types = taken ++ types) :
    Sound (fun r => r.1.types = left ++ types ∧ r.2.Awaits m [])
      (Frame.executeMemory store stack instr) := by
  cases hinstr with
  | load =>
      apply Stack.popI32_bind hstack
      intro address rest hrest
      apply store.needMemory_sound.bind
      intro memory _
      refine Sound.bind (P := fun _ => True) ?_ fun bytes _ => ?_
      · exact (memory.check_sound _ _).bind fun _ _ => trivial
      · exact ⟨by simpa using hrest, .proceed⟩
  | store =>
      apply Stack.pop_bind hstack
      intro v rest hv hrest
      apply Stack.popI32_bind hrest
      intro address rest hrest
      apply store.needMemory_sound.bind
      intro memory _
      apply (StoreOp.encode_sound _ hv).bind
      intro bytes _
      exact (memory.check_sound _ _).bind fun _ _ => ⟨hrest, .write⟩
  | memorySize =>
      apply store.needMemory_sound.bind
      intro memory _
      exact ⟨by simpa [Value.type] using hstack, .proceed⟩
  | memoryGrow =>
      apply Stack.popI32_bind hstack
      intro delta rest hrest
      apply store.needMemory_sound.bind
      intro memory _
      split
      · exact ⟨by simpa [Value.type] using hrest, .grow⟩
      · exact ⟨by simpa [Value.type] using hrest, .proceed⟩
  | memoryFill =>
      apply Stack.popI32_bind hstack
      intro length rest hrest
      apply Stack.popI32_bind hrest
      intro value rest hrest
      apply Stack.popI32_bind hrest
      intro target rest hrest
      apply store.needMemory_sound.bind
      intro memory _
      exact (memory.check_sound _ _).bind fun _ _ => ⟨hrest, .write⟩
  | memoryCopy =>
      apply Stack.popI32_bind hstack
      intro length rest hrest
      apply Stack.popI32_bind hrest
      intro source rest hrest
      apply Stack.popI32_bind hrest
      intro target rest hrest
      apply store.needMemory_sound.bind
      intro memory _
      apply (memory.check_sound _ _).bind
      intro _ _
      exact (memory.check_sound _ _).bind fun _ _ => ⟨hrest, .write⟩
  | memoryInit =>
      apply Stack.popI32_bind hstack
      intro length rest hrest
      apply Stack.popI32_bind hrest
      intro source rest hrest
      apply Stack.popI32_bind hrest
      intro target rest hrest
      dsimp only
      split
      · exact Sound.throw (by simp [Trap.Stuck, Trap.code])
      · split
        · exact Sound.throw (by simp [Trap.Stuck, Trap.code])
        · apply store.needMemory_sound.bind
          intro memory _
          exact (memory.check_sound _ _).bind fun _ _ => ⟨hrest, .write⟩
  | dataDrop => exact ⟨hstack, .dropSegment⟩
  | _ => exact Sound.throw (by simp [Trap.Stuck, Trap.code])

end Memory

/-- A global that is typed is read as a value of its type, or as one that has to be
computed first. -/
theorem Store.readGlobal_sound {index : Nat} {t : ValType} (hstore : store.Typed m)
    (hglobal : m.globalType? index = some t) :
    Sound (fun r => ∀ v ∈ r, Value.type v = t) (store.readGlobal index) := by
  unfold Store.readGlobal
  split
  · rename_i v hready
    have htype := hstore index v hready
    rw [hglobal] at htype
    intro u hu
    obtain rfl := Option.some.inj hu
    exact (Option.some.inj htype).symm
  · simp [Sound]
  all_goals simp [Sound, Trap.Stuck, Trap.code]

/-- A local that is typed can be read. -/
theorem Frame.getLocal_sound {index : Nat} {t : ValType}
    (hlocals : f.locals.toList.map Value.type = Γ.locals)
    (hlocal : Γ.locals[index]? = some t) :
    Sound (fun v => v.type = t) (f.getLocal index) := by
  rw [← hlocals, List.getElem?_map, Option.map_eq_some_iff] at hlocal
  obtain ⟨v, hv, htype⟩ := hlocal
  rw [Array.getElem?_toList] at hv
  simp only [Frame.getLocal, hv]
  exact htype

/-- Setting a local to a value of its type keeps all locals typed. -/
theorem Frame.setLocal_sound {index : Nat} {v : Value} {above : StackType}
    (hframe : Resumes m f Γ answer above below)
    (hlocal : Γ.locals[index]? = some v.type) :
    Sound (fun g => Resumes m g Γ answer above below ∧ g.stack = f.stack)
      (f.setLocal index v) := by
  have hget := hlocal
  rw [← hframe.locals, List.getElem?_map, Option.map_eq_some_iff] at hget
  obtain ⟨old, hold, htype⟩ := hget
  obtain ⟨hindex, _⟩ := List.getElem?_eq_some_iff.1 hold
  rw [Array.length_toList] at hindex
  rw [Frame.setLocal, if_pos hindex]
  refine ⟨⟨hframe.promise, ?_, hframe.scopes⟩, rfl⟩
  rw [← hframe.locals, Array.toList_setIfInBounds, List.map_set, ← htype]
  apply List.ext_getElem?
  intro i
  rw [List.getElem?_set]
  split
  · rename_i hi
    subst hi
    rw [List.getElem?_map, hold]
    simp [hindex]
  · rfl

/-- An instruction that opens no scope. -/
theorem Frame.executePlain_sound {instr : Instr} (hstore : store.Typed m)
    (hframe : Resumes m f Γ answer (left ++ extra) below)
    (hinstr : InstrTyped m Γ instr taken left)
    (hstack : f.stack.types = taken ++ (extra ++ below)) :
    Sound (Continues m answer) (f.executePlain store instr) := by
  have hmemory : Sound (Continues m answer)
      (Frame.executeMemory store f.stack instr >>= fun r =>
        pure ({ f with stack := r.1 }, r.2)) := by
    apply (Frame.executeMemory_sound hinstr hstack).bind
    rintro ⟨stack, action⟩ ⟨htypes, haction⟩
    exact hframe.continues haction htypes
  cases hinstr with
  | unreachable => exact Sound.throw (by simp [Trap.Stuck, Trap.code])
  | throwTag => exact Sound.throw (by simp [Trap.Stuck, Trap.code])
  | rethrow => exact Sound.throw (by simp [Trap.Stuck, Trap.code])
  | callIndirect => exact Sound.throw (by simp [Trap.Stuck, Trap.code])
  | delegate => exact hframe.continues .proceed hstack
  | br hlabel =>
      rw [List.append_assoc, ← List.append_assoc _ extra] at hstack
      exact (Frame.branch_sound hframe hlabel hstack).bind fun g hg => .proceed hg
  | brIf hlabel =>
      apply Stack.popCondition_bind hstack
      intro condition rest hrest
      dsimp only
      split
      · apply (Frame.branch_sound (hframe.withStack rest) hlabel hrest).bind
        exact fun g hg => .proceed hg
      · exact hframe.continues .proceed hrest
  | @brTable targets fallback label rest left hlabels =>
      rw [List.cons_append, List.append_assoc, ← List.append_assoc _ extra] at hstack
      apply Stack.popI32_bind hstack
      intro index rest hrest
      have hmem : targets[index.toNat]?.getD fallback ∈ fallback :: targets := by
        cases htarget : targets[index.toNat]? with
        | none => exact List.mem_cons_self
        | some depth => exact List.mem_cons_of_mem _ (List.mem_of_getElem? htarget)
      apply (Frame.branch_sound (hframe.withStack rest) (hlabels _ hmem) hrest).bind
      exact fun g hg => .proceed hg
  | @returnOp result rest left hreturns =>
      refine .proceed ⟨{ Γ with labels := [] }, f.stack.types,
        [], by simp, ?_, hframe.locals, ?_⟩
      · exact hframe.promise
      · have hanswer : result = answer := (hreturns ▸ hframe.promise).returns_eq
        rw [hreturns, hstack, hanswer, List.append_assoc]
        exact .nil (Ends.append answer _)
  | @call target type htype hparams =>
      have hpop := Stack.popMany_sound hstack
      rw [List.length_reverse, ← hparams] at hpop
      apply hpop.bind
      rintro ⟨args, rest⟩ ⟨hargs, hrest⟩
      rw [List.reverse_reverse] at hargs
      have hwaiting : type.results.reverse ++ rest.types =
          type.results.reverse ++ (extra ++ below) := by
        rw [hrest]
      dsimp only
      split
      · exact hframe.continues (.call htype hargs) hwaiting
      · exact hframe.continues (.callHost htype hargs) hwaiting
  | drop =>
      apply Stack.pop_bind hstack
      intro v rest _ hrest
      exact hframe.continues .proceed hrest
  | select =>
      apply Stack.popCondition_bind hstack
      intro condition rest hrest
      apply Stack.pop_bind hrest
      intro second rest hsecond hrest
      apply Stack.pop_bind hrest
      intro first rest hfirst hrest
      apply hframe.continues .proceed
      cases condition
      · simpa [hsecond] using hrest
      · simpa [hfirst] using hrest
  | localGet hlocal =>
      apply (Frame.getLocal_sound hframe.locals hlocal).bind
      intro v hv
      apply hframe.continues .proceed
      simp [hv, hstack]
  | localSet hlocal =>
      apply Stack.pop_bind hstack
      intro v rest hv hrest
      rw [← hv] at hlocal
      apply (Frame.setLocal_sound (hframe.withStack rest) hlocal).bind
      rintro g ⟨hg, hsame⟩
      exact .proceed (hg.typed (by rw [hsame]; exact hrest))
  | localTee hlocal =>
      apply Stack.pop_bind hstack
      intro v rest hv hrest
      rw [← hv] at hlocal
      apply (Frame.setLocal_sound hframe hlocal).bind
      rintro g ⟨hg, hsame⟩
      exact .proceed (hg.typed (by rw [hsame, List.append_assoc]; exact hstack))
  | globalGet hglobal =>
      apply (Store.readGlobal_sound hstore hglobal).bind
      rintro (_ | v) hv
      · exact hframe.continues (.startGlobal hglobal) (by simp [hstack])
      · exact hframe.continues .proceed (by simp [hv v rfl, hstack])
  | globalSet hglobal =>
      apply Stack.pop_bind hstack
      intro v rest hv hrest
      dsimp only
      split
      · exact hframe.continues (.setGlobal (hv ▸ hglobal)) hrest
      · exact Sound.throw (by simp [Trap.Stuck, Trap.code])
  | const => exact hframe.continues .proceed (by simp [hstack])
  | numeric =>
      apply (NumOp.apply_sound _ hstack).bind
      intro stack hresult
      exact hframe.continues .proceed hresult
  | load => exact hmemory
  | store => exact hmemory
  | memorySize => exact hmemory
  | memoryGrow => exact hmemory
  | memoryCopy => exact hmemory
  | memoryFill => exact hmemory
  | memoryInit => exact hmemory
  | dataDrop => exact hmemory

/-- Any instruction. -/
theorem Frame.execute_sound {node : Node} (hstore : store.Typed m)
    (hframe : Resumes m f Γ answer (left ++ extra) below)
    (hnode : NodeTyped m Γ node taken left)
    (hstack : f.stack.types = taken ++ (extra ++ below)) :
    Sound (Continues m answer) (f.execute m store node) := by
  cases hnode with
  | plain hinstr => exact Frame.executePlain_sound hstore hframe hinstr hstack
  | block hkind hblock hbody =>
      rcases hkind with rfl | rfl
      · exact .proceed (Frame.enter_typed hframe hblock hstack hbody)
      · exact .proceed (Frame.enter_typed hframe hblock hstack hbody)
  | loop hblock hbody => exact .proceed (Frame.enter_typed hframe hblock hstack hbody)
  | ifThen hblock hsame hbody =>
      apply Stack.popCondition_bind hstack
      intro condition rest hrest
      dsimp only
      split
      · exact .proceed (Frame.enter_typed (hframe.withStack rest) hblock hrest hbody)
      · exact hframe.continues .proceed (by rw [← hsame]; exact hrest)
  | ifElse hblock hbody hother =>
      apply Stack.popCondition_bind hstack
      intro condition rest hrest
      dsimp only
      split
      · exact .proceed (Frame.enter_typed (hframe.withStack rest) hblock hrest hbody)
      · exact .proceed (Frame.enter_typed (hframe.withStack rest) hblock hrest hother)

end WasmVm
