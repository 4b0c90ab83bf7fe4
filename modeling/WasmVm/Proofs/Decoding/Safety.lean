/-
Nothing is out of range while a module is decoded.  The decoder with all accesses
checked does the same as the decoder: positions never leave their windows, so no check
ever fails, and every turn of a loop takes a byte, so no fuel is used up.
-/
import WasmVm.Proofs.Decoding.CheckedSections

namespace WasmVm

/-! ### Whole modules -/

namespace Checked

open Decoding

variable {evaluate evaluate' : List UInt8 → Except Halt Value}

theorem header_agrees : Agrees (fun _ => True) header (liftM Reading.header) := by
  intro c hc
  change header c = ofReading Reading.header c ∧ Safe _ c (ofReading Reading.header c)
  unfold header ofReading Reading.header
  obtain ⟨hsame, hsafe⟩ := bytes_agrees 4 c hc
  rw [hsame]
  cases hmagic : Reading.bytes 4 c with
  | error e c' =>
      rw [lift_of_error hmagic]
      exact ⟨rfl, Halt.noConfusion⟩
  | ok magic c' =>
      rw [lift_of_ok hmagic] at hsafe ⊢
      dsimp only
      split
      · exact ⟨rfl, Halt.noConfusion⟩
      obtain ⟨hsame', hsafe'⟩ := bytes_agrees 4 c' hsafe.2.inWindow
      rw [hsame']
      cases hversion : Reading.bytes 4 c' with
      | error e c'' =>
          rw [lift_of_error hversion]
          exact ⟨rfl, Halt.noConfusion⟩
      | ok version c'' =>
          rw [lift_of_ok hversion] at hsafe' ⊢
          dsimp only
          split
          · exact ⟨rfl, Halt.noConfusion⟩
          · exact ⟨rfl, trivial, hsafe.2.trans hsafe'.2⟩

theorem wholeModule_agrees (hevaluate : SafeEvaluator evaluate' evaluate) :
    Agrees Module.InRange (wholeModule evaluate') (Decoding.wholeModule evaluate) := by
  refine header_agrees.bind fun _ _ c hc => .get_bind ?_
  have hstart : Module.InRange {} :=
    ⟨by simp, by simp, by simp, by simp, by simp, by simp⟩
  refine (sections_agree hevaluate hstart hc (Nat.le_refl _)).bind
    fun m c' _ hm hc' => ?_
  exact Agrees.ite (fun _ => .pure hm) (fun _ => .fail _) c' hc'.inWindow

theorem decodeWith_eq (hevaluate : SafeEvaluator evaluate' evaluate)
    (bytes : Array UInt8) :
    decodeWith evaluate' bytes = Module.decodeWith evaluate bytes ∧
      Module.decodeWith evaluate bytes ≠ .error .badIndex := by
  obtain ⟨hsame, hsafe⟩ := wholeModule_agrees hevaluate
    (Cursor.ofBytes bytes) (Nat.zero_le _)
  unfold decodeWith Module.decodeWith
  rw [hsame]
  refine ⟨rfl, ?_⟩
  cases hwhole : Decoding.wholeModule evaluate (Cursor.ofBytes bytes) with
  | ok m c => exact nofun
  | error h c =>
      rw [hwhole] at hsafe
      rintro ⟨⟩
      exact hsafe rfl

end Checked

/-! ### Constant expressions -/

theorem State.run_ne_badIndex {ω σ : Type} (env : Env ω σ) (fuel : Nat)
    (s : State ω σ) :
    (s.run env fuel).1 ≠ .error .badIndex := by
  induction fuel generalizing s with
  | zero => exact nofun
  | succ fuel ih =>
      rw [run]
      cases advance env s with
      | running s' => exact ih s'
      | done result world => cases result <;> exact nofun

theorem Env.evaluate_ne_badIndex {ω σ : Type} (env : Env ω σ)
    (fuel : Nat) (w : World ω σ)
    (function : Nat) : (env.evaluate fuel w function).1 ≠ .error .badIndex := by
  unfold evaluate
  cases Frame.ofFunction env.module .constant function [] none with
  | error t => exact nofun
  | ok frame => exact State.run_ne_badIndex env fuel _

namespace Checked

/-- Constant expressions are evaluated in the same way. -/
theorem evaluate_safe (fuel : Nat) :
    SafeEvaluator (evaluate fuel) (ConstExpr.evaluate fuel) := by
  intro expr
  have hnone : SafeEvaluator (fun _ => .error .outOfFuel)
      (fun _ => .error .outOfFuel) :=
    fun _ => ⟨rfl, by rintro ⟨⟩⟩
  obtain ⟨hsame, hindex⟩ := decodeWith_eq hnone (ConstExpr.wrap expr).toArray
  unfold evaluate ConstExpr.evaluate ConstExpr.decode
  rw [hsame]
  generalize Module.decodeWith _ _ = decoded at hindex
  cases decoded with
  | error h =>
      exact ⟨rfl, fun hbad => hindex (congrArg Except.error (Except.error.inj hbad))⟩
  | ok m =>
      have hrun := (ConstExpr.env m).evaluate_ne_badIndex fuel ⟨.ofModule m, (), ()⟩ 0
      dsimp only
      generalize (ConstExpr.env m).evaluate fuel ⟨.ofModule m, (), ()⟩ 0 = r at hrun ⊢
      obtain ⟨result, world⟩ := r
      match result with
      | .error h =>
          exact ⟨rfl, fun hbad => hrun (congrArg Except.error (Except.error.inj hbad))⟩
      | .ok [] => exact ⟨rfl, nofun⟩
      | .ok (v :: _) => exact ⟨rfl, nofun⟩

theorem decode_eq (fuel : Nat) (bytes : Array UInt8) :
    decode fuel bytes = Module.decode fuel bytes ∧
      Module.decode fuel bytes ≠ .error .badIndex :=
  decodeWith_eq (evaluate_safe fuel) bytes

end Checked

/-- Decoding is safe, and decoded modules are consistent.  With all accesses checked no
check ever fails and no loop over the input stops early, whatever the input.  In a
module that is accepted all signatures that it names exist, its memories have valid
sizes, and every function has a signature and either an import or a body. -/
theorem decoding_stays_in_range (fuel : Nat) (bytes : Array UInt8) :
    Checked.decode fuel bytes = Module.decode fuel bytes ∧
      Module.decode fuel bytes ≠ .error .badIndex ∧
      ∀ m, Module.decode fuel bytes = .ok m →
        m.InRange ∧ m.codes.size = m.functions.size ∧
          ∀ function < m.importedFunctions + m.functions.size,
            (∃ type, m.functionType? function = some type) ∧
              (m.code? function).isSome = !(m.functionImport? function).isSome := by
  obtain ⟨hsame, hindex⟩ := Checked.decode_eq fuel bytes
  refine ⟨hsame, hindex, fun m hdecode => ?_⟩
  obtain ⟨hm, hsize⟩ := Module.decodeWith_inRange hdecode
  refine ⟨hm, hsize, fun function hfunction => ⟨?_, ?_⟩⟩
  · exact hm.functionType?_eq_some hfunction
  · exact Module.isSome_code?_eq hsize hfunction

namespace SafetyWitness

open ConsistencyWitness

/-- The indices are in range even if the imports come last. -/
theorem imports_last_in_range :
    (caller none).InRange ∧ ((caller none).functionImport? 0).isSome = true ∧
      ((caller none).code? 1).isSome = true := by
  obtain ⟨-, -, haccepted⟩ := decoding_stays_in_range 0
    (header ++ typeSection ++ functionSection ++ codeSection ++ importSection).toArray
  obtain ⟨hm, -, hfunctions⟩ := haccepted (caller none) decode_imports_last
  have himport : (caller none).functionImport? 0 = some ⟨"m", "n", .function 0⟩ := by
    with_unfolding_all rfl
  have hdefined : (caller none).functionImport? 1 = none := by with_unfolding_all rfl
  obtain ⟨-, hcode⟩ := hfunctions 1 (by decide)
  rw [hdefined] at hcode
  exact ⟨hm, by rw [himport]; rfl, hcode⟩

end SafetyWitness

end WasmVm
