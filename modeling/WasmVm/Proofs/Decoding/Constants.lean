/-
Constant expressions.  The module that is made for an expression is an encoded module,
so it is decoded to what it was made from.
-/
import WasmVm.Proofs.Decoding.Encoded

namespace WasmVm

open Leb128

namespace ConstExpr

/-- The module made for an expression with a body. -/
def wrapper (root : Node) : Module where
  types := #[⟨[], []⟩]
  functions := #[0]
  codes := #[⟨#[], 0, root⟩]

theorem encodeSection_encodes {id : UInt8} {P : List UInt8 → Prop}
    {contents : List UInt8}
    (hsize : contents.length < 2 ^ 32) (hcontents : P contents) :
    SectionEncodes id P (encodeSection id contents) :=
  ⟨encode contents.length, contents, rfl, encode_u32 hsize, hcontents⟩

/-- The bytes made for an expression encode the module made for it. -/
theorem wrap_encodes {root : Node} {expr : List UInt8}
    (hbody : BodyEncodes (wrapper root) (.func 0) root expr)
    (hsize : expr.length + 7 < 2 ^ 32) :
    (wrapper root).Encodes (wrap expr) := by
  have hempty : Counted ValType.Encodes [] [0] :=
    ⟨[0], [], rfl, u32_singleton (by decide), .nil⟩
  have htypes : Counted FuncType.Encodes [⟨[], []⟩] [1, 0x60, 0, 0] := by
    have htype : FuncType.Encodes ⟨[], []⟩ [0x60, 0, 0] :=
      ⟨[0], [0], rfl, hempty, hempty⟩
    exact ⟨[1], _, rfl, u32_singleton (by decide), .cons htype .nil⟩
  have hfunctions : Counted (TypeIndexEncodes (wrapper root)) [0] [1, 0] := by
    have hindex : TypeIndexEncodes (wrapper root) 0 [0] :=
      ⟨u32_singleton (by decide), by simp [wrapper]⟩
    exact ⟨[1], _, rfl, u32_singleton (by decide), .cons hindex .nil⟩
  have hlength := length_encodeFrom_le (0 :: expr).length.log2 (0 :: expr).length 4 (by
    rw [List.length_cons]
    omega)
  have hcodes : Counted (fun entry => Code.Encodes (wrapper root) entry.1 entry.2)
      [(0, ⟨#[], 0, root⟩)] (1 :: (encode (0 :: expr).length ++ (0 :: expr))) := by
    have hcode : Code.Encodes (wrapper root) 0 ⟨#[], 0, root⟩
        (encode (0 :: expr).length ++ ([0] ++ expr)) := by
      refine ⟨⟨[], []⟩, [], _, [0], expr, rfl, encode_u32 ?_, rfl, rfl,
        rfl, by simp, ?_, hbody⟩
      · rw [List.length_append, List.length_singleton]
        omega
      · exact ⟨[0], [], rfl, u32_singleton (by decide), .nil⟩
    refine ⟨[1], encode (0 :: expr).length ++ ([0] ++ expr) ++ [], ?_,
      u32_singleton (by decide), .cons hcode .nil⟩
    rw [List.append_nil]
    rfl
  refine ⟨encodeSection 1 [1, 0x60, 0, 0], [], encodeSection 3 [1, 0],
    [], [], [], [], [], encodeSection 10
    (1 :: (encode (0 :: expr).length ++ (0 :: expr))), [], ?_, ?_⟩
  · exact {
      types := .inr (encodeSection_encodes (by decide) htypes)
      imports := .inl ⟨rfl, rfl⟩
      functions := .inr (encodeSection_encodes (by decide) hfunctions)
      memories := .inl ⟨rfl, rfl⟩
      tags := .inl ⟨rfl, rfl⟩
      globals := .inl ⟨rfl, rfl⟩
      exports := .inl ⟨rfl, rfl⟩
      count := rfl
      size := rfl
      codes := .inr (encodeSection_encodes (by
        rw [encode, List.length_cons, List.length_append, List.length_cons]
        simp only [List.length_cons] at hlength
        omega) hcodes)
      segments := .inl ⟨rfl, rfl⟩
      names := rfl }
  · simp [wrap]

theorem decode_of_body {root : Node} {expr : List UInt8}
    (hbody : BodyEncodes (wrapper root) (.func 0) root expr)
    (hsize : expr.length + 7 < 2 ^ 32) :
    decode expr = .ok (wrapper root) := by
  rw [decode]
  exact Module.decodeWith_of_encodes (wrap_encodes hbody hsize) fun hsome =>
    absurd rfl hsome

/-- A constant evaluates to itself. -/
theorem evaluate_const {fuel : Nat} (hfuel : 3 ≤ fuel) :
    EvaluatesConstants (evaluate fuel) := by
  intro i number hnumber hrange
  have hlength := hnumber.2.1
  have hshort : (0x41 :: (number ++ [0x0b])).length + 7 < 2 ^ 32 := by
    rw [List.length_cons, List.length_append, List.length_singleton]
    omega
  have hdecode := decode_of_body (bodyEncodes_const _ (.func 0) hnumber hrange) hshort
  obtain ⟨more, rfl⟩ : ∃ more, fuel = more + 3 := ⟨fuel - 3, by omega⟩
  unfold evaluate
  rw [hdecode]
  rfl

end ConstExpr

end WasmVm
