/-
Code that refers to nothing of its module.  Without calls, globals and signatures a
body means the same in every module, so an initializer of this kind is also a constant
expression.
-/
import WasmVm.Proofs.Decoding.Constants
import WasmVm.Proofs.Machine.Fetches

namespace WasmVm

/-- Whether an instruction stands for itself: it calls no function, has no global, and
opens no scope of a signature. -/
def Item.isSelfContained : Item → Bool
  | openScope _ (.func _) => false
  | plain (.call _) => false
  | plain (.globalGet _) => false
  | plain (.globalSet _) => false
  | _ => true

/-- All instructions of a body stand for themselves. -/
def Node.SelfContained (root : Node) : Prop :=
  ∀ n, root.Contains n → n.item.isSelfContained = true

/-! ### Trees -/

theorem Node.SelfContained.inherited : Inherited Node.SelfContained where
  body h _ hn inner hinner := h inner (.body hn hinner)
  other h _ hn inner hinner := h inner (.alternative hn hinner)

theorem Node.SelfContained.item {n : Node} (h : n.SelfContained) :
    n.item.isSelfContained = true :=
  h n .self

/-- The instructions of a body are those of its nodes, and marks. -/
theorem Derives.selfContained {sym : Symbol} {id : Nat} {items : List Item}
    {nodes : List Node}
    (h : Derives sym id items nodes) (hnodes : ∀ n ∈ nodes, n.SelfContained) :
    ∀ item ∈ items, item.isSelfContained = true := by
  induction h with
  | nop | nil | noHandler => simp [Item.isSelfContained]
  | plain hinstr =>
      have hitem := (hnodes _ (List.mem_singleton_self _)).item
      rw [Node.item_plain hinstr] at hitem
      simpa using hitem
  | scope _ ih =>
      have hscope := hnodes _ (List.mem_singleton_self _)
      have hbody := ih (Node.SelfContained.inherited.body hscope)
      simp only [List.forall_mem_cons, List.forall_mem_append]
      exact ⟨hscope.item, hbody, rfl, List.forall_mem_nil _⟩
  | ifElse _ _ ihbody ihother =>
      have hscope := hnodes _ (List.mem_singleton_self _)
      have hbody := ihbody (Node.SelfContained.inherited.body hscope)
      have hother := ihother (Node.SelfContained.inherited.other hscope)
      simp only [List.forall_mem_cons, List.forall_mem_append]
      exact ⟨hscope.item, hbody, rfl, hother, rfl, List.forall_mem_nil _⟩
  | tryCatch _ _ _ ihbody ihhandlers =>
      have hscope := hnodes _ (List.mem_singleton_self _)
      have hbody := ihbody (Node.SelfContained.inherited.body hscope)
      have hhandlers := ihhandlers fun n hn inner hinner =>
        hscope inner (.alternative hn hinner)
      simp only [List.forall_mem_cons, List.forall_mem_append]
      exact ⟨hscope.item, hbody, hhandlers, rfl, List.forall_mem_nil _⟩
  | tryDelegate _ ih =>
      have hscope := hnodes _ (List.mem_singleton_self _)
      have hbody := Node.SelfContained.inherited.body hscope
      have hinner := ih fun n hn => hbody n (List.mem_append_left _ hn)
      simp only [List.forall_mem_cons, List.forall_mem_append]
      exact ⟨hscope.item, hinner, rfl, List.forall_mem_nil _⟩
  | cons _ _ ihfirst ihrest =>
      obtain ⟨hfirst, hrest⟩ := List.forall_mem_append.mp hnodes
      exact List.forall_mem_append.mpr ⟨ihfirst hfirst, ihrest hrest⟩
  | catchTag _ _ ihbody ihrest =>
      obtain ⟨hbody, hrest⟩ := List.forall_mem_append.mp
        (List.forall_mem_cons.mp hnodes).2
      refine List.forall_mem_cons.mpr ⟨rfl, ?_⟩
      exact List.forall_mem_append.mpr ⟨ihbody hbody, ihrest hrest⟩
  | catchAll _ ih =>
      exact List.forall_mem_cons.mpr ⟨rfl, ih (List.forall_mem_cons.mp hnodes).2⟩

/-! ### Encodings -/

theorem Item.Encodes.of_isSelfContained {m : Module} {item : Item} {bytes : List UInt8}
    (h : item.Encodes m bytes) (hitem : item.isSelfContained = true) (m' : Module) :
    item.Encodes m' bytes := by
  refine h.congr ?_ ?_
  · rintro kind index rfl
    cases hitem
  · rintro function target rfl
    cases hitem

/-- A self-contained body is encoded by the same bytes in every module and for every
type. -/
theorem BodyEncodes.of_selfContained {m : Module} {type : BlockType} {root : Node}
    {bytes : List UInt8} (h : BodyEncodes m type root bytes)
    (hroot : root.SelfContained) (m' : Module) (type' : BlockType) :
    BodyEncodes m' type' (.scope 0 .block type' root.body none) bytes := by
  obtain ⟨items, nodes, hderives, heach, rfl⟩ := h
  have hitems := hderives.selfContained (Node.SelfContained.inherited.body hroot)
  refine ⟨items, nodes, hderives, heach.of_forall_mem fun item hitem front hfront =>
    ?_, rfl⟩
  refine hfront.of_isSelfContained ?_ m'
  rcases List.mem_append.mp hitem with hitem | hclose
  · exact hitems item hitem
  · obtain rfl := List.mem_singleton.mp hclose
    rfl

/-- The bytes of a self-contained body are a constant expression with that body. -/
theorem ConstExpr.decode_of_selfContained {m : Module} {type : BlockType} {root : Node}
    {bytes : List UInt8} (h : BodyEncodes m type root bytes)
    (hroot : root.SelfContained) (hsize : bytes.length + 7 < 2 ^ 32) :
    ConstExpr.decode bytes =
      .ok (ConstExpr.wrapper (.scope 0 .block (.func 0) root.body none)) :=
  ConstExpr.decode_of_body (h.of_selfContained hroot _ _) hsize

end WasmVm
