/-
Reads and the encodings they accept.  A read is described by a relation between
results and byte strings: it succeeds on exactly those inputs that begin with an
encoding of a result, and then it stands right behind that encoding.
-/
import WasmVm.Leb128

namespace WasmVm

theorem EStateM.bind_eq_ok {ε σ α β : Type} {x : EStateM ε σ α} {f : α → EStateM ε σ β}
    {c c' : σ} {b : β} (h : (x >>= f) c = .ok b c') :
    ∃ a mid, x c = .ok a mid ∧ f a mid = .ok b c' := by
  change EStateM.bind x f c = _ at h
  unfold EStateM.bind at h
  split at h
  · next a mid hx => exact ⟨a, mid, hx, h⟩
  · cases h

theorem EStateM.bind_of_ok {ε σ α β : Type} {x : EStateM ε σ α} {f : α → EStateM ε σ β}
    {c mid : σ} {a : α} (h : x c = .ok a mid) : (x >>= f) c = f a mid := by
  change EStateM.bind x f c = _
  rw [EStateM.bind, h]

theorem EStateM.bind_of_error {ε σ α β : Type} {x : EStateM ε σ α}
    {f : α → EStateM ε σ β}
    {c c' : σ} {e : ε} (h : x c = .error e c') : (x >>= f) c = .error e c' := by
  change EStateM.bind x f c = _
  rw [EStateM.bind, h]

theorem EStateM.bind_eq_error {ε σ α β : Type} {x : EStateM ε σ α}
    {f : α → EStateM ε σ β} {s s' : σ} {e : ε} (h : (x >>= f) s = .error e s') :
    x s = .error e s' ∨ ∃ a mid, x s = .ok a mid ∧ f a mid = .error e s' := by
  cases hx : x s with
  | ok a mid =>
      rw [EStateM.bind_of_ok hx] at h
      exact .inr ⟨a, mid, rfl, h⟩
  | error e' mid =>
      rw [EStateM.bind_of_error hx] at h
      cases h
      exact .inl rfl

theorem EStateM.get_bind {ε σ β : Type} (f : σ → EStateM ε σ β) (c : σ) :
    ((get : EStateM ε σ σ) >>= f) c = f c c := rfl

/-- The encodings of a list, one after the other. -/
inductive Each {α : Type} (E : α → List UInt8 → Prop) : List α → List UInt8 → Prop
  | nil : Each E [] []
  | cons {a as front back} (hfront : E a front) (hback : Each E as back) :
      Each E (a :: as) (front ++ back)

/-- Every item of an encoded list has an encoding. -/
theorem Each.exists_of_mem {α : Type} {E : α → List UInt8 → Prop} {as : List α}
    {bytes : List UInt8} (h : Each E as bytes) : ∀ a ∈ as, ∃ front, E a front := by
  induction h with
  | nil => simp
  | cons hitem _ ih =>
      intro a ha
      rcases List.mem_cons.mp ha with rfl | ha
      · exact ⟨_, hitem⟩
      · exact ih a ha

namespace Cursor

theorem advance_advance (c : Cursor) (m n : Nat) :
    (c.advance m).advance n = c.advance (m + n) := by
  simp [advance, Nat.add_assoc]

/-- Looking ahead piece by piece. -/
theorem prefix_rest_append {c : Cursor} {front back : List UInt8} :
    front ++ back <+: c.rest ↔ front <+: c.rest ∧
    back <+: (c.advance front.length).rest := by
  rw [rest_advance]
  constructor
  · intro hahead
    obtain ⟨tail, htail⟩ := hahead
    have hfront : c.rest = front ++ (back ++ tail) := by rw [← htail, List.append_assoc]
    rw [hfront, List.drop_left]
    exact ⟨List.prefix_append _ _, List.prefix_append _ _⟩
  · intro hpieces
    obtain ⟨⟨tail, htail⟩, hback⟩ := hpieces
    rw [← htail, List.drop_left] at hback
    rw [← htail]
    exact (List.prefix_append_right_inj front).mpr hback

/-- A window that is not used up begins with its next byte. -/
theorem singleton_prefix_rest {c : Cursor} {b : UInt8} :
    [b] <+: c.rest ↔ c.bytes[c.pos]? = some b := by
  rw [List.singleton_prefix_iff_head?_eq_some, rest, List.head?_drop,
    Array.getElem?_toList]

theorem isFinished_iff {c : Cursor} : c.isFinished = true ↔ c.rest = [] := by
  rw [isFinished, decide_eq_true_eq, rest, List.drop_eq_nil_iff, Array.length_toList]

theorem isFinished_iff_remaining {c : Cursor} :
    c.isFinished = true ↔ c.remaining = 0 := by
  rw [isFinished_iff, ← length_rest, List.length_eq_zero_iff]

end Cursor

/-- A read that accepts exactly the encodings of its results. -/
def Reads {α : Type} (r : Reading α) (E : α → List UInt8 → Prop) : Prop :=
  ∀ c a c', r c = .ok a c' ↔ ∃ bytes, E a bytes ∧ bytes <+: c.rest ∧
    c' = c.advance bytes.length

namespace Reads

variable {α β : Type} {r : Reading α} {E F : α → List UInt8 → Prop}

/-- The same encodings in other words. -/
theorem congr (h : Reads r E) (hiff : ∀ a bytes, E a bytes ↔ F a bytes) :
    Reads r F := by
  intro c a c'
  rw [h c a c']
  exact exists_congr fun bytes => and_congr_left' (hiff a bytes)

/-- A result that takes no bytes. -/
theorem pure (a : α) : Reads (pure a : Reading α) fun result bytes => result = a ∧
    bytes = [] := by
  intro c result c'
  change EStateM.Result.ok a c = .ok result c' ↔ _
  constructor
  · rintro ⟨⟩
    exact ⟨[], ⟨rfl, rfl⟩, List.nil_prefix, rfl⟩
  · intro henc
    obtain ⟨bytes, ⟨rfl, rfl⟩, -, rfl⟩ := henc
    rfl

/-- A read that refuses everything. -/
theorem fail (fault : FormatFault) :
    Reads (Reading.fail fault : Reading α) fun _ _ => False := by
  intro c a c'
  constructor
  · rintro ⟨⟩
  · intro henc
    obtain ⟨bytes, ⟨⟩, -⟩ := henc

/-- One read after the other. -/
theorem bind {f : α → Reading β} {G : α → β → List UInt8 → Prop} (hr : Reads r E)
    (hf : ∀ a, Reads (f a) (G a)) :
    Reads (r >>= f) fun b bytes =>
      ∃ a front back, bytes = front ++ back ∧ E a front ∧ G a b back := by
  intro c b c'
  constructor
  · intro h
    obtain ⟨a, mid, hmid, hlast⟩ := EStateM.bind_eq_ok h
    obtain ⟨front, hE, hfront, rfl⟩ := (hr c a mid).mp hmid
    obtain ⟨back, hG, hback, rfl⟩ := (hf a _ b c').mp hlast
    refine ⟨front ++ back, ⟨a, front, back, rfl, hE, hG⟩, ?_, ?_⟩
    · exact Cursor.prefix_rest_append.mpr ⟨hfront, hback⟩
    · rw [Cursor.advance_advance, List.length_append]
  · intro henc
    obtain ⟨_, ⟨a, front, back, rfl, hE, hG⟩, hahead, rfl⟩ := henc
    obtain ⟨hfront, hback⟩ := Cursor.prefix_rest_append.mp hahead
    have hmid : r c = .ok a (c.advance front.length) :=
      (hr c a _).mpr ⟨front, hE, hfront, rfl⟩
    have hlast : f a (c.advance front.length) = .ok b
        (c.advance (front ++ back).length) := by
      refine (hf a _ b _).mpr ⟨back, hG, hback, ?_⟩
      rw [Cursor.advance_advance, List.length_append]
    rw [EStateM.bind_of_ok hmid]
    exact hlast

/-- One read after the other, where the second takes no bytes. -/
theorem bind_empty {k : α → Reading β} {P : α → β → Prop} (hr : Reads r E)
    (hk : ∀ a, Reads (k a) fun b bytes => P a b ∧ bytes = []) :
    Reads (r >>= k) fun b bytes => ∃ a, E a bytes ∧ P a b := by
  apply (hr.bind hk).congr
  intro b bytes
  constructor
  · intro henc
    obtain ⟨a, front, back, rfl, hE, hP, rfl⟩ := henc
    exact ⟨a, by rwa [List.append_nil], hP⟩
  · intro henc
    obtain ⟨a, hE, hP⟩ := henc
    exact ⟨a, bytes, [], (List.append_nil _).symm, hE, hP, rfl⟩

/-- A read whose result is put into another form. -/
theorem bind_pure {f : α → β} (hr : Reads r E) :
    Reads (r >>= fun a => Pure.pure (f a)) fun b bytes => ∃ a, E a bytes ∧ b = f a :=
  hr.bind_empty fun a => Reads.pure (f a)

/-- A result that is kept only if it passes a check. -/
theorem bind_ite {f : α → β} {P : α → Prop} [DecidablePred P] {fault : α → FormatFault}
    (hr : Reads r E) :
    Reads (r >>= fun a => if P a then Pure.pure (f a) else Reading.fail (fault a))
      fun b bytes => ∃ a, E a bytes ∧ P a ∧ b = f a := by
  apply hr.bind_empty
  intro a
  by_cases hP : P a
  · simp only [hP, if_true, true_and]
    exact Reads.pure (f a)
  · simp only [hP, if_false, false_and]
    exact Reads.fail (fault a)

/-- A result that is looked up, and refused if there is nothing to find. -/
theorem bind_lookup (f : α → Option β) (fault : α → FormatFault) {k : α → Reading β}
    (hr : Reads r E) (hsome : ∀ a b, f a = some b → k a = Pure.pure b)
    (hnone : ∀ a, f a = none → k a = Reading.fail (fault a)) :
    Reads (r >>= k) fun b bytes => ∃ a, E a bytes ∧ f a = some b := by
  apply hr.bind_empty
  intro a
  cases hf : f a with
  | none =>
      rw [hnone a hf]
      exact (Reads.fail (fault a)).congr (by simp)
  | some b =>
      rw [hsome a b hf]
      exact (Reads.pure b).congr fun result bytes => by simp [eq_comm]

/-- The offset only serves messages. -/
theorem offset_bind {f : Nat → Reading α} (h : ∀ start, Reads (f start) E) :
    Reads (Reading.offset >>= f) E :=
  fun c a c' => h c.offset c a c'

end Reads

end WasmVm
