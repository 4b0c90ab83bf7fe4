/-
Agreement of checked reads with those that take things for granted.  Two of them agree
if they do the same from every cursor in its window and stay inside it; agreement is
closed under sequencing, and so it is proved read by read.
-/
import WasmVm.Proofs.Decoding.Checked
import WasmVm.Proofs.Decoding.Onward

namespace WasmVm

/-! ### Agreement -/

/-- An outcome that stays inside the window, with a result that meets `P`. -/
def Safe {α : Type} (P : α → Prop) (c : Cursor) : EStateM.Result Halt Cursor α → Prop
  | .ok a c' => P a ∧ c.Precedes c'
  | .error h _ => h ≠ .badIndex

theorem Safe.trans {α : Type} {P : α → Prop} {c c' : Cursor}
    {r : EStateM.Result Halt Cursor α}
    (hc : c.Precedes c') (h : Safe P c' r) : Safe P c r := by
  cases r with
  | ok a c'' => exact ⟨h.1, hc.trans h.2⟩
  | error h' c'' => exact h

/-- From a position two computations do the same, and safely. -/
def AgreesAt {α : Type} (P : α → Prop) (c : Cursor) (x y : Decoding α) : Prop :=
  x c = y c ∧ Safe P c (y c)

theorem AgreesAt.bind {α β : Type} {P : α → Prop} {Q : β → Prop} {c : Cursor}
    {x y : Decoding α} {f g : α → Decoding β} (hx : AgreesAt P c x y)
    (hf : ∀ a c', y c = .ok a c' → P a → c.Precedes c' → AgreesAt Q c' (f a) (g a)) :
    AgreesAt Q c (x >>= f) (y >>= g) := by
  obtain ⟨heq, hsafe⟩ := hx
  unfold AgreesAt
  cases hy : y c with
  | error h c' =>
      rw [hy] at heq hsafe
      rw [EStateM.bind_of_error heq, EStateM.bind_of_error hy]
      exact ⟨rfl, hsafe⟩
  | ok a c' =>
      rw [hy] at heq hsafe
      rw [EStateM.bind_of_ok heq, EStateM.bind_of_ok hy]
      obtain ⟨hrest, hlast⟩ := hf a c' hy hsafe.1 hsafe.2
      exact ⟨hrest, .trans hsafe.2 hlast⟩

theorem AgreesAt.get_bind {α : Type} {P : α → Prop} {c : Cursor}
    {f g : Cursor → Decoding α}
    (h : AgreesAt P c (f c) (g c)) : AgreesAt P c (get >>= f) (get >>= g) :=
  h

/-- Inside their windows two computations do the same, and safely. -/
def Agrees {α : Type} (P : α → Prop) (x y : Decoding α) : Prop :=
  ∀ c, c.InWindow → AgreesAt P c x y

namespace Agrees

variable {α β : Type} {P : α → Prop} {Q : β → Prop} {x y : Decoding α}
  {f g : α → Decoding β}

theorem pure {a : α} (ha : P a) : Agrees P (Pure.pure a) (Pure.pure a) :=
  fun _ hc => ⟨rfl, ha, .refl hc⟩

theorem fail (e : Error) : Agrees P (Decoding.fail e) (Decoding.fail e) :=
  fun _ _ => ⟨rfl, Halt.noConfusion⟩

theorem lift {r : Reading α} (h : Onward r) (hr : Yields P r) :
    Agrees P (liftM r) (liftM r) := by
  intro c hc
  refine ⟨rfl, ?_⟩
  change Safe P c (Decoding.ofReading r c)
  unfold Decoding.ofReading
  cases hok : r c with
  | ok a c' => exact ⟨hr c a c' hok, h c a c' hok hc⟩
  | error e c' => exact Halt.noConfusion

/-- Nothing has to be known of the result. -/
theorem lift_any {r : Reading α} (h : Onward r) :
    Agrees (fun _ => True) (liftM r) (liftM r) :=
  lift h fun _ _ _ _ => trivial

theorem bind (hx : Agrees P x y) (hf : ∀ a, P a → Agrees Q (f a) (g a)) :
    Agrees Q (x >>= f) (y >>= g) :=
  fun c hc => (hx c hc).bind fun a c' _ ha hc' => hf a ha c' hc'.inWindow

theorem yields {P' : α → Prop} (h : Agrees P x y) (hy : Yields P' y) :
    Agrees P' x y := by
  intro c hc
  obtain ⟨heq, hsafe⟩ := h c hc
  refine ⟨heq, ?_⟩
  cases hok : y c with
  | error h c' =>
      rw [hok] at hsafe
      exact hsafe
  | ok a c' =>
      rw [hok] at hsafe
      exact ⟨hy c a c' hok, hsafe.2⟩

theorem mono {P' : α → Prop} (h : Agrees P x y) (hmono : ∀ a, P a → P' a) :
    Agrees P' x y := by
  intro c hc
  obtain ⟨heq, hsafe⟩ := h c hc
  refine ⟨heq, ?_⟩
  generalize y c = r at hsafe ⊢
  cases r with
  | ok a c' => exact ⟨hmono a hsafe.1, hsafe.2⟩
  | error h c' => exact hsafe

theorem ite {p : Prop} [Decidable p] {x' y' : Decoding α} (h : p → Agrees P x y)
    (h' : ¬ p → Agrees P x' y') : Agrees P (if p then x else x')
    (if p then y else y') := by
  split
  · next hp => exact h hp
  · next hp => exact h' hp

end Agrees

/-! ### Reads that take a lift apart -/

namespace Decoding

variable {α β : Type}

theorem lift_bind (r : Reading α) (f : α → Reading β) :
    (liftM (r >>= f) : Decoding β) = liftM r >>= fun a => liftM (f a) := by
  funext c
  change ofReading (EStateM.bind r f) c = EStateM.bind (ofReading r)
    (fun a => ofReading (f a)) c
  simp only [EStateM.bind, ofReading]
  cases r c <;> rfl

theorem lift_of_error {r : Reading α} {c c' : Cursor} {e : Error}
    (h : r c = .error e c') :
    (liftM r : Decoding α) c = .error (.error e) c' := by
  change ofReading r c = _
  rw [ofReading, h]

theorem lift_pure (a : α) : (liftM (pure a : Reading α) : Decoding α) = pure a := rfl

theorem lift_get : (liftM (get : Reading Cursor) : Decoding Cursor) = get := rfl

theorem lift_fail (fault : FormatFault) :
    (liftM (Reading.fail fault : Reading α) : Decoding α) = fail (.format fault) := rfl

theorem lift_ite (p : Prop) [Decidable p] (r r' : Reading α) :
    (liftM (if p then r else r') : Decoding α) = if p then liftM r else liftM r' := by
  split <;> rfl

end Decoding

/-! ### Windows -/

namespace Checked

open Decoding

variable {α β : Type} {c : Cursor}

theorem require_of {p : Prop} [Decidable p] (hp : p) : require p c = .ok () c := by
  rw [require, if_pos hp]
  rfl

theorem remaining_eq (hc : c.InWindow) : remaining c = .ok c.remaining c := by
  unfold remaining
  rw [EStateM.get_bind,
    EStateM.bind_of_ok (require_of (show c.pos ≤ c.bytes.size from hc))]
  rfl

theorem slice_eq {start stop : Nat} (h : start ≤ stop ∧ stop ≤ c.bytes.size) :
    slice start stop c = .ok (c.bytes.extract start stop) c := by
  unfold slice
  rw [EStateM.get_bind, EStateM.bind_of_ok (require_of h)]
  rfl

theorem bytes_agrees (count : Nat) :
    Agrees (fun taken => taken.size = count) (bytes count)
      (liftM (Reading.bytes count)) := by
  have hsize : Yields (fun taken : Array UInt8 => taken.size = count)
      (Reading.bytes count) := by
    intro c taken c' hok
    obtain ⟨_, ⟨rfl, hlength⟩, -⟩ := (Reading.bytes_reads count c taken c').mp hok
    rwa [Array.length_toList] at hlength
  intro c hc
  refine ⟨?_, (Agrees.lift (Reading.bytes_reads count).onward hsize c hc).2⟩
  unfold bytes
  rw [EStateM.bind_of_ok (remaining_eq hc), EStateM.get_bind]
  change _ = ofReading (Reading.bytes count) c
  unfold ofReading Reading.bytes
  by_cases hshort : c.remaining < count
  · rw [if_pos hshort, if_pos hshort]
    rfl
  · have hslice : c.pos ≤ c.pos + count ∧ c.pos + count ≤ c.bytes.size := by
      unfold Cursor.InWindow at hc
      unfold Cursor.remaining at hshort
      omega
    rw [if_neg hshort, if_neg hshort, EStateM.bind_of_ok (slice_eq hslice)]
    rfl

theorem window_agrees (count : Nat) :
    Agrees Cursor.InWindow (window count) (liftM (Reading.window count)) := by
  unfold window Reading.window
  rw [lift_bind]
  refine (Agrees.lift_any Reading.offset_onward).bind fun base _ => ?_
  rw [lift_bind]
  exact (bytes_agrees count).bind fun taken _ => .pure (Nat.zero_le _)

theorem name_agrees : Agrees (fun _ => True) name (liftM Reading.name) := by
  unfold name Reading.name
  rw [lift_bind]
  refine (Agrees.lift_any Reading.u32_onward).bind fun length _ => ?_
  rw [lift_bind]
  exact (bytes_agrees length).bind fun _ _ => .pure trivial

/-- The bytes that a read has taken lie in the window. -/
theorem consumed_bind_agrees {P : α → Prop} {Q : β → Prop} {x y : Decoding α}
    {f : α × List UInt8 → Decoding β} {g : Cursor → α → Cursor → Decoding β}
    (hx : Agrees P x y)
    (hf : ∀ start a after, Agrees Q (f (a, after.since start.pos)) (g start a after)) :
    Agrees Q (consumed x >>= f)
      (get >>= fun start => y >>= fun a => get >>= fun after => g start a after) := by
  intro c hc
  unfold consumed
  simp only [bind_assoc, pure_bind]
  refine .get_bind ((hx c hc).bind fun a c' _ _ hc' => .get_bind ?_)
  have hslice : c.pos ≤ c'.pos ∧ c'.pos ≤ c'.bytes.size := ⟨hc'.pos, hc'.inWindow⟩
  unfold AgreesAt
  rw [EStateM.bind_of_ok (slice_eq hslice)]
  exact hf c a c' c' hc'.inWindow

end Checked

end WasmVm
