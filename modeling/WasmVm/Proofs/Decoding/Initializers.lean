/-
Bodies where they lie.  A body is read from its own bytes alone, wherever they lie and
whatever follows them.  So the bytes that a global keeps of its initializer are enough
to read the initializer again, against the module as it stood when the global was read.
-/
import WasmVm.Proofs.Decoding.Origins
import WasmVm.Proofs.Decoding.Skipping

namespace WasmVm

open Leb128

/-! ### Bodies -/

/-- A body that has been read to the end of some bytes is read from the same bytes
anywhere. -/
theorem Reading.body_of_same_bytes {m : Module} {owner : String}
    {type : BlockType} {c d : Cursor} {root : Node} {bytes rest rest' : List UInt8}
    (hc : c.rest = bytes ++ rest) (hd : d.rest = bytes ++ rest')
    (h : body m owner type c = .ok root (c.advance bytes.length)) (owner' : String) :
    body m owner' type d = .ok root (d.advance bytes.length) := by
  obtain ⟨taken, htaken, hahead, hafter⟩ := (body_reads m owner type c root _).mp h
  have hlength : taken.length = bytes.length := by
    have hpos := congrArg Cursor.pos hafter
    rw [Cursor.pos_advance, Cursor.pos_advance] at hpos
    exact (Nat.add_left_cancel hpos).symm
  obtain rfl : taken = bytes := by
    rw [hc] at hahead
    have hprefix := List.prefix_of_prefix_length_le hahead
      (List.prefix_append bytes rest) (Nat.le_of_eq hlength)
    exact hprefix.eq_of_length hlength
  exact (body_reads m owner' type).accepts htaken d
    (hd ▸ List.prefix_append taken rest')

/-- A body is read to the end of the input just if what is left encodes it. -/
theorem Reading.body_to_end_iff {m : Module} {owner : String}
    {type : BlockType} {root : Node}
    {c : Cursor} : (∃ after, body m owner type c = .ok root after ∧
      after.isFinished = true) ↔ BodyEncodes m type root c.rest := by
  constructor
  · rintro ⟨after, hread, hall⟩
    obtain ⟨taken, htaken, hahead, rfl⟩ :=
      (body_reads m owner type c root after).mp hread
    rw [Cursor.isFinished_iff, Cursor.rest_advance, List.drop_eq_nil_iff] at hall
    rwa [← hahead.eq_of_length_le hall]
  · intro h
    refine ⟨_, (body_reads m owner type).accepts h c (List.prefix_refl _), ?_⟩
    rw [Cursor.isFinished_iff, Cursor.rest_advance, List.drop_length]

/-! ### Binaries -/

theorem Reading.header_reads :
    Reads header fun _ bytes => bytes = [0x00, 0x61, 0x73, 0x6d, 1, 0, 0, 0] := by
  intro c ⟨⟩ c'
  constructor
  · intro h
    unfold header at h
    split at h
    · cases h
    · next magic mid hmagic =>
        split at h
        · cases h
        · next hmagicBytes =>
            split at h
            · cases h
            · next version last hversion =>
                split at h
                · cases h
                · next hversionBytes =>
                    cases h
                    obtain ⟨_, ⟨rfl, -⟩, hfront, rfl⟩ :=
                      (bytes_reads 4 c magic mid).mp hmagic
                    obtain ⟨_, ⟨rfl, -⟩, hback, rfl⟩ :=
                      (bytes_reads 4 _ version c').mp hversion
                    rw [Decidable.not_not.mp hmagicBytes] at hfront hback ⊢
                    rw [Decidable.not_not.mp hversionBytes] at hback ⊢
                    exact ⟨_, rfl, Cursor.prefix_rest_append.mpr ⟨hfront, hback⟩, rfl⟩
  · rintro ⟨_, rfl, hahead, rfl⟩
    exact Decoding.header_accepts c hahead

/-- Whatever is decoded has a header. -/
theorem Module.eq_binary_of_decodeWith {evaluate : List UInt8 → Except Halt Value}
    {bytes : Array UInt8} {m : Module} (h : decodeWith evaluate bytes = .ok m) :
    ∃ sections, bytes = binary sections := by
  unfold decodeWith at h
  split at h
  · next m' c' hwhole =>
      obtain ⟨⟨⟩, mid, hheader, -⟩ := EStateM.bind_eq_ok hwhole
      obtain ⟨_, rfl, ⟨sections, hsections⟩, -⟩ :=
        (Reading.header_reads _ () mid).mp (Decoding.ofReading_eq_ok hheader)
      exact ⟨sections, congrArg List.toArray hsections.symm⟩
  · cases h

/-! ### The module that a global is read against -/

namespace Decoding

variable {m m' : Module}

/-- Reads the next global and adds it. -/
def addGlobal (_ : Nat) (m : Module) : Decoding Module :=
  return { m with globals := m.globals.push (← Reading.global m) }

theorem globals_eq (m : Module) : globals m = entries addGlobal m := rfl

theorem addGlobal_eq_ok {turn : Nat} {c c' : Cursor}
    (h : addGlobal turn m c = .ok m' c') :
    ∃ g, Reading.global m c = .ok g c' ∧
      m' = { m with globals := m.globals.push g } := by
  obtain ⟨g, mid, hg, ⟨⟩⟩ := EStateM.bind_eq_ok h
  exact ⟨g, ofReading_eq_ok hg, rfl⟩

/-- Globals are put behind those that there are. -/
theorem forRange_addGlobal_append (left turn : Nat) (m : Module) :
    Yields (fun m' => ∃ more, m'.globals = m.globals ++ more)
      (forRange addGlobal left turn m) := by
  refine forRange_yields (P := fun _ (m' : Module) => ∃ more,
    m'.globals = m.globals ++ more)
    (fun turn m' hm' => ?_) left turn ⟨#[], by simp⟩
  obtain ⟨more, hmore⟩ := hm'
  exact .bind_any fun g => .pure ⟨more.push g, by rw [hmore, Array.append_push]⟩

/-- When a global is read, those before it have been added. -/
theorem forRange_addGlobal {left turn : Nat} {c c' : Cursor}
    (h : forRange addGlobal left turn m c = .ok m' c') {k : Nat}
    (hk : m.globals.size ≤ k) {g : Global} (hg : m'.globals[k]? = some g) :
    ∃ m₀ mid after, forRange addGlobal (k - m.globals.size) turn m c = .ok m₀ mid ∧
      Reading.global m₀ mid = .ok g after ∧ m₀.globals = m'.globals.extract 0 k := by
  induction left generalizing turn m c with
  | zero =>
      cases h
      exact absurd (Array.getElem?_eq_some_iff.mp hg).1 (Nat.not_lt.mpr hk)
  | succ left ih =>
      obtain ⟨next, mid, hfirst, hrest⟩ := EStateM.bind_eq_ok h
      obtain ⟨g₁, hread, rfl⟩ := addGlobal_eq_ok hfirst
      rcases Nat.eq_or_lt_of_le hk with rfl | hlt
      · -- The turn of this global is the first one.
        obtain ⟨more, hmore⟩ := forRange_addGlobal_append _ _ _ _ _ _ hrest
        refine ⟨m, c, mid, ?_, ?_, ?_⟩
        · rw [Nat.sub_self]
          rfl
        · rw [hmore, Array.getElem?_append_left (by simp),
            Array.getElem?_push_size] at hg
          cases hg
          exact hread
        · simp [hmore]
      · have hk' : (m.globals.push g₁).size ≤ k := by rwa [Array.size_push]
        obtain ⟨m₀, last, after, hbefore, hglobal, hglobals⟩ := ih hrest hk'
        refine ⟨m₀, last, after, ?_, hglobal, hglobals⟩
        have hturns : k - m.globals.size = k - (m.globals.push g₁).size + 1 := by
          rw [Array.size_push]
          omega
        rw [hturns, forRange, EStateM.bind_of_ok hfirst]
        exact hbefore

end Decoding

/-- Sections, read from a module on, come to the global number `k`: it is read as `g`
when the module stands at `m₀`. -/
inductive ReadsGlobal (evaluate : List UInt8 → Except Halt Value)
    (k : Nat) (m₀ : Module) (g : Global) : Module → List UInt8 → Prop
  /-- In the first section, behind those of its globals that come before. -/
  | here {m front count entries number behind window mid after}
      (hsection : SectionEncodes 6 (· = count ++ entries) front)
      (hcount : U32 number count) (hwindow : window.rest = entries)
      (hbefore : Decoding.forRange Decoding.addGlobal (k - m.globals.size) 0 m
        window = .ok m₀ mid)
      (hglobal : Reading.global m₀ mid = .ok g after) :
      ReadsGlobal evaluate k m₀ g m (front ++ behind)
  /-- In a later section. -/
  | later {id m m' contents front back}
      (hsection : SectionEncodes id (· = contents) front)
      (hturn : SectionTurns evaluate id contents m m')
      (hback : ReadsGlobal evaluate k m₀ g m' back) :
      ReadsGlobal evaluate k m₀ g m (front ++ back)

section

variable {evaluate : List UInt8 → Except Halt Value} {id : UInt8}
  {contents bytes : List UInt8}
  {m m₀ m' : Module} {k : Nat} {g : Global}

/-- The initializer has been read from the bytes that are kept. -/
theorem ReadsGlobal.encodes_init (h : ReadsGlobal evaluate k m₀ g m bytes) :
    BodyEncodes m₀ (.value g.type) g.body g.init := by
  induction h with
  | here _ _ _ _ hglobal => exact Reading.global_encodes_init _ _ _ _ hglobal
  | later _ _ _ ih => exact ih

theorem SectionTurns.contributes (h : SectionTurns evaluate id contents m m') :
    Decoding.Contributes evaluate id m m' := by
  cases h with
  | known hreader _ hread => exact .known hreader hread
  | custom hid _ hread =>
      subst hid
      obtain ⟨names, hnames⟩ := Decoding.custom_names hread
      exact .skipped rfl hnames
  | unknown hreader _ hm => exact .skipped hreader hm

/-- The contents of a section of globals: their number, then one after the other. -/
theorem SectionTurns.globals_eq_ok (h : SectionTurns evaluate 6 contents m m') :
    ∃ count entries number window after, contents = count ++ entries ∧
      U32 number count ∧ window.rest = entries ∧
      Decoding.forRange Decoding.addGlobal number 0 m window = .ok m' after := by
  cases h with
  | @known read window after hreader hwindow hread hall =>
      cases hreader
      rw [Decoding.globals_eq] at hread
      obtain ⟨number, mid, hnumber, hentries⟩ := EStateM.bind_eq_ok hread
      obtain ⟨count, hcount, ⟨entries, hahead⟩, rfl⟩ :=
        (Reading.u32_reads _ number mid).mp (Decoding.ofReading_eq_ok hnumber)
      refine ⟨count, entries, number, _, after, ?_, hcount, ?_, hentries⟩
      · rw [← hwindow, hahead]
      · rw [Cursor.rest_advance, ← hahead, List.drop_left]
  | custom hid => cases hid
  | unknown hreader => cases hreader

/-- Sections keep the globals that there are. -/
theorem SectionTurns.globals_append (h : SectionTurns evaluate id contents m m') :
    ∃ more, m'.globals = m.globals ++ more := by
  by_cases hid : id = 6
  · subst hid
    obtain ⟨_, _, number, window, after, -, -, -, hread⟩ := h.globals_eq_ok
    exact Decoding.forRange_addGlobal_append _ _ _ _ _ _ hread
  · exact ⟨#[], by simp [h.contributes.grows.globals hid]⟩

theorem SectionsTurn.globals_append (h : SectionsTurn evaluate bytes m m') :
    ∃ more, m'.globals = m.globals ++ more := by
  induction h with
  | nil => exact ⟨#[], by simp⟩
  | cons _ hturn _ ih =>
      obtain ⟨more, hmore⟩ := hturn.globals_append
      obtain ⟨more', hmore'⟩ := ih
      exact ⟨more ++ more', by rw [hmore', hmore, Array.append_assoc]⟩

/-- Every global that sections add is read in its turn. -/
theorem SectionsTurn.readsGlobal (h : SectionsTurn evaluate bytes m m')
    (hk : m.globals.size ≤ k) (hg : m'.globals[k]? = some g) :
    ∃ m₀, ReadsGlobal evaluate k m₀ g m bytes ∧
      m₀.globals = m'.globals.extract 0 k := by
  induction h with
  | nil => exact absurd (Array.getElem?_eq_some_iff.mp hg).1 (Nat.not_lt.mpr hk)
  | @cons id contents front back m mid r hsection hturn hback ih =>
      by_cases hlater : mid.globals.size ≤ k
      · obtain ⟨m₀, hreads, hglobals⟩ := ih hlater hg
        exact ⟨m₀, .later hsection hturn hreads, hglobals⟩
      · obtain ⟨more, hmore⟩ := hback.globals_append
        rw [Nat.not_le] at hlater
        rw [hmore, Array.getElem?_append_left hlater] at hg
        by_cases hid : id = 6
        · subst hid
          obtain ⟨count, entries, number, window, after, rfl, hcount, hwindow, hread⟩ :=
            hturn.globals_eq_ok
          obtain ⟨m₀, last, done, hbefore, hglobal, hglobals⟩ :=
            Decoding.forRange_addGlobal hread hk hg
          refine ⟨m₀, .here hsection hcount hwindow hbefore hglobal, ?_⟩
          rw [hglobals, hmore, Array.extract_append]
          simp [Nat.le_of_lt hlater]
        · rw [hturn.contributes.grows.globals hid] at hlater
          exact absurd hlater (Nat.not_lt.mpr hk)

end

/-- Bodies are read by their own bytes, and initializers can be read again.  A body
that is read from some bytes, and no more, is read from the same bytes wherever they
lie, whatever follows them and whoever owns the body.  So the bytes that a global of a
decoded module keeps are a body to their end, the one that the module keeps of it, for
the module as it stood when the global was read: behind the sections and the globals
before it. -/
theorem bodies_depend_on_own_bytes :
    (∀ (m : Module) (type : BlockType) (owner owner' : String) (c d : Cursor)
        (root : Node) (bytes rest rest' : List UInt8),
      c.rest = bytes ++ rest → d.rest = bytes ++ rest' →
      Reading.body m owner type c = .ok root (c.advance bytes.length) →
      Reading.body m owner' type d = .ok root (d.advance bytes.length)) ∧
    ∀ (fuel : Nat) (bytes : Array UInt8) (m : Module),
      Module.decode fuel bytes = .ok m →
      ∃ sections, bytes = binary sections ∧ ∀ (k : Nat) (g : Global),
        m.globals[k]? = some g →
        ∃ m₀, ReadsGlobal (ConstExpr.evaluate fuel) k m₀ g {} sections ∧
          m₀.globals = m.globals.extract 0 k ∧
          ∀ owner, ∃ after, Reading.body m₀ owner (.value g.type)
            (.ofBytes g.init.toArray) =
            .ok g.body after ∧ after.isFinished = true := by
  refine ⟨fun m type owner owner' c d root bytes rest rest' hc hd h =>
    ?_, fun fuel bytes m h => ?_⟩
  · exact Reading.body_of_same_bytes hc hd h owner'
  obtain ⟨sections, rfl⟩ := Module.eq_binary_of_decodeWith h
  refine ⟨sections, rfl, fun k g hg => ?_⟩
  obtain ⟨hsections, -⟩ := decodeWith_binary_eq_ok_iff.mp h
  obtain ⟨m₀, hreads, hglobals⟩ := hsections.readsGlobal (Nat.zero_le k) hg
  exact ⟨m₀, hreads, hglobals, fun owner =>
    Reading.body_to_end_iff.mpr hreads.encodes_init⟩

namespace InitializersWitness

/-- A global that is five, and one that reads it; each has a section of its own. -/
def sections : List UInt8 :=
  [0x06, 0x06, 0x01, 0x7f, 0x00, 0x41, 0x05, 0x0b] ++
    [0x06, 0x06, 0x01, 0x7f, 0x00, 0x23, 0x00, 0x0b]

def five : Global :=
  ⟨.i32, false, [0x41, 0x05, 0x0b],
    .scope 0 .block (.value .i32) [.plain 1 (.const (.i32 5))] none⟩

def copy : Global :=
  ⟨.i32, false, [0x23, 0x00, 0x0b],
    .scope 0 .block (.value .i32) [.plain 1 (.globalGet 0)] none⟩

def sample : Module where
  globals := #[five, copy]

theorem decode_sections : Module.decode 0 (binary sections) = .ok sample := by
  with_unfolding_all rfl

/-- A body that other bytes follow, and the same body elsewhere; and the second global,
which is read when there is the first one. -/
theorem copy_reads_back :
    Reading.body {} "a" (.value .i32) (.ofBytes #[0x41, 0x05, 0x0b, 0xff]) =
      .ok five.body ⟨#[0x41, 0x05, 0x0b, 0xff], 3, 0⟩ ∧
    Reading.body {} "b" (.value .i32) ⟨#[0x00, 0x41, 0x05, 0x0b], 1, 100⟩ =
      .ok five.body ⟨#[0x00, 0x41, 0x05, 0x0b], 4, 100⟩ ∧
    Module.decode 0 (binary sections) = .ok sample ∧
    ∃ m₀ : Module, m₀.globals = #[five] ∧ ∃ after,
      Reading.body m₀ "c" (.value .i32) (.ofBytes #[0x23, 0x00, 0x0b]) =
        .ok copy.body after ∧ after.isFinished = true := by
  obtain ⟨hsame, hglobals⟩ := bodies_depend_on_own_bytes
  have hfirst : Reading.body {} "a" (.value .i32) (.ofBytes #[0x41, 0x05, 0x0b, 0xff]) =
      .ok five.body ⟨#[0x41, 0x05, 0x0b, 0xff], 3, 0⟩ := by
    with_unfolding_all rfl
  refine ⟨hfirst, ?_, decode_sections, ?_⟩
  · exact hsame {} (.value .i32) "a" "b" (.ofBytes #[0x41, 0x05, 0x0b, 0xff])
      ⟨#[0x00, 0x41, 0x05, 0x0b], 1, 100⟩ five.body [0x41, 0x05, 0x0b] [0xff]
        [] rfl rfl hfirst
  · obtain ⟨_, -, hread⟩ := hglobals 0 _ _ decode_sections
    obtain ⟨m₀, -, hbefore, hbody⟩ := hread 1 copy rfl
    exact ⟨m₀, hbefore, hbody "c"⟩

end InitializersWitness

end WasmVm
