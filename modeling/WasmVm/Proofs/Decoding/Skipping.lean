/-
Sections that do not matter.  What a section does to a module depends on its number and
its contents alone, not on where it lies.  Sections of unknown numbers, and custom ones
that do not hold names, can therefore be put in and left out anywhere; one of names
changes names only. -/
import WasmVm.Proofs.Decoding.Parallel

namespace WasmVm

open Leb128

/-! ### What sections do -/

/-- An input begins with one encoding only. -/
theorem Reads.unique {α : Type} {r : Reading α}
    {E : α → List UInt8 → Prop} (h : Reads r E)
    {a a' : α} {front front' bytes : List UInt8} (ha : E a front) (ha' : E a' front')
    (hfront : front <+: bytes) (hfront' : front' <+: bytes) : a = a' ∧
    front = front' := by
  have hread := h.accepts ha (.ofBytes bytes.toArray) hfront
  have hread' := h.accepts ha' (.ofBytes bytes.toArray) hfront'
  rw [hread] at hread'
  injection hread' with hvalue hafter
  have hlength : front.length = front'.length := by simpa [Cursor.advance] using hafter
  have hprefix := List.prefix_of_prefix_length_le hfront hfront' (Nat.le_of_eq hlength)
  exact ⟨hvalue, hprefix.eq_of_length hlength⟩

/-- The bytes of a section tell its number, its contents and where it ends. -/
theorem SectionEncodes.unique {id id' : UInt8}
    {contents contents' front front' back back' : List UInt8}
    (h : SectionEncodes id (· = contents) front)
    (h' : SectionEncodes id' (· = contents') front')
    (heq : front ++ back = front' ++ back') : id = id' ∧ contents = contents' ∧
    back = back' := by
  obtain ⟨size, _, rfl, hsize, rfl⟩ := h
  obtain ⟨size', _, rfl, hsize', rfl⟩ := h'
  simp only [List.cons_append, List.append_assoc, List.cons.injEq] at heq
  obtain ⟨rfl, heq⟩ := heq
  obtain ⟨hlength, rfl⟩ := Reading.u32_reads.unique hsize hsize'
    (List.prefix_append _ _) (heq.symm ▸ List.prefix_append _ _)
  obtain ⟨rfl, rfl⟩ := List.append_inj (List.append_cancel_left heq) hlength
  exact ⟨rfl, rfl, rfl⟩

/-- A section of a number with some contents turns a module into another one.  The
window in which the contents are read may lie anywhere. -/
inductive SectionTurns (evaluate : List UInt8 → Except Halt Value) (id : UInt8)
    (contents : List UInt8) (m m' : Module) : Prop
  | known {read window after} (hreader : Decoding.sectionReader evaluate id = some read)
      (hwindow : window.rest = contents) (hread : read m window = .ok m' after)
      (hall : after.isFinished = true)
  | custom {window after} (hid : id = 0) (hwindow : window.rest = contents)
      (hread : Decoding.custom m window = .ok m' after)
  | unknown (hreader : Decoding.sectionReader evaluate id = none)
      (hid : id ≠ 0) (hm : m' = m)

/-- Sections one after the other turn a module into another one. -/
inductive SectionsTurn (evaluate : List UInt8 → Except Halt Value) :
    List UInt8 → Module → Module → Prop
  | nil {m} : SectionsTurn evaluate [] m m
  | cons {id contents front back m m' r}
      (hsection : SectionEncodes id (· = contents) front)
      (hturn : SectionTurns evaluate id contents m m')
      (hback : SectionsTurn evaluate back m' r) :
      SectionsTurn evaluate (front ++ back) m r

namespace Decoding

variable {evaluate : List UInt8 → Except Halt Value} {m m' : Module}

/-- Where its bytes lie is of no concern to a read that is parallel to itself. -/
theorem ok_of_parallel {x : Decoding Module} (h : Parallel (Module.Alike True) x x)
    {c d after : Cursor} (hrest : c.rest = d.rest) (hx : x c = .ok m after) :
    ∃ after', x d = .ok m after' ∧ after'.isFinished = after.isFinished := by
  obtain ⟨m', bytes, hx', hsame, -, rfl⟩ := h c d m after hrest hx
  cases hsame with
  | mk hnames =>
      obtain rfl := hnames trivial
      exact ⟨_, hx', Cursor.isFinished_eq_of_rest (Cursor.rest_advance_eq hrest.symm _)⟩

/-- What is done with a section once its contents have been split off. -/
def sectionContents (evaluate : List UInt8 → Except Halt Value)
    (m : Module) (id : UInt8)
    (size start : Nat) (contents : Cursor) : Decoding Module :=
  match sectionReader evaluate id with
  | some read => do
    let (m, after) ← within contents (read m)
    if after.isFinished then return m
    else fail (.format (.sectionLeft id start size after.remaining))
  | none => do
    if id = 0 then
      let (m, _) ← within contents (custom m)
      return m
    else return m

theorem oneSection_eq (evaluate : List UInt8 → Except Halt Value) (m : Module) :
    oneSection evaluate m = (do
      let id ← Reading.byte
      let size ← Reading.u32
      let start ← Reading.offset
      let contents ← Reading.window size
      sectionContents evaluate m id size start contents) := by
  unfold oneSection sectionContents
  rfl

theorem within_bind_of_ok {α β : Type} {read : Decoding α} {f : α × Cursor → Decoding β}
    {inner after c : Cursor} {a : α} (h : read inner = .ok a after) :
    (within inner read >>= f) c = f (a, after) c := by
  have hwithin : within inner read c = .ok (a, after) c := by rw [within, h]
  exact EStateM.bind_of_ok hwithin

section

variable {id : UInt8} {size start : Nat} {window c c' : Cursor}

theorem sectionTurns_of_contents
    (h : sectionContents evaluate m id size start window c = .ok m' c') :
    SectionTurns evaluate id window.rest m m' ∧ c' = c := by
  unfold sectionContents at h
  cases hreader : sectionReader evaluate id with
  | some read =>
      rw [hreader] at h
      obtain ⟨⟨next, after⟩, mid, hwithin, hlast⟩ := EStateM.bind_eq_ok h
      obtain ⟨hread, rfl⟩ := within_eq_ok hwithin
      dsimp only at hread hlast
      split at hlast
      · next hall =>
          cases hlast
          exact ⟨.known hreader rfl hread hall, rfl⟩
      · cases hlast
  | none =>
      rw [hreader] at h
      dsimp only at h
      split at h
      · next hid =>
          obtain ⟨⟨next, after⟩, mid, hwithin, hlast⟩ := EStateM.bind_eq_ok h
          obtain ⟨hread, rfl⟩ := within_eq_ok hwithin
          cases hlast
          exact ⟨.custom hid rfl hread, rfl⟩
      · next hid =>
          cases h
          exact ⟨.unknown hreader hid rfl, rfl⟩

/-- Contents that can be used in one window can be used in any other. -/
theorem contents_of_sectionTurns (h : SectionTurns evaluate id window.rest m m') :
    sectionContents evaluate m id size start window c = .ok m' c := by
  unfold sectionContents
  cases h with
  | known hreader hwindow hread hall =>
      obtain ⟨after, hread', hfinished⟩ :=
        ok_of_parallel (sectionReader_parallel hreader (.refl True m)) hwindow hread
      rw [hreader]
      dsimp only
      rw [within_bind_of_ok hread', if_pos (hfinished.trans hall)]
      rfl
  | custom hid hwindow hread =>
      obtain ⟨after, hread', -⟩ :=
        ok_of_parallel (custom_parallel (.refl True m)) hwindow hread
      subst hid
      change (within window (custom m) >>= _) c = _
      rw [within_bind_of_ok hread']
      rfl
  | unknown hreader hid hm =>
      rw [hreader, hm]
      dsimp only
      rw [if_neg hid]
      rfl

end

theorem window_eq_ok {size : Nat} {inner c c' : Cursor}
    (h : Reading.window size c = .ok inner c') :
    ∃ contents, inner = ⟨contents.toArray, 0, c.offset⟩ ∧ contents.length = size ∧
      contents <+: c.rest ∧ c' = c.advance contents.length := by
  obtain ⟨base, c₁, hbase, hafter⟩ := EStateM.bind_eq_ok h
  cases hbase
  obtain ⟨taken, c₂, htaken, hlast⟩ := EStateM.bind_eq_ok hafter
  cases hlast
  obtain ⟨_, ⟨rfl, hlength⟩, hahead, rfl⟩ :=
    (Reading.bytes_reads size c taken _).mp htaken
  exact ⟨taken.toList, rfl, hlength, hahead, rfl⟩

/-- A section is read just if its encoding is ahead and its contents can be used. -/
theorem oneSection_eq_ok_iff {c c' : Cursor} : oneSection evaluate m c = .ok m' c' ↔
    ∃ id contents bytes, SectionEncodes id (· = contents) bytes ∧
      SectionTurns evaluate id contents m m' ∧ bytes <+: c.rest ∧
      c' = c.advance bytes.length := by
  rw [oneSection_eq]
  constructor
  · intro h
    obtain ⟨id, c₁, hid, hafterId⟩ := EStateM.bind_eq_ok h
    obtain ⟨_, rfl, hidAhead, rfl⟩ :=
      (Reading.byte_reads c id c₁).mp (ofReading_eq_ok hid)
    obtain ⟨size, c₂, hsize, hafterSize⟩ := EStateM.bind_eq_ok hafterId
    obtain ⟨sizeBytes, hnumber, hsizeAhead, rfl⟩ :=
      (Reading.u32_reads _ size c₂).mp (ofReading_eq_ok hsize)
    obtain ⟨start, c₃, hstart, hafterStart⟩ := EStateM.bind_eq_ok hafterSize
    cases ofReading_eq_ok hstart
    obtain ⟨inner, c₄, hwindow, hcontents⟩ := EStateM.bind_eq_ok hafterStart
    obtain ⟨contents, rfl, rfl, hahead, rfl⟩ := window_eq_ok (ofReading_eq_ok hwindow)
    obtain ⟨hturn, rfl⟩ := sectionTurns_of_contents hcontents
    refine ⟨id, contents, [id] ++ (sizeBytes ++ contents),
      ⟨sizeBytes, contents, rfl, hnumber, rfl⟩, hturn, ?_, ?_⟩
    · exact Cursor.prefix_rest_append.mpr
        ⟨hidAhead, Cursor.prefix_rest_append.mpr ⟨hsizeAhead, hahead⟩⟩
    · simp only [Cursor.advance_advance, List.length_append, Nat.add_assoc]
  · rintro ⟨id, _, _, ⟨sizeBytes, contents, rfl, hsize, rfl⟩, hturn, hahead, rfl⟩
    refine Accepts.bind_cons (Reading.byte_reads.accepts rfl).lift ?_ c hahead
    refine (Reading.u32_accepts hsize).lift.bind ?_
    refine Accepts.lift_offset_bind fun start =>
      window_bind_accepts fun base mid _ => ?_
    exact contents_of_sectionTurns hturn

/-- What is read to the end of the input are sections one after the other. -/
theorem sectionsTurn_of_sections {fuel : Nat} {c after : Cursor}
    (hfuel : c.remaining ≤ fuel)
    (h : sections evaluate fuel m c = .ok m' after) :
    SectionsTurn evaluate c.rest m m' := by
  induction fuel generalizing m c with
  | zero =>
      have hrest : c.rest = [] :=
        Cursor.isFinished_iff.mp
          (Cursor.isFinished_iff_remaining.mpr (Nat.le_zero.mp hfuel))
      cases h
      rw [hrest]
      exact .nil
  | succ fuel ih =>
      rw [sections_succ] at h
      split at h
      · next hfinished =>
          cases h
          rw [Cursor.isFinished_iff.mp hfinished]
          exact .nil
      obtain ⟨next, mid, hone, hmore⟩ := EStateM.bind_eq_ok h
      have hless := remaining_lt_of_oneSection hone
      obtain ⟨id, contents, front, hsection, hturn, ⟨back, hback⟩, rfl⟩ :=
        oneSection_eq_ok_iff.mp hone
      have hrest := ih (by omega) hmore
      rw [Cursor.rest_advance, ← hback, List.drop_left] at hrest
      rw [← hback]
      exact .cons hsection hturn hrest

theorem completes_of_sectionsTurn {bytes : List UInt8}
    (h : SectionsTurn evaluate bytes m m') :
    Completes evaluate m m' bytes := by
  induction h with
  | nil => exact completes_nil
  | cons hsection hturn _ ih =>
      refine Extends.completes (.inr fun c hahead => ?_) ih
      exact oneSection_eq_ok_iff.mpr ⟨_, _, _, hsection, hturn, hahead, rfl⟩

end Decoding

/-- A binary: the header, then its sections. -/
def binary (sections : List UInt8) : Array UInt8 :=
  ([0x00, 0x61, 0x73, 0x6d, 1, 0, 0, 0] ++ sections).toArray

/-- Behind the header the sections are read. -/
theorem wholeModule_binary (evaluate : List UInt8 → Except Halt Value)
    (sections : List UInt8) :
    ∃ c : Cursor, c.rest = sections ∧
      Decoding.wholeModule evaluate (.ofBytes (binary sections)) =
        (Decoding.sections evaluate c.remaining {} >>= fun m =>
          if m.codes.size = m.functions.size then pure m
          else Decoding.fail (.format (.bodyCount m.functions.size m.codes.size)))
            c := by
  obtain ⟨c, hheader, hrest⟩ := Decoding.header_accepts.lift.ok_of_rest
    (show (Cursor.ofBytes (binary sections)).rest = _ from rfl)
  refine ⟨c, hrest, ?_⟩
  unfold Decoding.wholeModule
  rw [EStateM.bind_of_ok hheader, EStateM.get_bind]

theorem decodeWith_of_completes {evaluate : List UInt8 → Except Halt Value} {m : Module}
    {sections : List UInt8} (h : Decoding.Completes evaluate {} m sections)
    (hsize : m.codes.size = m.functions.size) :
    Module.decodeWith evaluate (binary sections) = .ok m := by
  obtain ⟨c, hrest, hwhole⟩ := wholeModule_binary evaluate sections
  obtain ⟨after, hafter⟩ := h c hrest
  unfold Module.decodeWith
  rw [hwhole, EStateM.bind_of_ok hafter, if_pos hsize]
  rfl

/-- A binary is decoded to what its sections make of the empty module. -/
theorem decodeWith_binary_eq_ok_iff {evaluate : List UInt8 → Except Halt Value}
    {sections : List UInt8} {m : Module} : Module.decodeWith evaluate
    (binary sections) = .ok m ↔
      SectionsTurn evaluate sections {} m ∧ m.codes.size = m.functions.size := by
  constructor
  · intro h
    obtain ⟨c, hrest, hwhole⟩ := wholeModule_binary evaluate sections
    unfold Module.decodeWith at h
    rw [hwhole] at h
    split at h
    · next m' after hall =>
        cases h
        obtain ⟨next, mid, hsections, hcheck⟩ := EStateM.bind_eq_ok hall
        split at hcheck
        · next hsize =>
            cases hcheck
            have hturn := Decoding.sectionsTurn_of_sections (Nat.le_refl _) hsections
            exact ⟨hrest ▸ hturn, hsize⟩
        · cases hcheck
    · cases h
  · rintro ⟨hturn, hsize⟩
    exact decodeWith_of_completes (Decoding.completes_of_sectionsTurn hturn) hsize

/-! ### Sections in a row -/

section

variable {evaluate : List UInt8 → Except Halt Value} {m m' r : Module}
  {bytes : List UInt8}

theorem SectionsTurn.cons_iff {id : UInt8} {contents front back : List UInt8}
    (hsection : SectionEncodes id (· = contents) front) :
    SectionsTurn evaluate (front ++ back) m r ↔
      ∃ mid, SectionTurns evaluate id contents m mid ∧
        SectionsTurn evaluate back mid r := by
  constructor
  · intro h
    generalize hall : front ++ back = bytes at h
    cases h with
    | nil =>
        obtain ⟨size, _, rfl, -⟩ := hsection
        cases hall
    | cons hsection' hturn hback =>
        obtain ⟨rfl, rfl, rfl⟩ := hsection.unique hsection' hall
        exact ⟨_, hturn, hback⟩
  · rintro ⟨mid, hturn, hback⟩
    exact .cons hsection hturn hback

theorem SectionsTurn.nil_iff : SectionsTurn evaluate [] m r ↔ r = m := by
  constructor
  · intro h
    generalize hnone : [] = bytes at h
    cases h with
    | nil => rfl
    | cons hsection =>
        obtain ⟨size, _, rfl, -⟩ := hsection
        cases hnone
  · rintro rfl
    exact .nil

/-- What comes behind some sections starts from what they leave. -/
theorem SectionsTurn.append_iff {ids : List UInt8} {before back : List UInt8}
    (hbefore : Each (fun id => SectionEncodes id fun _ => True) ids before) :
    SectionsTurn evaluate (before ++ back) m r ↔
      ∃ mid, SectionsTurn evaluate before m mid ∧ SectionsTurn evaluate back mid r := by
  induction hbefore generalizing m with
  | nil => simp only [List.nil_append, nil_iff, exists_eq_left]
  | @cons id ids front more hfront _ ih =>
      obtain ⟨size, contents, hbytes, hsize, -⟩ := hfront
      have hsection : SectionEncodes id (· = contents) front :=
        ⟨size, contents, hbytes, hsize, rfl⟩
      rw [List.append_assoc, cons_iff hsection]
      simp only [cons_iff hsection, ih]
      constructor
      · rintro ⟨next, hturn, mid, hmore, hback⟩
        exact ⟨mid, ⟨next, hturn, hmore⟩, hback⟩
      · rintro ⟨mid, ⟨next, hturn, hmore⟩, hback⟩
        exact ⟨next, hturn, mid, hmore, hback⟩

theorem SectionTurns.alike {keep : Prop} {id : UInt8} {contents : List UInt8}
    (hturn : SectionTurns evaluate id contents m r) (h : m.Alike keep m') :
    ∃ r', SectionTurns evaluate id contents m' r' ∧ r.Alike keep r' := by
  cases hturn with
  | known hreader hwindow hread hall =>
      obtain ⟨r', taken, hread', hr, -, rfl⟩ :=
        Decoding.sectionReader_parallel hreader h _ _ _ _ rfl hread
      exact ⟨r', .known hreader hwindow hread' hall, hr⟩
  | custom hid hwindow hread =>
      obtain ⟨r', taken, hread', hr, -⟩ := Decoding.custom_parallel h _ _ _ _ rfl hread
      exact ⟨r', .custom hid hwindow hread', hr⟩
  | unknown hreader hid hm => exact ⟨m', .unknown hreader hid rfl, hm ▸ h⟩

/-- Sections of modules that are alike go the same way. -/
theorem SectionsTurn.alike {keep : Prop} (hturn : SectionsTurn evaluate bytes m r)
    (h : m.Alike keep m') : ∃ r', SectionsTurn evaluate bytes m' r' ∧
    r.Alike keep r' := by
  induction hturn generalizing m' with
  | nil => exact ⟨m', .nil, h⟩
  | cons hsection hturn _ ih =>
      obtain ⟨mid, hmid, halike⟩ := hturn.alike h
      obtain ⟨r', hback, hr⟩ := ih halike
      exact ⟨r', .cons hsection hmid hback, hr⟩

/-- What sections do is the same, but for the names, if the module has other names. -/
theorem SectionsTurn.names_iff (m r : Module) (names : Names) :
    (∃ names', SectionsTurn evaluate bytes { m with names }
      { r with names := names' }) ↔
      ∃ names', SectionsTurn evaluate bytes m { r with names := names' } := by
  have halike : m.Alike False { m with names } := .mk False.elim
  constructor
  · rintro ⟨names', h⟩
    obtain ⟨r', hr', ⟨⟩⟩ := h.alike halike.symm
    exact ⟨_, hr'⟩
  · rintro ⟨names', h⟩
    obtain ⟨r', hr', ⟨⟩⟩ := h.alike halike
    exact ⟨_, hr'⟩

end

/-! ### Sections that are skipped -/

/-- The bytes that are read as a name: a length, then as many bytes, be they text or
not. -/
def NameReads (name : String) (bytes : List UInt8) : Prop :=
  ∃ size text, bytes = size ++ text ∧ U32 text.length size ∧ Text.ofUtf8 text = name

theorem Reading.name_reads : Reads name NameReads := by
  refine (u32_reads.bind fun length => (bytes_reads length).bind_pure).congr ?_
  intro s bytes
  constructor
  · rintro ⟨length, size, text, rfl, hsize, taken, ⟨rfl, rfl⟩, rfl⟩
    exact ⟨size, taken.toList, rfl, hsize, rfl⟩
  · rintro ⟨size, text, rfl, hsize, rfl⟩
    exact ⟨text.length, size, text, rfl, hsize, text.toArray, ⟨rfl, rfl⟩, rfl⟩

/-- The encodings of a custom section of some name, whatever comes behind the name. -/
def CustomEncodes (name : String) (bytes : List UInt8) : Prop :=
  SectionEncodes 0
    (fun contents => ∃ front payload, contents = front ++ payload ∧
      NameReads name front) bytes

/-- The encodings of a section that is skipped: one of an unknown number, or a custom
section that does not hold names. -/
inductive Skipped (bytes : List UInt8) : Prop
  | unknown {id} (hid : id ∉ [0, 1, 2, 3, 5, 6, 7, 10, 11, 12, 13])
      (h : SectionEncodes id (fun _ => True) bytes)
  | custom {name} (hname : name ≠ "name") (h : CustomEncodes name bytes)

section

variable {evaluate : List UInt8 → Except Halt Value} {m m' r : Module}
  {bytes : List UInt8}

theorem sectionReader_eq_none {id : UInt8}
    (hid : id ∉ [0, 1, 2, 3, 5, 6, 7, 10, 11, 12, 13]) :
    Decoding.sectionReader evaluate id = none := by
  simp only [List.mem_cons, List.not_mem_nil, or_false, not_or] at hid
  simp only [Decoding.sectionReader, hid, if_false]

theorem SectionTurns.unknown_iff {id : UInt8} {contents : List UInt8}
    (hid : id ∉ [0, 1, 2, 3, 5, 6, 7, 10, 11, 12, 13]) :
    SectionTurns evaluate id contents m m' ↔ m' = m := by
  have hreader : Decoding.sectionReader evaluate id = none := sectionReader_eq_none hid
  have hzero : id ≠ 0 := fun hzero => hid (by simp [hzero])
  constructor
  · intro h
    cases h with
    | known hknown =>
        rw [hreader] at hknown
        cases hknown
    | custom hcustom => exact absurd hcustom hzero
    | unknown _ _ hm => exact hm
  · exact .unknown hreader hzero

/-- A custom section whose name can be read does not fail. -/
theorem custom_of_name {name : String} {front payload : List UInt8}
    (hname : NameReads name front) {window : Cursor}
    (hwindow : window.rest = front ++ payload) :
    ∃ after, Decoding.custom m window = .ok
      (if name = "name" then
        { m with names := Names.add m.names (.ofBytes payload.toArray) }
        else m) after := by
  obtain ⟨after, hread, hrest⟩ :=
    (Reading.name_reads.accepts hname).lift.ok_of_rest hwindow
  refine ⟨after, ?_⟩
  unfold Decoding.custom
  rw [EStateM.bind_of_ok hread]
  split
  · rw [EStateM.get_bind, Names.add_eq_of_rest (d := .ofBytes payload.toArray) hrest]
    rfl
  · rfl

theorem SectionTurns.custom_iff {name : String} {front payload : List UInt8}
    (hname : NameReads name front) :
    SectionTurns evaluate 0 (front ++ payload) m m' ↔
      m' = if name = "name"
        then { m with names := Names.add m.names (.ofBytes payload.toArray) }
          else m := by
  constructor
  · intro h
    cases h with
    | known hreader => cases hreader
    | custom _ hwindow hread =>
        obtain ⟨after, hafter⟩ := custom_of_name (m := m) hname hwindow
        rw [hafter] at hread
        injection hread with hm
        exact hm.symm
    | unknown _ hid => exact absurd rfl hid
  · rintro rfl
    have hwindow : (Cursor.ofBytes (front ++ payload).toArray).rest =
        front ++ payload := rfl
    obtain ⟨after, hafter⟩ := custom_of_name (m := m) hname hwindow
    exact .custom rfl hwindow hafter

/-- A section that is skipped leaves the module as it is. -/
theorem Skipped.sectionsTurn_iff (h : Skipped bytes) (back : List UInt8) (m : Module) :
    SectionsTurn evaluate (bytes ++ back) m r ↔ SectionsTurn evaluate back m r := by
  cases h with
  | unknown hid h =>
      obtain ⟨size, contents, hbytes, hsize, -⟩ := h
      simp only [SectionsTurn.cons_iff ⟨size, contents, hbytes, hsize, rfl⟩,
        SectionTurns.unknown_iff hid, exists_eq_left]
  | custom hname h =>
      obtain ⟨size, _, hbytes, hsize, front, payload, rfl, hfront⟩ := h
      simp only [SectionsTurn.cons_iff ⟨size, _, hbytes, hsize, rfl⟩,
        SectionTurns.custom_iff hfront, if_neg hname, exists_eq_left]

/-- A section of names changes names only. -/
theorem CustomEncodes.names_iff (h : CustomEncodes "name" bytes) (back : List UInt8)
    (m r : Module) :
    (∃ names, SectionsTurn evaluate (bytes ++ back) m { r with names }) ↔
      ∃ names, SectionsTurn evaluate back m { r with names } := by
  obtain ⟨size, _, hbytes, hsize, front, payload, rfl, hfront⟩ := h
  simp only [SectionsTurn.cons_iff ⟨size, _, hbytes, hsize, rfl⟩,
    SectionTurns.custom_iff hfront, if_pos, exists_eq_left, SectionsTurn.names_iff]

end

/-- Skipped sections do not matter.  Behind any sections and before any bytes, a
section of an unknown number or a custom section that does not hold names can be put in
or left out: the same modules are decoded.  With a section of names, however malformed,
decoding succeeds as well as without it, and the modules are equal but for their names.
-/
theorem decoding_ignores_skipped_sections {ids : List UInt8} {before bytes : List UInt8}
    (hbefore : Each (fun id => SectionEncodes id fun _ => True) ids before) (fuel : Nat)
    (back : List UInt8) :
    (Skipped bytes → ∀ m,
      Module.decode fuel (binary (before ++ (bytes ++ back))) = .ok m ↔
      Module.decode fuel (binary (before ++ back)) = .ok m) ∧
    (CustomEncodes "name" bytes → ∀ m : Module,
      (∃ names, Module.decode fuel (binary (before ++ (bytes ++ back))) =
        .ok { m with names }) ↔
        ∃ names, Module.decode fuel (binary (before ++ back)) = .ok
          { m with names }) := by
  simp only [Module.decode, decodeWith_binary_eq_ok_iff]
  refine ⟨fun hskipped m => ?_, fun hcustom m => ?_⟩
  · simp only [SectionsTurn.append_iff hbefore, hskipped.sectionsTurn_iff]
  · simp only [SectionsTurn.append_iff hbefore, exists_and_right]
    refine and_congr_left fun _ => ?_
    rw [exists_comm, exists_comm (α := Names)]
    simp only [exists_and_left, hcustom.names_iff]

namespace SkippingWitness

/-- The signature without parameters and results, and a function of it. -/
def declarations : List UInt8 :=
  [0x01, 0x04, 0x01, 0x60, 0x00, 0x00] ++ [0x03, 0x02, 0x01, 0x00]

/-- A body that does nothing. -/
def codeSection : List UInt8 :=
  [0x0a, 0x04, 0x01, 0x02, 0x00, 0x0b]

/-- A table, whose section has a number that is not known. -/
def tableSection : List UInt8 :=
  [0x04, 0x04, 0x01, 0x70, 0x00, 0x00]

/-- Names of functions that break off in the second of them: the first function is `f`.
-/
def nameSection : List UInt8 :=
  [0x00, 0x0b] ++ ([0x04, 0x6e, 0x61, 0x6d, 0x65] ++
    [0x01, 0x04, 0x02, 0x00, 0x01, 0x66])

def sample : Module where
  types := #[⟨[], []⟩]
  functions := #[0]
  codes := #[⟨#[], 0, .scope 0 .block (.func 0) [] none⟩]

theorem sections_declarations :
    Each (fun id => SectionEncodes id fun _ => True) [1, 3] declarations := by
  have htypes : SectionEncodes 1 (fun _ => True) [0x01, 0x04, 0x01, 0x60, 0x00, 0x00] :=
    ⟨[0x04], _, rfl, u32_singleton (by decide), trivial⟩
  have hfunctions : SectionEncodes 3 (fun _ => True) [0x03, 0x02, 0x01, 0x00] :=
    ⟨[0x02], _, rfl, u32_singleton (by decide), trivial⟩
  have heach : Each (fun id => SectionEncodes id fun _ => True) [1, 3]
      ([0x01, 0x04, 0x01, 0x60, 0x00, 0x00] ++ ([0x03, 0x02, 0x01, 0x00] ++ [])) :=
    .cons htypes (.cons hfunctions .nil)
  exact heach

theorem skipped_tableSection : Skipped tableSection :=
  .unknown (by decide) ⟨[0x04], _, rfl, u32_singleton (by decide), trivial⟩

theorem nameSection_encodes : CustomEncodes "name" nameSection := by
  have hname : NameReads "name" [0x04, 0x6e, 0x61, 0x6d, 0x65] :=
    ⟨[0x04], _, rfl, u32_singleton (by decide), by decide⟩
  exact ⟨[0x0b], _, rfl, u32_singleton (by decide), _, _, rfl, hname⟩

theorem decode_without_skipped :
    Module.decode 0 (binary (declarations ++ codeSection)) = .ok sample := by
  with_unfolding_all rfl

/-- A table and names that break off do no harm between the declarations and the code.
-/
theorem sample_with_skipped_sections :
    Module.decode 0 (binary (declarations ++ (tableSection ++ codeSection))) =
      .ok sample ∧
    ∃ names, Module.decode 0 (binary (declarations ++ (nameSection ++ codeSection))) =
      .ok { sample with names } := by
  have htables :=
    (decoding_ignores_skipped_sections sections_declarations 0 codeSection).1
      skipped_tableSection sample
  have hnames :=
    (decoding_ignores_skipped_sections sections_declarations 0 codeSection).2
      nameSection_encodes sample
  exact ⟨htables.mpr decode_without_skipped,
    hnames.mpr ⟨sample.names, decode_without_skipped⟩⟩

end SkippingWitness

end WasmVm
