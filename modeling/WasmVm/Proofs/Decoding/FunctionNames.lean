/-
Names of functions.  A section of names is read entry by entry, and every entry is
added as soon as it has been read.  So a section that breaks off leaves the names in
front of the place where it does.
-/
import WasmVm.Proofs.Decoding.Skipping

namespace WasmVm

open Leb128

/-! ### Nothing to read -/

/-- The bytes begin with no encoding. -/
def NoneAhead {α : Type} (E : α → List UInt8 → Prop) (bytes : List UInt8) : Prop :=
  ∀ a front, E a front → ¬ front <+: bytes

section
variable {α : Type} {E : α → List UInt8 → Prop}

theorem NoneAhead.exists_of_not {bytes : List UInt8} (h : ¬ NoneAhead E bytes) :
    ∃ a front back, E a front ∧ bytes = front ++ back := by
  simp only [NoneAhead, Classical.not_forall, Classical.not_not] at h
  obtain ⟨a, front, ha, back, hback⟩ := h
  exact ⟨a, front, back, ha, hback.symm⟩

/-- Where there is no encoding ahead a read fails. -/
theorem Reads.eq_error {r : Reading α} (h : Reads r E) {c : Cursor}
    (hnone : NoneAhead E c.rest) :
    ∃ e c', r c = .error e c' := by
  cases hread : r c with
  | ok a c' =>
      obtain ⟨front, ha, hahead, -⟩ := (h c a c').mp hread
      exact absurd hahead (hnone a front ha)
  | error e c' => exact ⟨e, c', rfl⟩

end

namespace Names

/-! ### The format -/

/-- The bytes that are read as an index and its name. -/
def EntryReads (entry : Nat × String) (bytes : List UInt8) : Prop :=
  ∃ index name, bytes = index ++ name ∧ U32 entry.1 index ∧ NameReads entry.2 name

/-- The contents of a subsection of function names: a count, as many entries, and
whatever may come behind them. -/
def Lists (entries : List (Nat × String)) (contents : List UInt8) : Prop :=
  ∃ count body rest, contents = count ++ (body ++ rest) ∧ U32 entries.length count ∧
    Each EntryReads entries body

/-- The contents of a subsection of function names that break off behind some entries:
there is no count, or there are fewer entries than it promises. -/
inductive ListBreaks : List (Nat × String) → List UInt8 → Prop
  | count {contents} (h : NoneAhead U32 contents) : ListBreaks [] contents
  | entry {n entries count body rest} (hcount : U32 n count)
      (hbody : Each EntryReads entries body) (hfewer : entries.length < n)
      (hrest : NoneAhead EntryReads rest) :
      ListBreaks entries (count ++ (body ++ rest))

/-- Well-formed names: subsections to the end, of which those of the number one hold the
entries, one behind the other. -/
inductive WellFormed : List (Nat × String) → List UInt8 → Prop
  | nil : WellFormed [] []
  | functions {entries contents front more back}
      (hsection : SectionEncodes 1 (· = contents) front)
      (hlists : Lists entries contents)
      (hmore : WellFormed more back) : WellFormed (entries ++ more) (front ++ back)
  | other {id contents front more back} (hid : id ≠ 1)
      (hsection : SectionEncodes id (· = contents) front)
      (hmore : WellFormed more back) :
      WellFormed more (front ++ back)

/-- Names that break off behind some entries: there is something that is no subsection,
or the entries of one break off. -/
inductive BreaksOff : List (Nat × String) → List UInt8 → Prop
  | subsection {bytes} (hbytes : bytes ≠ [])
      (h : NoneAhead (fun id => SectionEncodes id fun _ => True) bytes) :
      BreaksOff [] bytes
  | inside {entries contents front back}
      (hsection : SectionEncodes 1 (· = contents) front)
      (hbreaks : ListBreaks entries contents) : BreaksOff entries (front ++ back)
  | functions {entries contents front more back}
      (hsection : SectionEncodes 1 (· = contents) front)
      (hlists : Lists entries contents)
      (hmore : BreaksOff more back) : BreaksOff (entries ++ more) (front ++ back)
  | other {id contents front more back} (hid : id ≠ 1)
      (hsection : SectionEncodes id (· = contents) front)
      (hmore : BreaksOff more back) :
      BreaksOff more (front ++ back)

theorem entry_reads : Reads entry EntryReads := by
  refine (Reading.u32_reads.bind fun index => Reading.name_reads.bind_pure).congr ?_
  rintro ⟨i, s⟩ bytes
  constructor
  · rintro ⟨index, front, back, rfl, hindex, name, hname, ⟨⟩⟩
    exact ⟨front, back, rfl, hindex, hname⟩
  · rintro ⟨front, back, rfl, hindex, hname⟩
    exact ⟨i, front, back, rfl, hindex, s, hname, rfl⟩

/-! ### Every content is one or the other -/

/-- As many entries are ahead as are wanted, or fewer and then none. -/
theorem entries_or_breaks (n : Nat) (bytes : List UInt8) :
    ∃ entries body rest, bytes = body ++ rest ∧ Each EntryReads entries body ∧
      (entries.length = n ∨ entries.length < n ∧ NoneAhead EntryReads rest) := by
  induction n generalizing bytes with
  | zero => exact ⟨[], [], bytes, rfl, .nil, .inl rfl⟩
  | succ n ih =>
      by_cases hnone : NoneAhead EntryReads bytes
      · exact ⟨[], [], bytes, rfl, .nil, .inr ⟨Nat.succ_pos n, hnone⟩⟩
      · obtain ⟨entry, front, rest, hentry, rfl⟩ := NoneAhead.exists_of_not hnone
        obtain ⟨entries, body, rest, rfl, hbody, hends⟩ := ih rest
        refine ⟨entry :: entries, front ++ body, rest, (List.append_assoc ..).symm,
          .cons hentry hbody, ?_⟩
        simpa using hends

theorem lists_or_breaks (contents : List UInt8) :
    ∃ entries, Lists entries contents ∨ ListBreaks entries contents := by
  by_cases hnone : NoneAhead U32 contents
  · exact ⟨[], .inr (.count hnone)⟩
  · obtain ⟨n, count, rest, hcount, rfl⟩ := NoneAhead.exists_of_not hnone
    obtain ⟨entries, body, rest, rfl, hbody, rfl | ⟨hfewer, hrest⟩⟩ :=
      entries_or_breaks n rest
    · exact ⟨entries, .inl ⟨count, body, rest, rfl, hcount, hbody⟩⟩
    · exact ⟨entries, .inr (.entry hcount hbody hfewer hrest)⟩

/-- Names are well formed, or they break off. -/
theorem wellFormed_or_breaksOff (bytes : List UInt8) :
    ∃ entries, WellFormed entries bytes ∨ BreaksOff entries bytes := by
  induction hlength : bytes.length using Nat.strongRecOn generalizing bytes with
  | ind n ih =>
      by_cases hbytes : bytes = []
      · subst hbytes
        exact ⟨[], .inl .nil⟩
      by_cases hnone : NoneAhead (fun id => SectionEncodes id fun _ => True) bytes
      · exact ⟨[], .inr (.subsection hbytes hnone)⟩
      obtain ⟨id, front, back, ⟨size, contents, hfront, hsize, -⟩, rfl⟩ :=
        NoneAhead.exists_of_not hnone
      have hsection : SectionEncodes id (· = contents) front :=
        ⟨size, contents, hfront, hsize, rfl⟩
      have hshorter : back.length < n := by
        rw [← hlength, List.length_append, hfront, List.length_cons]
        omega
      obtain ⟨more, hmore⟩ := ih back.length hshorter back rfl
      by_cases hid : id = 1
      · subst hid
        obtain ⟨entries, hlists | hbreaks⟩ := lists_or_breaks contents
        · exact ⟨entries ++ more,
            hmore.imp (.functions hsection hlists) (.functions hsection hlists)⟩
        · exact ⟨entries, .inr (.inside hsection hbreaks)⟩
      · exact ⟨more, hmore.imp (.other hid hsection) (.other hid hsection)⟩

/-- Where as many entries are ahead as are wanted, they do not break off before. -/
theorem entries_not_break {entries few : List (Nat × String)}
    {body front rest back : List UInt8} (hbody : Each EntryReads entries body)
    (hfront : Each EntryReads few front) (heq : body ++ rest = front ++ back)
    (hfewer : few.length < entries.length) :
    ¬ NoneAhead EntryReads back := by
  induction hfront generalizing entries body with
  | nil =>
      cases hbody with
      | nil => cases hfewer
      | @cons entry _ first others hentry _ =>
          intro hnone
          refine hnone entry first hentry ?_
          rw [List.nil_append] at heq
          rw [← heq, List.append_assoc]
          exact List.prefix_append _ _
  | @cons entry few first others hentry _ ih =>
      cases hbody with
      | nil => cases hfewer
      | @cons entry' entries first' others' hentry' hothers =>
          rw [List.append_assoc, List.append_assoc] at heq
          obtain ⟨-, rfl⟩ := entry_reads.unique hentry' hentry (List.prefix_append _ _)
            (heq.symm ▸ List.prefix_append _ _)
          exact ih hothers (List.append_cancel_left heq) (Nat.lt_of_succ_lt_succ hfewer)

theorem lists_not_break {entries few : List (Nat × String)} {contents : List UInt8}
    (h : Lists entries contents) : ¬ ListBreaks few contents := by
  obtain ⟨count, body, rest, rfl, hcount, hbody⟩ := h
  intro hbreaks
  generalize hall : count ++ (body ++ rest) = contents at hbreaks
  cases hbreaks with
  | count hnone => exact hnone _ count hcount (hall ▸ List.prefix_append _ _)
  | entry hcount' hfront hfewer hnone =>
      obtain ⟨rfl, rfl⟩ := Reading.u32_reads.unique hcount hcount'
        (List.prefix_append _ _) (hall.symm ▸ List.prefix_append _ _)
      exact entries_not_break hbody hfront (List.append_cancel_left hall) hfewer hnone

/-- What is well formed does not break off. -/
theorem WellFormed.not_breaksOff {entries few : List (Nat × String)}
    {bytes : List UInt8} (h : WellFormed entries bytes) : ¬ BreaksOff few bytes := by
  intro hbreaks
  induction h generalizing few with
  | nil =>
      generalize hall : [] = bytes at hbreaks
      cases hbreaks with
      | subsection hbytes => exact hbytes hall.symm
      | inside hsection | functions hsection | other _ hsection =>
          obtain ⟨size, contents, rfl, -⟩ := hsection
          cases hall
  | @functions entries contents front more back hsection hlists _ ih =>
      generalize hall : front ++ back = bytes at hbreaks
      cases hbreaks with
      | subsection _ hnone =>
          obtain ⟨size, contents, hfront, hsize, -⟩ := hsection
          exact hnone 1 front ⟨size, contents, hfront, hsize, trivial⟩
            (hall ▸ List.prefix_append _ _)
      | inside hsection' hbreaks =>
          obtain ⟨-, rfl, -⟩ := hsection.unique hsection' hall
          exact lists_not_break hlists hbreaks
      | functions hsection' _ hmore =>
          obtain ⟨-, -, rfl⟩ := hsection.unique hsection' hall
          exact ih hmore
      | other hid hsection' =>
          obtain ⟨rfl, -⟩ := hsection.unique hsection' hall
          exact hid rfl
  | @other id contents front more back hid hsection _ ih =>
      generalize hall : front ++ back = bytes at hbreaks
      cases hbreaks with
      | subsection _ hnone =>
          obtain ⟨size, contents, hfront, hsize, -⟩ := hsection
          exact hnone id front ⟨size, contents, hfront, hsize, trivial⟩
            (hall ▸ List.prefix_append _ _)
      | inside hsection' | functions hsection' =>
          obtain ⟨rfl, -⟩ := hsection.unique hsection' hall
          exact hid rfl
      | other _ hsection' hmore =>
          obtain ⟨-, -, rfl⟩ := hsection.unique hsection' hall
          exact ih hmore

/-! ### Reading -/

/-- The names with entries added one after the other. -/
def addAll (names : Names) (entries : List (Nat × String)) : Names :=
  entries.foldl (fun names entry => names.insert entry.1 entry.2) names

theorem addAll_append (names : Names) (entries more : List (Nat × String)) :
    names.addAll (entries ++ more) = (names.addAll entries).addAll more :=
  List.foldl_append

/-- Of the entries for an index the last one counts, and without any its name stays. -/
theorem getElem?_addAll (names : Names) (entries : List (Nat × String)) (index : Nat) :
    (names.addAll entries)[index]? = (entries.reverse.lookup index).or
      names[index]? := by
  induction entries generalizing names with
  | nil => rfl
  | cons entry entries ih =>
      rw [addAll, List.foldl_cons, ← addAll, ih, List.reverse_cons, List.lookup_append,
        Option.or_assoc, Std.TreeMap.getElem?_insert]
      congr 1
      obtain ⟨key, name⟩ := entry
      by_cases hindex : key = index
      · simp [hindex]
      · simp [List.lookup_cons, hindex, beq_false_of_ne (Ne.symm hindex)]

/-- Entries that are ahead are added. -/
theorem addEntries_of_each {entries : List (Nat × String)} {body : List UInt8}
    (h : Each EntryReads entries body) (left : Nat) (names : Names) {c : Cursor}
    (hahead : body <+: c.rest) : addEntries (entries.length + left) names c =
      addEntries left (names.addAll entries) (c.advance body.length) := by
  induction h generalizing names c with
  | nil => rw [List.length_nil, Nat.zero_add]; rfl
  | @cons entry entries front back hfront _ ih =>
      obtain ⟨hfirst, hrest⟩ := Cursor.prefix_rest_append.mp hahead
      have hentry := entry_reads.accepts hfront c hfirst
      rw [List.length_cons, Nat.add_right_comm, addEntries, hentry]
      dsimp only
      rw [ih _ hrest, Cursor.advance_advance, List.length_append]
      rfl

/-- A subsection that is ahead is split off. -/
theorem subsection_of_ahead {id : UInt8} {contents front : List UInt8}
    (h : SectionEncodes id (· = contents) front) {c : Cursor}
    (hahead : front <+: c.rest) :
    ∃ inner, subsection c = .ok (id, inner) (c.advance front.length) ∧
      inner.rest = contents := by
  obtain ⟨size, contents, rfl, hsize, rfl⟩ := h
  obtain ⟨hid, hbehind⟩ : [id] <+: c.rest ∧ size ++ contents <+:
    (c.advance [id].length).rest :=
    Cursor.prefix_rest_append.mp hahead
  obtain ⟨hsizeAhead, hcontents⟩ := Cursor.prefix_rest_append.mp hbehind
  refine ⟨⟨contents.toArray, 0, ((c.advance [id].length).advance size.length).offset⟩,
    ?_, rfl⟩
  unfold subsection
  rw [EStateM.bind_of_ok (Reading.byte_reads.accepts rfl c hid),
    EStateM.bind_of_ok (Reading.u32_accepts hsize _ hsizeAhead),
    EStateM.bind_of_ok (Decoding.window_of_ahead hcontents)]
  refine congrArg (EStateM.Result.ok _) ?_
  simp only [Cursor.advance_advance, List.length_append, List.length_cons,
    List.length_nil, Nat.zero_add, Nat.add_assoc, Nat.add_comm 1]

/-- Where there is no subsection ahead, none is split off. -/
theorem subsection_eq_error {c : Cursor}
    (h : NoneAhead (fun id => SectionEncodes id fun _ => True) c.rest) :
    ∃ e c', subsection c = .error e c' := by
  cases hread : subsection c with
  | error e c' => exact ⟨e, c', rfl⟩
  | ok found c' =>
      obtain ⟨id, c₁, hid, hbehind⟩ := EStateM.bind_eq_ok hread
      obtain ⟨_, rfl, hidAhead, rfl⟩ := (Reading.byte_reads c id c₁).mp hid
      obtain ⟨size, c₂, hsize, hlast⟩ := EStateM.bind_eq_ok hbehind
      obtain ⟨front, hnumber, hsizeAhead, rfl⟩ := (Reading.u32_reads _ size c₂).mp hsize
      obtain ⟨inner, c₃, hwindow, -⟩ := EStateM.bind_eq_ok hlast
      obtain ⟨contents, -, rfl, hcontents, -⟩ := Decoding.window_eq_ok hwindow
      have hahead : [id] ++ (front ++ contents) <+: c.rest :=
        Cursor.prefix_rest_append.mpr ⟨hidAhead,
          Cursor.prefix_rest_append.mpr ⟨hsizeAhead, hcontents⟩⟩
      exact absurd hahead (h id _ ⟨front, contents, rfl, hnumber, trivial⟩)

/-- The entries of a list that breaks off are added, and that it does is told. -/
theorem addEntries_of_breaks {entries : List (Nat × String)} {contents : List UInt8}
    (h : ListBreaks entries contents) (names : Names) {c : Cursor}
    (hrest : c.rest = contents) :
    (∃ e c', Reading.u32 c = .error e c' ∧ names.addAll entries = names) ∨
      ∃ n c', Reading.u32 c = .ok n c' ∧ addEntries n names c' =
        (names.addAll entries, false) := by
  subst hrest
  generalize hcontents : c.rest = contents at h
  cases h with
  | count hnone =>
      obtain ⟨e, c', hread⟩ := Reading.u32_reads.eq_error (hcontents ▸ hnone)
      exact .inl ⟨e, c', hread, rfl⟩
  | @entry n entries count body rest hcount hbody hfewer hnone =>
      obtain ⟨after, hread, hafter⟩ := (Reading.u32_accepts hcount).ok_of_rest hcontents
      refine .inr ⟨n, after, hread, ?_⟩
      obtain ⟨left, rfl⟩ : ∃ left, n = entries.length + (left + 1) :=
        ⟨n - entries.length - 1, by omega⟩
      have hahead : body <+: after.rest := hafter ▸ List.prefix_append body rest
      have hbehind : (after.advance body.length).rest = rest := by
        rw [Cursor.rest_advance, hafter, List.drop_left]
      obtain ⟨e, c', herror⟩ := entry_reads.eq_error (hbehind.symm ▸ hnone)
      rw [addEntries_of_each hbody _ _ hahead, addEntries, herror]

/-- The entries of a list are added. -/
theorem addEntries_of_lists {entries : List (Nat × String)} {contents : List UInt8}
    (h : Lists entries contents) (names : Names) {c : Cursor}
    (hrest : c.rest = contents) :
    ∃ n c', Reading.u32 c = .ok n c' ∧ addEntries n names c' =
      (names.addAll entries, true) := by
  obtain ⟨count, body, rest, rfl, hcount, hbody⟩ := h
  obtain ⟨after, hread, hafter⟩ := (Reading.u32_accepts hcount).ok_of_rest hrest
  refine ⟨_, after, hread, ?_⟩
  have hadded := addEntries_of_each hbody 0 names
    (hafter ▸ List.prefix_append body rest)
  rw [Nat.add_zero] at hadded
  exact hadded

/-- The subsection in front is split off, with fuel left for what is behind it. -/
theorem subsection_in_front {id : UInt8} {contents front back : List UInt8} {fuel : Nat}
    {c : Cursor} (hsection : SectionEncodes id (· = contents) front)
    (hrest : c.rest = front ++ back) (hfuel : (front ++ back).length ≤ fuel) :
    c.isFinished = false ∧ ∃ left inner after, fuel = left + 1 ∧ back.length ≤ left ∧
      subsection c = .ok (id, inner) after ∧ inner.rest = contents ∧
      after.rest = back := by
  have hfront : 0 < front.length := by
    obtain ⟨size, _, rfl, -⟩ := hsection
    exact Nat.succ_pos _
  have hahead : front <+: c.rest := hrest ▸ List.prefix_append front back
  obtain ⟨inner, hread, hinner⟩ := subsection_of_ahead hsection hahead
  have hafter : (c.advance front.length).rest = back := by
    rw [Cursor.rest_advance, hrest, List.drop_left]
  rw [List.length_append] at hfuel
  refine ⟨?_, fuel - 1, inner, _, by omega, by omega, hread, hinner, hafter⟩
  rw [Bool.eq_false_iff, ne_eq, Cursor.isFinished_iff, hrest]
  intro hnil
  rw [List.append_eq_nil_iff] at hnil
  rw [hnil.1] at hfront
  cases hfront

/-- Subsections in these bytes add these entries, wherever the bytes lie. -/
def Adds (entries : List (Nat × String)) (bytes : List UInt8) : Prop :=
  ∀ (fuel : Nat) (names : Names) (c : Cursor), c.rest = bytes → bytes.length ≤ fuel →
    addSubsections fuel names c = names.addAll entries

namespace Adds

variable {id : UInt8} {entries more : List (Nat × String)}
  {contents front back bytes : List UInt8}

theorem nil : Adds [] [] := by
  intro fuel names c hrest _
  cases fuel with
  | zero => rfl
  | succ fuel =>
      rw [addSubsections, if_pos (Cursor.isFinished_iff.mpr hrest)]
      rfl

/-- A subsection of another number is passed over. -/
theorem other (hid : id ≠ 1) (hsection : SectionEncodes id (· = contents) front)
    (hback : Adds more back) : Adds more (front ++ back) := by
  intro fuel names c hrest hfuel
  obtain ⟨hmore, left, inner, after, rfl, hleft, hread, -, hafter⟩ :=
    subsection_in_front hsection hrest hfuel
  rw [addSubsections, hmore, hread]
  dsimp only
  rw [if_neg Bool.false_ne_true, if_pos hid]
  exact hback left names after hafter hleft

/-- One of function names adds its entries. -/
theorem functions (hsection : SectionEncodes 1 (· = contents) front)
    (hlists : Lists entries contents) (hback : Adds more back) :
    Adds (entries ++ more) (front ++ back) := by
  intro fuel names c hrest hfuel
  obtain ⟨hmore, left, inner, after, rfl, hleft, hread, hinner, hafter⟩ :=
    subsection_in_front hsection hrest hfuel
  obtain ⟨n, behind, hcount, hadded⟩ := addEntries_of_lists hlists names hinner
  rw [addSubsections, hmore, hread]
  dsimp only
  rw [if_neg Bool.false_ne_true, if_neg (not_not_intro rfl), hcount]
  dsimp only
  rw [hadded, addAll_append]
  exact hback left _ after hafter hleft

/-- If it breaks off, nothing behind it is looked at. -/
theorem inside (hsection : SectionEncodes 1 (· = contents) front)
    (hbreaks : ListBreaks entries contents) : Adds entries (front ++ back) := by
  intro fuel names c hrest hfuel
  obtain ⟨hmore, left, inner, after, rfl, -, hread, hinner, -⟩ :=
    subsection_in_front hsection hrest hfuel
  rw [addSubsections, hmore, hread]
  dsimp only
  rw [if_neg Bool.false_ne_true, if_neg (not_not_intro rfl)]
  rcases addEntries_of_breaks hbreaks names hinner with
    ⟨e, c', herror, hnames⟩ | ⟨n, c', hcount, hadded⟩
  · rw [herror, hnames]
  · rw [hcount]
    dsimp only
    rw [hadded]

theorem subsection
    (hnone : NoneAhead (fun id => SectionEncodes id fun _ => True) bytes) :
    Adds [] bytes := by
  intro fuel names c hrest _
  cases fuel with
  | zero => rfl
  | succ fuel =>
      obtain ⟨e, c', herror⟩ := subsection_eq_error (hrest.symm ▸ hnone)
      rw [addSubsections, herror]
      split <;> rfl

end Adds

/-- All entries of well-formed names are added. -/
theorem WellFormed.adds {entries : List (Nat × String)} {bytes : List UInt8}
    (h : WellFormed entries bytes) : Adds entries bytes := by
  induction h with
  | nil => exact .nil
  | functions hsection hlists _ ih => exact .functions hsection hlists ih
  | other hid hsection _ ih => exact .other hid hsection ih

/-- Of names that break off the entries in front are added. -/
theorem BreaksOff.adds {entries : List (Nat × String)} {bytes : List UInt8}
    (h : BreaksOff entries bytes) : Adds entries bytes := by
  induction h with
  | subsection _ hnone => exact .subsection hnone
  | inside hsection hbreaks => exact .inside hsection hbreaks
  | functions hsection hlists _ ih => exact .functions hsection hlists ih
  | other hid hsection _ ih => exact .other hid hsection ih

end Names

/-- A section of names adds to the names of a module, whatever else has been decoded,
and changes nothing else.  Its contents are well formed or break off at some place, not
both.  If they are well formed then exactly the entries of their subsections of
function names are added, and if they break off then those in front of that place.  A
later entry for an index counts instead of an earlier one and of the name that was
there. -/
theorem names_added_until_break {field : List UInt8} (hfield : NameReads "name" field)
    (evaluate : List UInt8 → Except Halt Value) (bytes : List UInt8) :
    (∃ entries, Names.WellFormed entries bytes ∨ Names.BreaksOff entries bytes) ∧
      (∀ entries few, Names.WellFormed entries bytes → ¬ Names.BreaksOff few bytes) ∧
      ∀ entries, Names.WellFormed entries bytes ∨ Names.BreaksOff entries bytes →
        ∀ m : Module, ∃ names : Names,
          (∀ m', SectionTurns evaluate 0 (field ++ bytes) m m' ↔
            m' = { m with names }) ∧
          ∀ index, names[index]? = (entries.reverse.lookup index).or
            m.names[index]? := by
  refine ⟨Names.wellFormed_or_breaksOff bytes, fun _ _ h => h.not_breaksOff,
    fun entries h m => ?_⟩
  have hadds : Names.Adds entries bytes := h.elim (·.adds) (·.adds)
  have hrest : (Cursor.ofBytes bytes.toArray).rest = bytes := rfl
  have hremaining : (Cursor.ofBytes bytes.toArray).remaining = bytes.length := by
    rw [← Cursor.length_rest, hrest]
  have hnames : Names.add m.names (.ofBytes bytes.toArray) =
      Names.addAll m.names entries :=
    hadds _ _ _ hrest (Nat.le_of_eq hremaining.symm)
  refine ⟨Names.addAll m.names entries, fun m' => ?_,
    Names.getElem?_addAll m.names entries⟩
  rw [SectionTurns.custom_iff hfield, if_pos rfl, hnames]

namespace FunctionNamesWitness

def field : List UInt8 :=
  [0x04, 0x6e, 0x61, 0x6d, 0x65]

/-- Two names for the first function. -/
def repeated : List UInt8 :=
  [0x01, 0x07] ++ ([0x02] ++ (([0x00, 0x01, 0x61] ++ ([0x00, 0x01, 0x62] ++ [])) ++ []))

/-- Two names are promised, and there is one. -/
def broken : List UInt8 :=
  [0x01, 0x04] ++ ([0x02] ++ (([0x00, 0x01, 0x61] ++ []) ++ [])) ++ []

theorem entryReads {index letter : UInt8} {name : String} (hindex : index < 0x80)
    (hname : Text.ofUtf8 [letter] = name) :
    Names.EntryReads (index.toNat, name) [index, 0x01, letter] :=
  ⟨[index], [0x01, letter], rfl, u32_singleton hindex,
    [0x01], [letter], rfl, u32_singleton (by decide), hname⟩

/-- The later name counts. -/
theorem later_name_counts : ∃ names : Names,
    (∀ m', SectionTurns (fun _ => .error .outOfFuel) 0 (field ++ repeated) {} m' ↔
      m' = { ({} : Module) with names }) ∧ names[0]? = some "b" := by
  have hfield : NameReads "name" field :=
    ⟨[0x04], _, rfl, u32_singleton (by decide), by decide⟩
  have hlists : Names.Lists [(0, "a"), (0, "b")]
      ([0x02] ++ (([0x00, 0x01, 0x61] ++ ([0x00, 0x01, 0x62] ++ [])) ++ [])) :=
    ⟨[0x02], _, [], rfl, u32_singleton (by decide),
      .cons (entryReads (by decide) (by decide))
        (.cons (entryReads (by decide) (by decide)) .nil)⟩
  have hformed : Names.WellFormed ([(0, "a"), (0, "b")] ++ []) (repeated ++ []) :=
    .functions ⟨[0x07], _, rfl, u32_singleton (by decide), rfl⟩ hlists .nil
  obtain ⟨-, -, hadded⟩ := names_added_until_break hfield
    (fun _ => .error .outOfFuel) repeated
  obtain ⟨names, hturn, hnames⟩ := hadded _ (.inl hformed) {}
  exact ⟨names, hturn, hnames 0⟩

/-- The name in front of the place where the names break off is there. -/
theorem broken_names_stay : Names.BreaksOff [(0, "a")] broken ∧
    ∃ m, Module.decode 0 (binary ([0x00, 0x0b] ++ (field ++ broken))) = .ok m ∧
      m.names[0]? = some "a" := by
  constructor
  · have hnone : NoneAhead Names.EntryReads [] := by
      rintro entry _ ⟨index, name, rfl, hindex, -⟩ hahead
      exact hindex.1.ne_nil (List.append_eq_nil_iff.mp (List.prefix_nil.mp hahead)).1
    have hentry : Each Names.EntryReads [(0, "a")] ([0x00, 0x01, 0x61] ++ []) :=
      .cons (entryReads (by decide) (by decide)) .nil
    exact .inside ⟨[0x04], _, rfl, u32_singleton (by decide), rfl⟩
      (.entry (u32_singleton (by decide)) hentry
        (by decide : 1 < (2 : UInt8).toNat) hnone)
  · exact ⟨_, by with_unfolding_all rfl, by with_unfolding_all rfl⟩

end FunctionNamesWitness

end WasmVm
