/-
Linear memory as a bounded array of bytes.  The array is a list with a limit in pages,
and what each operation may do to it is written down on the list alone.  Every sequence
of operations on a memory is a run of the array, with the same answers and the same
bytes. -/
import WasmVm.Memory

namespace WasmVm

/-- What can be asked of a memory. -/
inductive MemoryOp where
  | load (address offset length : Nat)
  | store (address offset : Nat) (bytes : List UInt8)
  | fill (address : Nat) (value : UInt8) (length : Nat)
  | copy (target source length : Nat)
  | grow (delta : Nat)

/-- How a memory answers. -/
inductive MemoryAnswer where
  | loaded (bytes : List UInt8)
  | written
  /-- The size in pages before the memory was grown. -/
  | grown (pages : Nat)
  /-- The memory may not have as many pages. -/
  | refused
  | trapped (t : Trap)

/-- Pages that a memory with these limits may have at most. -/
def pageLimit (l : Limits) : Nat :=
  min (l.max.getD maxPages) maxPages

/-! ### The array -/

/-- The ranges that an operation accesses: where each starts, and how long it is. -/
def MemoryOp.ranges : MemoryOp → List (Nat × Nat)
  | load address offset length => [(address + offset, length)]
  | store address offset bytes => [(address + offset, bytes.length)]
  | fill address _ length => [(address, length)]
  | copy target source length => [(source, length), (target, length)]
  | grow _ => []

/-- All bytes that an operation accesses exist. -/
def MemoryOp.Fits (op : MemoryOp) (size : Nat) : Prop :=
  ∀ range ∈ op.ranges, range.1 + range.2 ≤ size

/-- The bytes of `after` from `start` on are those of `source`, and all others are as
before. -/
structure Overlaid (before : List UInt8) (start : Nat) (source after : List UInt8) :
    Prop where
  length : after.length = before.length
  inside : ∀ i, i < source.length → after[start + i]? = source[i]?
  outside : ∀ i, i < start ∨ start + source.length ≤ i → after[i]? = before[i]?

/-- The steps of an array of bytes that may have `limit` pages. -/
inductive ByteStep (limit : Nat) (bytes : List UInt8) :
    MemoryOp → MemoryAnswer → List UInt8 → Prop
  | load {address offset length}
      (hfits : (MemoryOp.load address offset length).Fits bytes.length) :
      ByteStep limit bytes (.load address offset length)
        (.loaded ((bytes.drop (address + offset)).take length)) bytes
  | store {address offset source after}
      (hfits : (MemoryOp.store address offset source).Fits bytes.length)
      (hafter : Overlaid bytes (address + offset) source after) :
      ByteStep limit bytes (.store address offset source) .written after
  | fill {address value length after}
      (hfits : (MemoryOp.fill address value length).Fits bytes.length)
      (hafter : Overlaid bytes address (List.replicate length value) after) :
      ByteStep limit bytes (.fill address value length) .written after
  /-- The source is taken as it was, also where the ranges overlap. -/
  | copy {target source length after}
      (hfits : (MemoryOp.copy target source length).Fits bytes.length)
      (hafter : Overlaid bytes target ((bytes.drop source).take length) after) :
      ByteStep limit bytes (.copy target source length) .written after
  | trap {op t} (hfits : ¬ op.Fits bytes.length) (hcode : t.code = .memoryOutOfBounds) :
      ByteStep limit bytes op (.trapped t) bytes
  | grow {delta} (hroom : bytes.length / pageSize + delta ≤ limit) :
      ByteStep limit bytes (.grow delta) (.grown (bytes.length / pageSize))
        (bytes ++ List.replicate (delta * pageSize) 0)
  | refuse {delta} (hfull : limit < bytes.length / pageSize + delta) :
      ByteStep limit bytes (.grow delta) .refused bytes

/-- Steps one after the other, with what was asked and answered. -/
inductive ByteRun (limit : Nat) :
    List UInt8 → List (MemoryOp × MemoryAnswer) → List UInt8 → Prop
  | done {bytes} : ByteRun limit bytes [] bytes
  | step {bytes op answer next log after} (hstep : ByteStep limit bytes op answer next)
      (hrest : ByteRun limit next log after) :
      ByteRun limit bytes ((op, answer) :: log) after

/-- The array has whole pages, and not more than it may have. -/
structure PagesWithin (limit : Nat) (bytes : List UInt8) : Prop where
  whole : pageSize ∣ bytes.length
  limited : bytes.length ≤ limit * pageSize

namespace ByteStep

variable {limit : Nat} {bytes after : List UInt8} {op : MemoryOp}
  {answer : MemoryAnswer}

/-- No step takes bytes away. -/
theorem length_le (h : ByteStep limit bytes op answer after) :
    bytes.length ≤ after.length := by
  cases h with
  | load | trap | refuse => exact Nat.le_refl _
  | store _ hafter | fill _ hafter | copy _ hafter =>
      exact Nat.le_of_eq hafter.length.symm
  | grow => simp

theorem pagesWithin (h : ByteStep limit bytes op answer after)
    (hpages : PagesWithin limit bytes) :
    PagesWithin limit after := by
  obtain ⟨hwhole, hlimited⟩ := hpages
  cases h with
  | load | trap | refuse => exact ⟨hwhole, hlimited⟩
  | store _ hafter | fill _ hafter | copy _ hafter =>
      exact ⟨hafter.length ▸ hwhole, hafter.length ▸ hlimited⟩
  | @grow delta hroom =>
      have hlength : (bytes ++ List.replicate (delta * pageSize) 0).length =
          (bytes.length / pageSize + delta) * pageSize := by
        rw [List.length_append, List.length_replicate, Nat.add_mul,
          Nat.div_mul_cancel hwhole]
      refine ⟨?_, ?_⟩
      · rw [hlength]
        exact Nat.dvd_mul_left _ _
      · rw [hlength]
        exact Nat.mul_le_mul_right _ hroom

end ByteStep

namespace ByteRun

variable {limit : Nat} {bytes after : List UInt8} {log : List (MemoryOp × MemoryAnswer)}

theorem length_le (h : ByteRun limit bytes log after) :
    bytes.length ≤ after.length := by
  induction h with
  | done => exact Nat.le_refl _
  | step hstep _ ih => exact Nat.le_trans hstep.length_le ih

theorem pagesWithin (h : ByteRun limit bytes log after)
    (hpages : PagesWithin limit bytes) :
    PagesWithin limit after := by
  induction h with
  | done => exact hpages
  | step hstep _ ih => exact ih (hstep.pagesWithin hpages)

end ByteRun

/-! ### The memory -/

namespace Memory

/-- The bytes of a memory. -/
def contents (m : Memory) : List UInt8 :=
  m.bytes.data.toList

variable {m : Memory} {start length : Nat}

@[simp] theorem length_contents (m : Memory) : m.contents.length = m.size := rfl

theorem contents_ofLimits (l : Limits) :
    (ofLimits l).contents = List.replicate (min l.min (pageLimit l) * pageSize) 0 := by
  change (Array.replicate (min l.min (pageLimit l) * pageSize) (0 : UInt8)).toList = _
  exact Array.toList_replicate

theorem contents_extend (m : Memory) (delta : Nat) :
    (m.extend delta).contents = m.contents ++ List.replicate (delta * pageSize) 0 := by
  simp [contents, extend, zeros]

theorem getElem?_contents (m : Memory) {i : Nat} (hi : i < m.size) :
    m.contents[i]? = some (m.byte i) := by
  have hbyte : m.byte i = m.bytes.data[i] := dif_pos hi
  rw [contents, Array.getElem?_toList, hbyte]
  exact Array.getElem?_eq_getElem hi

theorem slice_eq (hrange : start + length ≤ m.size) :
    m.slice start length = (m.contents.drop start).take length := by
  apply List.ext_getElem?
  intro i
  by_cases hi : i < length
  · rw [List.getElem?_take_of_lt hi, List.getElem?_drop, getElem?_contents m (by omega)]
    simp [slice, hi]
  · rw [List.getElem?_take_eq_none (by omega)]
    simp [slice, hi]

/-- An overlay keeps what comes before the range and behind it. -/
theorem contents_overlay (m : Memory) (start : Nat) (source : ByteArray) :
    (m.overlay start source).contents =
      m.contents.take start ++ source.data.toList ++ m.contents.drop
        (start + source.size) := by
  have hsource : source.data.size = source.size := rfl
  have hbytes : m.bytes.data.size = m.size := rfl
  simp only [overlay, contents, ByteArray.copySlice, Array.toList_append,
    Array.toList_extract, List.extract_eq_take_drop, hsource, hbytes, Nat.sub_zero,
      Nat.zero_add, List.drop_zero,
    Nat.min_self]
  have hwhole : source.data.toList.take source.size = source.data.toList :=
    List.take_of_length_le (Nat.le_of_eq hsource)
  have hback : (m.bytes.data.toList.drop (start + source.size)).take
      (m.size - (start + source.size)) = m.bytes.data.toList.drop
      (start + source.size) := by
    apply List.take_of_length_le
    apply Nat.le_of_eq
    rw [List.length_drop, Array.length_toList, hbytes]
  rw [hwhole, hback]

theorem overlaid_overlay (source : ByteArray) (hrange : start + source.size ≤ m.size) :
    Overlaid m.contents start source.data.toList (m.overlay start source).contents := by
  have hsource : source.data.toList.length = source.size := rfl
  have hfront : (m.contents.take start).length = start := by
    rw [List.length_take, length_contents]
    omega
  rw [contents_overlay, List.append_assoc]
  refine ⟨?_, fun i hi => ?_, fun i hi => ?_⟩
  · simp only [List.length_append, hfront, hsource, List.length_drop, length_contents]
    omega
  · rw [List.getElem?_append_right (by omega), hfront, Nat.add_sub_cancel_left,
      List.getElem?_append_left hi]
  · rcases hi with hi | hi
    · rw [List.getElem?_append_left (by omega), List.getElem?_take_of_lt hi]
    · rw [List.getElem?_append_right (by omega), List.getElem?_append_right (by omega),
        List.getElem?_drop]
      congr 1
      omega

/-- What follows a check happens if the range exists. -/
theorem check_bind {α : Type} (m : Memory) (start length : Nat) (next : Except Trap α) :
    (m.check start length >>= fun _ => next) =
      if start + length ≤ m.size then next else .error
        (.access length start m.size) := by
  unfold check
  by_cases hrange : start + length ≤ m.size
  · rw [if_neg (Nat.not_lt.mpr hrange), if_pos hrange]
    rfl
  · rw [if_pos (Nat.not_le.mp hrange), if_neg hrange]
    rfl

/-- The answer to an access that writes.  One that traps leaves the memory as it is. -/
def afterWrite (m : Memory) : Except Trap Memory → MemoryAnswer × Memory
  | .ok m' => (.written, m')
  | .error t => (.trapped t, m)

/-- Carries out an operation. -/
def perform (m : Memory) : MemoryOp → MemoryAnswer × Memory
  | .load address offset length =>
    match m.load address offset length with
    | .ok bytes => (.loaded bytes, m)
    | .error t => (.trapped t, m)
  | .store address offset bytes => m.afterWrite (m.store address offset bytes)
  | .fill address value length => m.afterWrite (m.fill address value length)
  | .copy target source length => m.afterWrite (m.copy target source length)
  | .grow delta =>
    match m.grow delta with
    | some (pages, m') => (.grown pages, m')
    | none => (.refused, m)

/-- Carries out operations one after the other. -/
def performAll (m : Memory) : List MemoryOp → List (MemoryOp × MemoryAnswer) × Memory
  | [] => ([], m)
  | op :: ops =>
    let (answer, m) := m.perform op
    let (log, m) := m.performAll ops
    ((op, answer) :: log, m)

/-- The bytes of a range, taken out. -/
theorem data_extract (m : Memory) (start length : Nat) :
    (m.bytes.extract start (start + length)).data.toList =
    (m.contents.drop start).take length := by
  have hdata : (m.bytes.extract start (start + length)).data =
      m.bytes.data.extract start (start + length) := ByteArray.data_extract
  rw [hdata, Array.toList_extract, List.extract_eq_take_drop, Nat.add_sub_cancel_left]
  rfl

theorem grow_eq (m : Memory) (delta : Nat) :
    m.grow delta =
      if m.pages + delta ≤ m.maximum then some (m.pages, m.extend delta) else none := by
  unfold grow canGrow
  simp only [decide_eq_true_eq]

@[simp] theorem maximum_overlay (m : Memory) (start : Nat) (source : ByteArray) :
    (m.overlay start source).maximum = m.maximum := by
  rw [overlay]

@[simp] theorem maximum_extend (m : Memory) (delta : Nat) :
    (m.extend delta).maximum = m.maximum := by
  rw [extend]

/-- The limit is fixed when a memory is made. -/
theorem maximum_perform (m : Memory) (op : MemoryOp) :
    (m.perform op).2.maximum = m.maximum := by
  cases op with
  | load address offset length =>
      simp only [perform]
      split <;> rfl
  | store address offset bytes =>
      simp only [perform, store, check_bind]
      split <;> simp [afterWrite, pure, Except.pure]
  | fill address value length =>
      simp only [perform, fill, check_bind]
      split <;> simp [afterWrite, pure, Except.pure]
  | copy target source length =>
      simp only [perform, copy, check_bind]
      split
      · split <;> simp [afterWrite, pure, Except.pure]
      · rfl
  | grow delta =>
      simp only [perform, grow_eq]
      by_cases hroom : m.pages + delta ≤ m.maximum
      · simp [hroom]
      · simp [hroom]

/-- An operation on a memory is a step of the array of its bytes. -/
theorem perform_step (m : Memory) (op : MemoryOp) :
    ByteStep m.maximum m.contents op (m.perform op).1 (m.perform op).2.contents := by
  cases op with
  | load address offset length =>
      have hfits : (MemoryOp.load address offset length).Fits m.contents.length ↔
          address + offset + length ≤ m.size := by simp [MemoryOp.Fits, MemoryOp.ranges]
      simp only [perform, load, check_bind]
      by_cases hrange : address + offset + length ≤ m.size
      · rw [if_pos hrange, slice_eq hrange]
        exact .load (hfits.mpr hrange)
      · rw [if_neg hrange]
        exact .trap (mt hfits.mp hrange) rfl
  | store address offset bytes =>
      have hfits : (MemoryOp.store address offset bytes).Fits m.contents.length ↔
          address + offset + bytes.length ≤ m.size := by
            simp [MemoryOp.Fits, MemoryOp.ranges]
      simp only [perform, store, check_bind]
      by_cases hrange : address + offset + bytes.length ≤ m.size
      · rw [if_pos hrange]
        exact .store (hfits.mpr hrange) (overlaid_overlay ⟨bytes.toArray⟩ hrange)
      · rw [if_neg hrange]
        exact .trap (mt hfits.mp hrange) rfl
  | fill address value length =>
      have hfits : (MemoryOp.fill address value length).Fits m.contents.length ↔
          address + length ≤ m.size := by simp [MemoryOp.Fits, MemoryOp.ranges]
      simp only [perform, fill, check_bind]
      by_cases hrange : address + length ≤ m.size
      · rw [if_pos hrange]
        have hsize : (ByteArray.mk (Array.replicate length value)).size = length :=
          Array.size_replicate
        have hafter := overlaid_overlay ⟨Array.replicate length value⟩ (hsize ▸ hrange)
        rw [Array.toList_replicate] at hafter
        exact .fill (hfits.mpr hrange) hafter
      · rw [if_neg hrange]
        exact .trap (mt hfits.mp hrange) rfl
  | copy target source length =>
      have hfits : (MemoryOp.copy target source length).Fits m.contents.length ↔
          source + length ≤ m.size ∧ target + length ≤ m.size := by
        simp [MemoryOp.Fits, MemoryOp.ranges]
      simp only [perform, copy, check_bind]
      by_cases hsource : source + length ≤ m.size
      · rw [if_pos hsource]
        by_cases htarget : target + length ≤ m.size
        · rw [if_pos htarget]
          have hdata := m.data_extract source length
          have hsize : (m.bytes.extract source (source + length)).size = length := by
            have hlength := congrArg List.length hdata
            rw [List.length_take, List.length_drop, length_contents] at hlength
            exact hlength.trans (by omega)
          have hroom : target + (m.bytes.extract source (source + length)).size ≤
              m.size := by
            rw [hsize]
            exact htarget
          have hafter :=
            overlaid_overlay (m.bytes.extract source (source + length)) hroom
          exact .copy (hfits.mpr ⟨hsource, htarget⟩) (hdata ▸ hafter)
        · rw [if_neg htarget]
          exact .trap (fun h => htarget (hfits.mp h).2) rfl
      · rw [if_neg hsource]
        exact .trap (fun h => hsource (hfits.mp h).1) rfl
  | grow delta =>
      simp only [perform, grow_eq]
      by_cases hroom : m.pages + delta ≤ m.maximum
      · rw [if_pos hroom]
        simp only [contents_extend]
        exact .grow hroom
      · rw [if_neg hroom]
        exact .refuse (Nat.not_le.mp hroom)

theorem performAll_cons (m : Memory) (op : MemoryOp) (ops : List MemoryOp) :
    m.performAll (op :: ops) =
      ((op, (m.perform op).1) :: ((m.perform op).2.performAll ops).1,
        ((m.perform op).2.performAll ops).2) := by
  rw [performAll]

/-- Operations on a memory are a run of the array of its bytes. -/
theorem performAll_run (m : Memory) (ops : List MemoryOp) :
    ByteRun m.maximum m.contents (m.performAll ops).1
      (m.performAll ops).2.contents := by
  induction ops generalizing m with
  | nil => exact .done
  | cons op ops ih =>
      have hrest := ih (m.perform op).2
      rw [maximum_perform] at hrest
      rw [performAll_cons]
      exact .step (m.perform_step op) hrest

/-- Every operation is answered, in order. -/
theorem map_fst_performAll (m : Memory) (ops : List MemoryOp) :
    (m.performAll ops).1.map Prod.fst = ops := by
  induction ops generalizing m with
  | nil => rfl
  | cons op ops ih => rw [performAll_cons, List.map_cons, ih]

theorem performAll_append (m : Memory) (ops more : List MemoryOp) :
    (m.performAll (ops ++ more)).2 = ((m.performAll ops).2.performAll more).2 := by
  induction ops generalizing m with
  | nil => rfl
  | cons op ops ih => rw [List.cons_append, performAll_cons, performAll_cons, ih]

/-- A fresh memory has whole pages, and not more than it may have. -/
theorem pagesWithin_ofLimits (l : Limits) :
    PagesWithin (pageLimit l) (ofLimits l).contents := by
  rw [contents_ofLimits]
  refine ⟨?_, ?_⟩
  · rw [List.length_replicate]
    exact Nat.dvd_mul_left _ _
  · rw [List.length_replicate]
    exact Nat.mul_le_mul_right _ (Nat.min_le_right _ _)

end Memory

/-- Any operations on a fresh memory are a run of an array of zero bytes, which says
what each is answered and which bytes it changes.  The array always has whole pages, no
fewer than at first and no more than the limit, and more operations never make it
smaller. -/
theorem memory_refines_bounded_bytes (l : Limits) (ops : List MemoryOp) :
    ByteRun (pageLimit l) (List.replicate (min l.min (pageLimit l) * pageSize) 0)
        ((Memory.ofLimits l).performAll ops).1
        ((Memory.ofLimits l).performAll ops).2.contents ∧
      ((Memory.ofLimits l).performAll ops).1.map Prod.fst = ops ∧
      (∃ pages, ((Memory.ofLimits l).performAll ops).2.size = pages * pageSize ∧
        min l.min (pageLimit l) ≤ pages ∧ pages ≤ pageLimit l) ∧
      ∀ more, ((Memory.ofLimits l).performAll ops).2.size ≤
        ((Memory.ofLimits l).performAll (ops ++ more)).2.size := by
  have hrun := (Memory.ofLimits l).performAll_run ops
  obtain ⟨⟨pages, hpages⟩, hlimited⟩ := hrun.pagesWithin (Memory.pagesWithin_ofLimits l)
  have hgrown := hrun.length_le
  rw [Memory.contents_ofLimits] at hrun hgrown
  rw [List.length_replicate] at hgrown
  have hpositive : 0 < pageSize := by decide
  rw [hpages, Nat.mul_comm] at hgrown hlimited
  refine ⟨hrun, Memory.map_fst_performAll _ ops, ⟨pages, ?_, ?_, ?_⟩, fun more => ?_⟩
  · rw [Nat.mul_comm]
    exact hpages
  · exact Nat.le_of_mul_le_mul_left (Nat.mul_comm _ _ ▸ hgrown) hpositive
  · exact Nat.le_of_mul_le_mul_right hlimited hpositive
  · rw [Memory.performAll_append]
    exact (Memory.performAll_run _ more).length_le

end WasmVm
