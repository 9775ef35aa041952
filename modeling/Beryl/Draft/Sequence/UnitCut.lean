import Beryl.Draft.Sequence.Slice

/-!
# Draft/Sequence/UnitCut — from units to boundaries and back

`locateCut` descends to the leaf that holds a unit, or a boundary, and reports both coordinates with
the text and the markers in front.  **A unit is found exactly when a boundary stands in front of
it** (`atUnit_eq_ok`), and every boundary of the document is found (`atBoundary_of_marks`).
-/

namespace Beryl.Draft

open Fallible List

/-! ## The search -/

/-- `Cut`. -/
inductive UnitCut
  | unit (unit : ℕ)
  | boundary (boundary : Boundary)
  deriving DecidableEq

/-- `UnitFact`. -/
structure UnitFact where
  boundary : Boundary
  unit : ℕ
  logicalOffset : ℕ
  markerOrdinal : ℕ
  leaf : Option DraftPieceLeafValue
  deriving DecidableEq

/-- `sequence_units::extent`. -/
def sequenceExtent (sequence : WorkingSequence) : ℕ :=
  sequence.elim 0 fun root => linkExtent root.2.link

/-- What the descent has passed: leaves, bytes and markers. -/
structure Passed where
  rank : ℕ
  logical : ℕ
  markers : ℕ
  deriving DecidableEq

/-- `accepts`: the cut lies in front of the end of what has been passed. -/
def UnitCut.accepts (cut : UnitCut) (next : Passed) : Bool :=
  match cut with
  | .unit u => u < next.logical + next.markers
  | .boundary b => b.rank < next.rank

/-- The loop over the children of a node. -/
def selectCut {h : ℕ} (cut : UnitCut) : Passed → Links h → Prepared (Link h × Passed)
  | _, [] => .error .invalidRoot
  | passed, child :: children => do
    let rank ← checkedAdd .invalidRoot passed.rank child.1.pieceCount
    let logical ← checkedAdd .invalidRoot passed.logical child.1.logicalUtf8Bytes
    let markers ← checkedAdd .invalidRoot passed.markers child.1.markerCount
    let next : Passed := ⟨rank, logical, markers⟩
    if cut.accepts next then return (child, passed) else selectCut cut next children

/-- The descent of `locate`. -/
def descendCut (cut : UnitCut) : (h : ℕ) → SequenceRef h → Passed →
    Prepared (DraftPieceLeafValue × Passed)
  | 0, ref, passed => do
    let leaf ← loadSequenceLeaf ref.link ref.tree.leaf
    return (leaf, passed)
  | h + 1, ref, passed => do
    let children ← loadSequenceNode ref
    let (child, passed) ← selectCut cut passed children
    descendCut cut h ⟨child.1, child.2, false⟩ passed

/-- The offset of the cut in the leaf it falls in. -/
def UnitCut.inner (cut : UnitCut) (passed : Passed) : Prepared ℕ :=
  match cut with
  | .unit u => checkedSub .invalidRoot u (passed.logical + passed.markers)
  | .boundary b => if b.rank = passed.rank then .ok b.inner else .error .invalidRoot

/-- The boundary at an offset of a leaf; the end of a text is the front of the next leaf. -/
def innerBoundary (leaf : DraftPieceLeafValue) (rank inner : ℕ) : Prepared Boundary :=
  match leaf with
  | .text text => do
    ensure (inner ≤ text.length ∧ isCharBoundary text inner = true) invalidUtf8Boundary
    if inner = text.length then
      let next ← checkedAdd .invalidRoot rank 1
      return ⟨next, 0⟩
    else return ⟨rank, inner⟩
  | .marker _ => if inner = 0 then .ok ⟨rank, inner⟩ else .error .invalidRoot

/-- The end of `locate`: the cut inside the leaf it falls in. -/
def cutLeaf (cut : UnitCut) (leaf : DraftPieceLeafValue) (passed : Passed) : Prepared UnitFact := do
  let inner ← cut.inner passed
  let boundary ← innerBoundary leaf passed.rank inner
  let logicalOffset ← checkedAdd .invalidRoot passed.logical inner
  return ⟨boundary, passed.logical + passed.markers + inner, logicalOffset, passed.markers,
    some leaf⟩

/-- The cut is the end of the sequence, or fails beyond it. -/
def UnitCut.eof (cut : UnitCut) (count units : ℕ) : Prepared Bool :=
  match cut with
  | .unit u => do
    ensure (u ≤ units) .invalidRoot
    return decide (u = units)
  | .boundary b => do
    ensure (¬ (count < b.rank ∨ b.rank = count ∧ b.inner ≠ 0)) .invalidRoot
    return decide (b.rank = count)

/-- `sequence_units::locate`. -/
def locateCut (sequence : WorkingSequence) (cut : UnitCut) : Prepared UnitFact := do
  let count := sequence.elim 0 fun root => root.2.link.pieceCount
  let units := sequenceExtent sequence
  if ← cut.eof count units then
    return ⟨⟨count, 0⟩, units, sequence.elim 0 fun root => root.2.link.logicalUtf8Bytes,
      sequence.elim 0 fun root => root.2.link.markerCount, none⟩
  else
    let root ← required .invalidRoot sequence
    let (leaf, passed) ← descendCut cut root.1 root.2 ⟨0, 0, 0⟩
    cutLeaf cut leaf passed

/-- `at_unit`. -/
def atUnit (sequence : WorkingSequence) (unit : ℕ) : Prepared UnitFact :=
  locateCut sequence (.unit unit)

/-- `at_boundary`. -/
def atBoundary (sequence : WorkingSequence) (boundary : Boundary) : Prepared UnitFact :=
  locateCut sequence (.boundary boundary)

/-! ## What the search finds -/

/-- The cut lies in front of the end of a run of leaves. -/
def UnitCut.Inside (cut : UnitCut) (leaves : Leaves) : Prop :=
  match cut with
  | .unit u => u < (unitsOf leaves).length
  | .boundary b => b.rank < leaves.length

/-- The counts of a run of leaves. -/
def passedOf (leaves : Leaves) : Passed :=
  ⟨leaves.length, textLength leaves, markerTotal leaves⟩

@[simp] theorem passedOf_rank (leaves : Leaves) : (passedOf leaves).rank = leaves.length := rfl
@[simp] theorem passedOf_logical (leaves : Leaves) :
    (passedOf leaves).logical = textLength leaves := rfl
@[simp] theorem passedOf_markers (leaves : Leaves) :
    (passedOf leaves).markers = markerTotal leaves := rfl

variable {leaves : Leaves}

theorem accepts_passedOf {cut : UnitCut} :
    cut.accepts (passedOf leaves) = true ↔ cut.Inside leaves := by
  cases cut with
  | unit u =>
    simp only [UnitCut.accepts, UnitCut.Inside, passedOf, length_unitsOf]
    exact decide_eq_true_iff
  | boundary b => exact decide_eq_true_iff

/-- Leaves whose counts fit. -/
def Countable (leaves : Leaves) : Prop :=
  leaves.length < u64Size ∧ textLength leaves < u64Size

theorem Countable.markers (h : Countable leaves) :
    markerTotal leaves < u64Size := (markerTotal_le_length leaves).trans_lt h.1

theorem Countable.left {a b : Leaves} (h : Countable (a ++ b)) : Countable a := by
  unfold Countable at *
  simp only [length_append, textLength_append] at h
  omega

section

variable {h : ℕ} {cut : UnitCut}

/-- The loop stops at the child the cut falls in. -/
theorem selectCut_eq_ok : ∀ {children} {before}, (∀ c ∈ children, Summarizes c.1 (flatten h c.2)) →
    Countable (before ++ leavesOf children) → cut.Inside (before ++ leavesOf children) →
    ¬ cut.Inside before → ∃ passed child rest, children = passed ++ child :: rest
      ∧ selectCut cut (passedOf before) children = .ok (child, passedOf (before ++ leavesOf passed))
      ∧ cut.Inside (before ++ leavesOf passed ++ flatten h child.2)
      ∧ ¬ cut.Inside (before ++ leavesOf passed)
  | [], before, _, _, hin, hout => absurd (by simpa using hin) hout
  | c :: cs, before, hs, hfit, hin, hout => by
    have hc := hs c (by simp)
    rw [leavesOf_cons, ← append_assoc] at hfit hin
    obtain ⟨hlen, htext⟩ := hfit.left
    have hmark := hfit.left.markers
    have hstep : selectCut cut (passedOf before) (c :: cs)
        = if cut.accepts (passedOf (before ++ flatten h c.2)) then .ok (c, passedOf before)
          else selectCut cut (passedOf (before ++ flatten h c.2)) cs := by
      simp only [length_append, textLength_append, markerTotal_append] at hlen htext hmark
      simp only [selectCut, passedOf, hc.pieces, hc.bytes, hc.markers, checkedAdd_of_lt hlen,
        checkedAdd_of_lt htext, checkedAdd_of_lt hmark, ok_bind, length_append,
        textLength_append, markerTotal_append, pure_eq_ok]
    by_cases hacc : cut.Inside (before ++ flatten h c.2)
    · refine ⟨[], c, cs, rfl, ?_, by simpa using hacc, by simpa using hout⟩
      rw [hstep, if_pos (accepts_passedOf.mpr hacc)]
      simp
    · obtain ⟨passed, child, rest, rfl, hok, h1, h2⟩ := selectCut_eq_ok
        (fun d hd => hs d (by simp [hd])) hfit hin hacc
      refine ⟨c :: passed, child, rest, rfl, ?_, by simpa using h1, by simpa using h2⟩
      rw [hstep, if_neg (accepts_passedOf.not.mpr hacc), hok]
      simp

/-- **The descent ends at the leaf the cut falls in.** -/
theorem descendCut_eq_ok : ∀ {h} {ref} {before},
    WellFormed h ref.link ref.tree → Filled (if ref.selectedRoot then 1 else 2) h ref.tree →
    Countable (before ++ flatten h ref.tree) → cut.Inside (before ++ flatten h ref.tree) →
    ¬ cut.Inside before → ∃ l x r, flatten h ref.tree = l ++ x :: r
      ∧ descendCut cut h ref (passedOf before) = .ok (x, passedOf (before ++ l))
      ∧ cut.Inside (before ++ l ++ [x]) ∧ ¬ cut.Inside (before ++ l)
  | 0, ref, before, hw, _, _, hin, hout => by
    refine ⟨[], ref.tree.leaf, [], rfl, ?_, by simpa using hin, by simpa using hout⟩
    rw [descendCut, loadSequenceLeaf_ok hw]
    simp
  | h + 1, ref, before, hw, hf, hfit, hin, hout => by
    obtain ⟨passed, child, rest, hch, hsel, hin', hout'⟩ := selectCut_eq_ok
      (fun c hc => (hw.2 c hc).2.summary) hfit hin hout
    have hstand : Standing child := hw.2 child (by rw [hch]; simp)
    rw [flatten_succ, hch, leavesOf_append, leavesOf_cons, ← append_assoc, ← append_assoc] at hfit
    have hload : Filled (if (⟨child.1, child.2, false⟩ : SequenceRef h).selectedRoot then 1 else 2)
      h
        child.2 := hstand.1
    obtain ⟨l, x, r, hsplit, hok, h1, h2⟩ := descendCut_eq_ok hstand.2 hload hfit.left hin' hout'
    refine ⟨leavesOf passed ++ l, x, r ++ leavesOf rest, ?_, ?_,
      by simpa using h1, by simpa using h2⟩
    · rw [flatten_succ, hch, leavesOf_append, leavesOf_cons, hsplit]
      simp
    · rw [descendCut, loadSequenceNode_ok hw hf, ok_bind, hsel, ok_bind]
      simpa using hok

end

/-! ## The two coordinates of a cut -/

/-- Both coordinates of a cut of a document, what stands in front of it and the leaf behind it. -/
structure UnitFact.Marks (fact : UnitFact) (leaves : Leaves) : Prop where
  placed : PlacedAt leaves fact.boundary fact.unit
  logical : fact.logicalOffset = textLength (leaves.take fact.boundary.rank) + fact.boundary.inner
  ordinal : fact.markerOrdinal = markerTotal (leaves.take fact.boundary.rank)
  leaf : fact.leaf = leaves[fact.boundary.rank]?

section

variable {cut : UnitCut} {l r : Leaves} {x : DraftPieceLeafValue}
  {fact : UnitFact} {boundary : Boundary} {inner : ℕ}

/-- A boundary of a leaf: between two characters of a text, or in front of the leaf. -/
theorem innerBoundary_eq_ok {rank : ℕ} (hlt : inner < x.units.length) :
    innerBoundary x rank inner = .ok boundary ↔ boundary = ⟨rank, inner⟩
      ∧ (inner = 0 ∨ ∃ t, x = .text t ∧ isCharBoundary t inner = true) := by
  cases x with
  | text t =>
    have hlt' : inner < t.length := by simpa using hlt
    by_cases hchar : isCharBoundary t inner = true
    · have hok : innerBoundary (.text t) rank inner = .ok ⟨rank, inner⟩ := by
        simp [innerBoundary, ensure_true, hchar, hlt'.le, hlt'.ne]
      rw [eq_ok_iff_of_eq hok]
      simp [hchar]
    · have h0 : inner ≠ 0 := by
        rintro rfl
        exact hchar (isCharBoundary_zero t)
      simp [innerBoundary, ensure_false, hchar, h0]
  | marker m =>
    have h0 : inner = 0 := by simpa using hlt
    have hok : innerBoundary (.marker m) rank inner = .ok ⟨rank, inner⟩ := if_pos h0
    rw [eq_ok_iff_of_eq hok]
    simp [h0]

/-- **The boundaries of one leaf**, seen from the whole document. -/
theorem placedAt_leaf (hocc : ∀ y ∈ l ++ x :: r, y.Occupied) (hlt : inner < x.units.length) :
    PlacedAt (l ++ x :: r) boundary ((unitsOf l).length + inner) ↔ boundary = ⟨l.length, inner⟩
      ∧ (inner = 0 ∨ ∃ t, x = .text t ∧ isCharBoundary t inner = true) := by
  have hfront : PlacedAt (l ++ x :: r) ⟨l.length, 0⟩ (unitsOf l).length := .between rfl
  constructor
  · intro hp
    have hback : PlacedAt (l ++ x :: r) ⟨(l ++ [x]).length, 0⟩ (unitsOf (l ++ [x])).length :=
      .between (append_cons l x r)
    have h1 := (hp.lt_iff hocc hfront).not.mpr (by omega)
    have h2 := (hp.lt_iff hocc hback).mpr (by simpa using hlt)
    obtain ⟨rank, i⟩ := boundary
    simp only [Boundary.lt_iff, length_append, length_singleton] at h1 h2
    obtain rfl : rank = l.length := by omega
    have hu := hp.eq_unitsBefore.1
    rw [unitsBefore, take_left] at hu
    obtain rfl : inner = i := by simpa using hu
    refine ⟨rfl, ?_⟩
    cases x with
    | text t => exact .inr ⟨t, rfl, hp.in_text.2.1⟩
    | marker m => exact .inl (by simpa using hlt)
  · rintro ⟨rfl, rfl | ⟨t, rfl, hchar⟩⟩
    · exact hfront
    · rcases Nat.eq_zero_or_pos inner with rfl | h0
      · exact hfront
      · exact .inside rfl h0 (by simpa using hlt) hchar

theorem cutLeaf_eq_ok (hcount : Countable (l ++ x :: r))
    (hocc : ∀ y ∈ l ++ x :: r, y.Occupied) (hlt : inner < x.units.length)
    (hinner : cut.inner (passedOf l) = .ok inner) : cutLeaf cut x (passedOf l) = .ok fact ↔
      fact.unit = (unitsOf l).length + inner ∧ fact.Marks (l ++ x :: r) := by
  have hunits := length_unitsOf l
  have hfit := hcount.2
  rw [textLength_append, textLength_cons] at hfit
  unfold cutLeaf
  simp only [hinner, ok_bind, bind_eq_ok, innerBoundary_eq_ok hlt, checkedAdd_eq_ok,
    passedOf_rank, passedOf_logical, passedOf_markers, pure_eq_ok_iff]
  constructor
  · rintro ⟨boundary, ⟨rfl, hin⟩, logical, ⟨rfl, -⟩, rfl⟩
    have hp := (placedAt_leaf hocc hlt).mpr ⟨rfl, hin⟩
    rw [hunits] at hp
    exact ⟨by simp [hunits], hp, by simp, by simp, by simp⟩
  · rintro ⟨hunit, hm⟩
    have hp := hm.placed
    rw [hunit] at hp
    obtain ⟨hb, hin⟩ := (placedAt_leaf hocc hlt).mp hp
    have hle : inner ≤ x.bytes.length := by
      rcases hin with rfl | ⟨t, rfl, -⟩
      · omega
      · simpa using Nat.le_of_lt hlt
    obtain ⟨boundary, unit, logical, ordinal, leaf⟩ := fact
    obtain ⟨-, hlogic, hord, hleaf⟩ := hm
    simp only at hb hunit hlogic hord hleaf
    subst hb
    refine ⟨⟨l.length, inner⟩, ⟨rfl, hin⟩, textLength l + inner, ⟨rfl, by omega⟩, ?_⟩
    simp [hunit, hlogic, hord, hleaf, hunits]

end

section

variable {sequence : WorkingSequence} {fact : UnitFact}

theorem Rooted.countable (hs : Rooted sequence) : Countable (workingLeaves sequence) :=
  ⟨hs.fits.pieces, hs.fits.bytes⟩

/-- The links of a sequence count its leaves. -/
theorem Rooted.counts (hs : Rooted sequence) :
    (sequence.elim 0 fun root => root.2.link.pieceCount) = (workingLeaves sequence).length
      ∧ sequenceExtent sequence = (unitsOf (workingLeaves sequence)).length
      ∧ (sequence.elim 0 fun root => root.2.link.logicalUtf8Bytes)
        = textLength (workingLeaves sequence)
      ∧ (sequence.elim 0 fun root => root.2.link.markerCount)
        = markerTotal (workingLeaves sequence) := by
  match sequence, hs with
  | none, _ => exact ⟨rfl, rfl, rfl, rfl⟩
  | some ⟨h, ref⟩, hs =>
    have hsum := (hs h ref rfl).1.wellFormed.summary
    exact ⟨hsum.pieces, hsum.linkExtent_eq, hsum.bytes, hsum.markers⟩

theorem marks_end (hocc : ∀ y ∈ leaves, y.Occupied) :
    fact.unit = (unitsOf leaves).length ∧ fact.Marks leaves ↔
      fact = ⟨⟨leaves.length, 0⟩, (unitsOf leaves).length, textLength leaves, markerTotal leaves,
        none⟩ := by
  have hend : PlacedAt leaves ⟨leaves.length, 0⟩ (unitsOf leaves).length :=
    .between (append_nil leaves).symm
  constructor
  · rintro ⟨hunit, hp, hlogic, hord, hleaf⟩
    obtain ⟨boundary, unit, logical, ordinal, leaf⟩ := fact
    simp only at hunit hp hlogic hord hleaf
    subst hunit
    obtain rfl := hp.eq_of_unit hocc hend
    simp [hlogic, hord, hleaf]
  · rintro rfl
    exact ⟨rfl, hend, by simp, by simp, by simp⟩

theorem locateCut_inside (cut : UnitCut) (hs : Rooted sequence)
    (heof : cut.eof (workingLeaves sequence).length (unitsOf (workingLeaves sequence)).length
      = .ok false) (hin : cut.Inside (workingLeaves sequence)) :
    ∃ l x r, workingLeaves sequence = l ++ x :: r
      ∧ locateCut sequence cut = cutLeaf cut x (passedOf l)
      ∧ cut.Inside (l ++ [x]) ∧ ¬ cut.Inside l := by
  obtain ⟨hcount, hext, -, -⟩ := hs.counts
  have hfit := hs.countable
  match sequence, hs with
  | none, _ => exact absurd hin (by cases cut <;> simp [UnitCut.Inside])
  | some ⟨h, ref⟩, hs =>
    have hwork := (hs h ref rfl).1
    have hfilled : Filled (if ref.selectedRoot then 1 else 2) h ref.tree := by
      simpa [hwork.selected] using hwork.filled
    have hnil : ¬ cut.Inside [] := by cases cut <;> simp [UnitCut.Inside]
    obtain ⟨l, x, r, hsplit, hok, h1, h2⟩ := descendCut_eq_ok hwork.wellFormed hfilled
      (show Countable ([] ++ flatten h ref.tree) from hfit) hin hnil
    have hok' : descendCut cut h ref ⟨0, 0, 0⟩ = .ok (x, passedOf l) := hok
    refine ⟨l, x, r, hsplit, ?_, h1, h2⟩
    unfold locateCut
    simp only [hcount, hext, heof, ok_bind, required_some, hok', Bool.false_eq_true, if_false]

/-- **A unit is found exactly when a boundary stands in front of it.** -/
theorem atUnit_eq_ok (hs : Rooted sequence) {u : ℕ} :
    atUnit sequence u = .ok fact ↔ fact.unit = u ∧ fact.Marks (workingLeaves sequence) := by
  rcases lt_trichotomy u (unitsOf (workingLeaves sequence)).length with hlt | rfl | hgt
  · obtain ⟨l, x, r, hsplit, hloc, h1, h2⟩ := locateCut_inside (.unit u) hs
      (by simp [UnitCut.eof, ensure_true, hlt.le, hlt.ne]) hlt
    have h1' : u < (unitsOf l).length + x.units.length := by simpa [UnitCut.Inside] using h1
    have h2' : (unitsOf l).length ≤ u := by simpa [UnitCut.Inside] using h2
    have hinner : (UnitCut.unit u).inner (passedOf l) = .ok (u - (unitsOf l).length) := by
      rw [length_unitsOf] at h2' ⊢
      exact checkedSub_of_le h2'
    rw [atUnit, hloc, cutLeaf_eq_ok (hsplit ▸ hs.countable) (hsplit ▸ hs.occupied)
      (show u - (unitsOf l).length < x.units.length by omega) hinner, hsplit,
      Nat.add_sub_cancel' h2']
  · obtain ⟨hcount, hext, hbytes, hmarks⟩ := hs.counts
    rw [marks_end hs.occupied, atUnit, locateCut]
    simp [hcount, hext, hbytes, hmarks, UnitCut.eof, ensure_true, eq_comm]
  · have hext := hs.counts.2.1
    have herr : ∀ v, v < u → ¬ u ≤ v := by omega
    simp only [atUnit, locateCut, hext, UnitCut.eof, ensure_false (herr _ hgt), error_bind,
      reduceCtorEq, false_iff]
    rintro ⟨rfl, hm⟩
    exact absurd hm.placed.le_length (herr _ hgt)

/-- **Every boundary of the document is found.** -/
theorem atBoundary_of_marks (hs : Rooted sequence) (hm : fact.Marks (workingLeaves sequence)) :
    atBoundary sequence fact.boundary = .ok fact := by
  have hocc := hs.occupied
  have hle := hm.placed.eq_unitsBefore.2.1
  rcases hle.lt_or_eq with hlt | heq
  · obtain ⟨l, x, r, hsplit, hloc, h1, h2⟩ := locateCut_inside (.boundary fact.boundary) hs
      (by simp [UnitCut.eof, ensure_true, hlt.not_gt, hlt.ne]) hlt
    have hrank : fact.boundary.rank = l.length := by
      simp only [UnitCut.Inside, length_append, length_singleton] at h1 h2
      omega
    have hinner : (UnitCut.boundary fact.boundary).inner (passedOf l) = .ok fact.boundary.inner :=
      if_pos hrank
    have hunit : fact.unit = (unitsOf l).length + fact.boundary.inner := by
      have := hm.placed.eq_unitsBefore.1
      rwa [hrank, hsplit, unitsBefore, take_left] at this
    have hend : PlacedAt (workingLeaves sequence) ⟨l.length + 1, 0⟩
        ((unitsOf l).length + x.units.length) := by
      have : PlacedAt (workingLeaves sequence) ⟨(l ++ [x]).length, 0⟩ (unitsOf (l ++ [x])).length :=
        .between (by rw [hsplit, append_cons])
      simpa using this
    have hbefore := (hm.placed.lt_iff hocc hend).mp (by rw [Boundary.lt_iff]; simp [hrank])
    rw [atBoundary, hloc, cutLeaf_eq_ok (hsplit ▸ hs.countable) (hsplit ▸ hocc)
      (show fact.boundary.inner < x.units.length by omega) hinner, ← hsplit]
    exact ⟨hunit, hm⟩
  · obtain ⟨hu, -, hin⟩ := hm.placed.eq_unitsBefore
    have hall : ∀ n, (workingLeaves sequence).length ≤ n →
        unitsBefore (workingLeaves sequence) n = (unitsOf (workingLeaves sequence)).length :=
      fun n hn => by rw [unitsBefore, take_of_length_le hn]
    rw [hall _ (by omega)] at hu
    rw [hall _ (by omega)] at hin
    obtain rfl := (marks_end hocc).mp ⟨by omega, hm⟩
    obtain ⟨hcount, hext, hbytes, hmarks⟩ := hs.counts
    rw [atBoundary, locateCut]
    simp [hcount, hext, hbytes, hmarks, UnitCut.eof, ensure_true]

end

end Beryl.Draft
