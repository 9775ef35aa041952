import Beryl.Draft.Read.Cursor

/-!
# Draft/Sequence/Markers — the markers of a document, in order of their keys

`markersFrom` lists the markers of a run of leaves with the text offset each is anchored at.  In a
well-formed document their keys increase strictly, so a search key cuts the list in two: the
markers before it and those at or past it.
-/

namespace Beryl.Draft

open DraftPieceLeafValue List DraftCompositeSearchKey

/-- `DraftPieceMarkerAtV1`: a marker and the text offset it is anchored at. -/
structure DraftPieceMarkerAt where
  anchor : ℕ
  marker : DraftPieceMarker
  deriving DecidableEq

/-- Markers with their anchors. -/
abbrev Markers := List DraftPieceMarkerAt

/-- `marker_key`. -/
def markerKey (m : DraftPieceMarkerAt) : DraftCompositeSearchKey :=
  .marker m.anchor m.marker.orderKey m.marker.markerId

variable {m : DraftPieceMarkerAt} {a : ℕ}

theorem markerKey_lt_beforeMarkers : markerKey m < .beforeMarkers a ↔ m.anchor < a := by
  rw [← not_le, markerKey, beforeMarkers_le_marker, not_le]

theorem markerKey_lt_afterMarkers : markerKey m < .afterMarkers a ↔ m.anchor ≤ a := by
  rw [← not_le, markerKey, afterMarkers_le_marker, not_lt]

@[simp] theorem anchor_markerKey (m : DraftPieceMarkerAt) : (markerKey m).anchor = m.anchor := rfl

/-- **The markers of a run of leaves that starts at text offset `base`.** -/
def markersFrom : ℕ → Leaves → List DraftPieceMarkerAt
  | _, [] => []
  | base, .text b :: leaves => markersFrom (base + b.length) leaves
  | base, .marker m :: leaves => ⟨base, m⟩ :: markersFrom base leaves

@[simp] theorem markersFrom_nil (base : ℕ) : markersFrom base [] = [] := rfl
@[simp] theorem markersFrom_text (base : ℕ) (b : Utf8) (xs : Leaves) :
    markersFrom base (.text b :: xs) = markersFrom (base + b.length) xs := rfl
@[simp] theorem markersFrom_marker (base : ℕ) (m : DraftPieceMarker) (xs : Leaves) :
    markersFrom base (.marker m :: xs) = ⟨base, m⟩ :: markersFrom base xs := rfl

@[simp] theorem markersFrom_append : ∀ base xs ys,
    markersFrom base (xs ++ ys) = markersFrom base xs ++ markersFrom (base + textLength xs) ys
  | _, [], _ => by simp
  | base, .text b :: xs, ys => by simp [markersFrom_append, add_assoc]
  | base, .marker m :: xs, ys => by simp [markersFrom_append]

theorem length_markersFrom : ∀ base xs, (markersFrom base xs).length = markerTotal xs
  | _, [] => rfl
  | base, .text b :: xs => by simp [length_markersFrom]
  | base, .marker m :: xs => by simp [length_markersFrom, add_comm]

theorem anchor_of_mem_markersFrom : ∀ {base} {xs} {m}, m ∈ markersFrom base xs →
      base ≤ m.anchor ∧ m.anchor ≤ base + textLength xs
  | base, .text b :: xs, m, hm => by
    have : base + b.length ≤ m.anchor ∧ m.anchor ≤ base + b.length + textLength xs :=
      anchor_of_mem_markersFrom hm
    simp only [textLength_cons, bytes_text]
    omega
  | base, .marker n :: xs, m, hm => by
    rcases mem_cons.mp hm with rfl | hm
    · simp
    · have := anchor_of_mem_markersFrom hm
      simpa using this

/-- The leaves that are markers. -/
def IsMarker (x : DraftPieceLeafValue) : Prop := ∃ m, x = .marker m

theorem markersFrom_eq_nil_iff : ∀ {base} {xs}, markersFrom base xs = [] ↔ ∀ x ∈ xs, ¬ IsMarker x
  | _, [] => by simp
  | base, .text b :: xs => by simp [markersFrom_eq_nil_iff, IsMarker]
  | base, .marker m :: xs => by simp [IsMarker]

/-- The test of the marker traversals, `child.marker_count() != 0`. -/
def hasMarkers (link : DraftPieceChild) : Bool := link.markerCount != 0

theorem reads_hasMarkers : Reads hasMarkers IsMarker := by
  intro link leaves hs
  rw [hasMarkers, bne_iff_ne, hs.markers, ← length_markersFrom 0, Ne, length_eq_zero_iff,
    markersFrom_eq_nil_iff]
  simp

/-! ## Well-formed documents -/

/-- **A well-formed document**: a well-formed tree of admissible height whose markers at one anchor
strictly increase in order key. -/
structure WellFormedDocument {H : ℕ} (root : SequenceRef H) : Prop extends WellFormedRoot root where
  height : 1 ≤ H ∧ H ≤ draftPieceMaxHeight
  ordered : (markersFrom 0 (flatten H root.tree)).Pairwise fun m n =>
    m.anchor = n.anchor → m.marker.orderKey < n.marker.orderKey

attribute [mk_iff] WellFormedRoot WellFormedDocument

instance {H : ℕ} (root : SequenceRef H) : Decidable (WellFormedRoot root) :=
  decidable_of_iff' _ (wellFormedRoot_iff root)

instance {H : ℕ} (root : SequenceRef H) : Decidable (WellFormedDocument root) :=
  decidable_of_iff' _ (wellFormedDocument_iff root)

/-- The markers of a document, with their anchors. -/
abbrev documentMarkers {H : ℕ} (root : SequenceRef H) : List DraftPieceMarkerAt :=
  markersFrom 0 (flatten H root.tree)

/-- The leaves of a draft; the empty draft has no tree. -/
def sequenceLeaves {H : ℕ} (sequence : Option (SequenceRef H)) : Leaves :=
  sequence.elim [] fun root => flatten H root.tree

/-- The `logical_utf8_bytes` of the summary of a draft root. -/
def extent {H : ℕ} (sequence : Option (SequenceRef H)) : ℕ :=
  sequence.elim 0 fun root => root.link.logicalUtf8Bytes

/-- **A well-formed draft**: empty, or a well-formed document. -/
def WellFormedSequence {H : ℕ} (sequence : Option (SequenceRef H)) : Prop :=
  ∀ root ∈ sequence, WellFormedDocument root

variable {H : ℕ}

variable (root : SequenceRef H)

@[simp] theorem sequenceLeaves_some : sequenceLeaves (some root) = flatten H root.tree := rfl
@[simp] theorem sequenceLeaves_none : sequenceLeaves (none : Option (SequenceRef H)) = [] := rfl
@[simp] theorem extent_some : extent (some root) = root.link.logicalUtf8Bytes := rfl
@[simp] theorem extent_none : extent (none : Option (SequenceRef H)) = 0 := rfl

theorem extent_eq {sequence : Option (SequenceRef H)} (h : WellFormedSequence sequence) :
    extent sequence = textLength (sequenceLeaves sequence) := by
  cases sequence with
  | none => rfl
  | some root => exact (h root rfl).wellFormed.summary.bytes

/-- Anchors never decrease along a run of leaves. -/
theorem pairwise_anchor_markersFrom : ∀ base xs,
    (markersFrom base xs).Pairwise fun m n => m.anchor ≤ n.anchor
  | _, [] => .nil
  | base, .text b :: xs => pairwise_anchor_markersFrom (base + b.length) xs
  | base, .marker _ :: xs => .cons (fun _ hn => (anchor_of_mem_markersFrom hn).1)
      (pairwise_anchor_markersFrom base xs)

theorem pairwise_anchor_documentMarkers :
    (documentMarkers root).Pairwise fun m n => m.anchor ≤ n.anchor :=
  pairwise_anchor_markersFrom 0 (flatten H root.tree)

/-- A list of markers in strict key order. -/
def KeysSorted (ms : List DraftPieceMarkerAt) : Prop :=
  ms.Pairwise fun m n => markerKey m < markerKey n

/-- **The keys of a well-formed document strictly increase.** -/
theorem WellFormedDocument.keysSorted {root : SequenceRef H}
    (hdoc : WellFormedDocument root) : KeysSorted (documentMarkers root) := by
  refine (hdoc.ordered.and (pairwise_anchor_markersFrom 0 (flatten H root.tree))).imp ?_
  rintro m n ⟨hord, hanch⟩
  rw [← not_le]
  simp only [markerKey, marker_le_marker, not_or, not_and]
  refine ⟨by omega, fun h => ?_⟩
  omega

theorem KeysSorted.append {ms ns : Markers} (h : KeysSorted (ms ++ ns)) :
    KeysSorted ms ∧ KeysSorted ns ∧ ∀ m ∈ ms, ∀ n ∈ ns, markerKey m < markerKey n :=
  pairwise_append.mp h

/-- The first marker at or past the key of a marker of the list is that marker. -/
theorem KeysSorted.eq_of_first {pre post : Markers} {m n : DraftPieceMarkerAt}
    (h : KeysSorted (pre ++ m :: post)) (hpre : ∀ k ∈ pre, markerKey k < markerKey n)
    (hle : markerKey n ≤ markerKey m) (hn : n ∈ pre ++ m :: post) : n = m := by
  rcases mem_append.mp hn with hn | hn
  · exact absurd (hpre n hn) (lt_irrefl _)
  · rcases mem_cons.mp hn with rfl | hn
    · rfl
    · exact absurd hle (not_le.mpr ((pairwise_cons.mp h.append.2.1).1 n hn))

/-- A marker cuts its list in one way only. -/
theorem KeysSorted.split_unique {pre post pre' post' : Markers} (h : KeysSorted (pre ++ m :: post))
    (heq : pre ++ m :: post = pre' ++ m :: post') : pre = pre' ∧ post = post' := by
  have hnot : m ∉ pre := fun hm => lt_irrefl _ (h.append.2.2 m hm m (by simp))
  have hnot' : m ∉ post := fun hm =>
    lt_irrefl _ ((pairwise_cons.mp h.append.2.1).1 m hm)
  obtain ⟨h1, -, h2⟩ := (append_cons_inj_of_notMem hnot hnot').mp heq
  exact ⟨h1, h2⟩

/-- The markers of the subtree a stack of frames leads to are in key order. -/
theorem CursorPath.keysSorted {root : SequenceRef H} (hdoc : WellFormedDocument root)
    {h : ℕ} {ref : SequenceRef h} {frames : List CursorFrame} {b a : Leaves}
    (path : CursorPath root h ref frames b a) :
    KeysSorted (markersFrom (textLength b) (flatten h ref.tree)) := by
  have hk := hdoc.keysSorted
  rw [documentMarkers, path.flatten_eq, markersFrom_append, markersFrom_append] at hk
  simpa using hk.append.1.append.2.1

/-- No marker of a run of leaves stands past the key the run ends at. -/
theorem markerKey_le_endKey {base : ℕ} {xs : Leaves} {x : DraftPieceLeafValue}
    (hk : KeysSorted (markersFrom base (xs ++ [x]))) (hm : m ∈ markersFrom base (xs ++ [x])) :
    markerKey m ≤ endKey x (base + textLength (xs ++ [x])) := by
  cases x with
  | text t =>
    have := (anchor_of_mem_markersFrom hm).2
    simpa [endKey, markerKey] using this
  | marker n =>
    rw [markersFrom_append] at hk hm
    rcases mem_append.mp hm with hm | hm
    · have hlt := hk.append.2.2 m hm ⟨base + textLength xs, n⟩ (by simp)
      exact le_of_lt (by simpa [endKey, markerKey] using hlt)
    · obtain rfl : m = ⟨base + textLength xs, n⟩ := by simpa using hm
      simp [endKey, markerKey]

end Beryl.Draft
