import Beryl.Draft.Read.Guided

/-!
# Draft/Read/MarkerCursor — cursors over the markers of a document

`markerCursor` looks for the first marker at or past a search key, led by the last key of each
child.  The last key of a child that ends in text is the end of that text, past the markers in front
of it — so a child all of whose markers are before the search key may still be entered, and the
search then misses the marker in a later child (`MarkerShadowed`).  `markerCursor_cases` is the
whole behaviour of the search.
-/

namespace Beryl.Draft

open Fallible DraftPieceLeafValue List

/-! ## The search -/

/-- The test of `marker_cursor`: a child with markers whose last key reaches the target. -/
def markerCursorAccepts (target : DraftCompositeSearchKey) (prefixAnchor : ℕ)
    (child : DraftPieceChild) : Prepared Bool :=
  if child.markerCount ≠ 0 then do
    let last ← (checkedOffsetKey child.last prefixAnchor).mapError .rejected
    return decide (target ≤ last)
  else .ok false

/-- `marker_cursor`. -/
def markerCursor {H : ℕ} (tree : SequenceRef H) (target : DraftCompositeSearchKey) :
    Prepared (Option SequenceCursor) :=
  guidedCursor aggregateOverflow (markerCursorAccepts target) H tree 0 0 []

/-- `marker_at_cursor`. -/
def markerAtCursor (cursor : SequenceCursor) :
    Prepared (DraftCompositeSearchKey × DraftPieceMarkerAt) := do
  let leaf ← loadSequenceLeaf cursor.leaf.link cursor.leaf.leaf
  match leaf with
  | .marker m =>
    return (.marker cursor.leaf.anchor m.orderKey m.markerId, ⟨cursor.leaf.anchor, m⟩)
  | .text _ => .error .invalidRoot

/-! ## What the search is led by -/

/-- The leaf is a marker whose key, at that anchor, is at or past the target. -/
def MarkerFrom (target : DraftCompositeSearchKey) (anchor : ℕ) (x : DraftPieceLeafValue) : Prop :=
  ∃ m, x = .marker m ∧ target ≤ markerKey ⟨anchor, m⟩

/-- The test of `marker_cursor` without the overflow check. -/
def reachesTarget (target : DraftCompositeSearchKey) (anchor : ℕ) (child : DraftPieceChild) :
    Bool := hasMarkers child && decide (target ≤ child.last.shift anchor)

/-- **The first marker at or past the target is shadowed**: at some node on the way to it, an
earlier child has markers, all of them before the target, yet its last key reaches the target —
the child ends in text. -/
def MarkerShadowed {H : ℕ} (tree : SequenceRef H) (target : DraftCompositeSearchKey) : Prop :=
  Shadowed (reachesTarget target) (MarkerFrom target) H tree.tree 0

/-- Two nodes, each a marker and then a letter.  The first node ends in its letter, past its
marker. -/
def shadowingRoot : SequenceRef 2 where
  link := ⟨2, 0, 1, 4, 2, .marker 0 1 1, .afterMarkers 2⟩
  tree :=
    [(⟨1, 0, 1, 2, 1, .marker 0 1 1, .afterMarkers 1⟩,
        [(⟨0, 0, 0, 1, 1, .marker 0 1 1, .marker 0 1 1⟩, .marker ⟨1, 1, 1, 1⟩),
         (⟨1, 0, 1, 1, 0, .beforeMarkers 0, .afterMarkers 1⟩, .text [97])]),
     (⟨1, 0, 1, 2, 1, .marker 0 1 2, .afterMarkers 1⟩,
        [(⟨0, 0, 0, 1, 1, .marker 0 1 2, .marker 0 1 2⟩, .marker ⟨2, 2, 2, 1⟩),
         (⟨1, 0, 1, 1, 0, .beforeMarkers 0, .afterMarkers 1⟩, .text [98])])]
  selectedRoot := true

theorem wellFormed_shadowingRoot : WellFormedDocument shadowingRoot := by decide +kernel

theorem holdsIn_markerFrom {target : DraftCompositeSearchKey} {base : ℕ} {xs : Leaves} :
    HoldsIn (MarkerFrom target) base xs ↔ ∃ m ∈ markersFrom base xs, target ≤ markerKey m := by
  induction xs generalizing base with
  | nil => simp
  | cons x xs ih => cases x <;> simp [holdsIn_cons, ih, MarkerFrom]

theorem computes_markerCursorAccepts (target : DraftCompositeSearchKey) :
    Computes (markerCursorAccepts target) (reachesTarget target) := by
  intro base link leaves hs hbound
  obtain ⟨xs, x, -, hlast⟩ := hs.last
  have hlt : link.last.anchor + base < u64Size := by
    rw [hlast, anchor_endKey]
    omega
  by_cases hm : link.markerCount = 0
  · simp [markerCursorAccepts, reachesTarget, hasMarkers, hm]
  · simp [markerCursorAccepts, reachesTarget, hasMarkers, hm, checkedOffsetKey_of_lt hlt]

theorem guides_reachesTarget (target : DraftCompositeSearchKey) :
    Guides (reachesTarget target) (MarkerFrom target) where
  leaf base x := by
    cases x <;> simp [reachesTarget, hasMarkers, childForLeaf, MarkerFrom, markerKey]
  complete base link leaves hs _ hk hin := by
    obtain ⟨m, hm, hle⟩ := holdsIn_markerFrom.mp hin
    obtain ⟨xs, x, rfl, hlast⟩ := hs.last
    have hne : markersFrom base (xs ++ [x]) ≠ [] := ne_nil_of_mem hm
    have hcount : link.markerCount ≠ 0 := by
      rw [hs.markers, ← length_markersFrom base]
      exact fun h => hne (length_eq_zero_iff.mp h)
    have hreach : target ≤ link.last.shift base := by
      rw [hlast, endKey_shift, add_comm]
      exact hle.trans (markerKey_le_endKey hk hm)
    simp [reachesTarget, hasMarkers, hcount, hreach]

/-! ## Cursors on markers -/

section

variable {H : ℕ} {root : SequenceRef H}

/-- A cursor rests on the marker `m` of the document, between `pre` and `post`. -/
def MarkerCursorAt (root : SequenceRef H) (cursor : SequenceCursor)
    (pre : List DraftPieceMarkerAt) (m : DraftPieceMarkerAt) (post : List DraftPieceMarkerAt) :
    Prop :=
  ∃ b a, CursorAt root cursor b (.marker m.marker) a ∧ m.anchor = textLength b
    ∧ pre = markersFrom 0 b ∧ post = markersFrom (textLength b) a

variable {cursor : SequenceCursor} {pre post : Markers} {m n : DraftPieceMarkerAt}

theorem MarkerCursorAt.markers_eq (hat : MarkerCursorAt root cursor pre m post) :
    documentMarkers root = pre ++ m :: post := by
  obtain ⟨b, a, hcur, hanchor, rfl, rfl⟩ := hat
  obtain ⟨anchor, marker⟩ := m
  obtain rfl : anchor = textLength b := hanchor
  simp [documentMarkers, hcur.flatten_eq]

/-- **The marker under a cursor is read back.** -/
theorem MarkerCursorAt.markerAtCursor (hroot : WellFormedRoot root)
    (hat : MarkerCursorAt root cursor pre m post) :
    markerAtCursor cursor = .ok (markerKey m, m) := by
  obtain ⟨b, a, hcur, hanchor, -, -⟩ := hat
  have hload := hcur.loadSequenceLeaf hroot
  obtain ⟨ref, -, -, hleaf⟩ := hcur
  have hanch : cursor.leaf.anchor = m.anchor := by rw [hleaf, hanchor]
  simp only [Draft.markerAtCursor, hload, ok_bind, hanch]
  rfl

theorem CursorAt.markerCursorAt {b a : Leaves} {marker : DraftPieceMarker}
    (hcur : CursorAt root cursor b (.marker marker) a) :
    MarkerCursorAt root cursor (markersFrom 0 b) ⟨textLength b, marker⟩
      (markersFrom (textLength b) a) := ⟨b, a, hcur, rfl, rfl, rfl⟩

/-! ### Moving to the next marker and to the previous one -/

section

variable (hroot : WellFormedRoot root)
include hroot

theorem MarkerCursorAt.advance_nil (hat : MarkerCursorAt root cursor pre m []) :
    advanceMatching hasMarkers cursor.frames = .ok none := by
  obtain ⟨b, a, ⟨ref, path, -, -⟩, -, -, hpost⟩ := hat
  obtain ⟨_, _, x, _, -, hfirst, -⟩ | ⟨hadv, -⟩ := path.advance hroot reads_hasMarkers
  · exact absurd hfirst.holds (markersFrom_eq_nil_iff.mp hpost.symm x hfirst.mem)
  · exact hadv

theorem MarkerCursorAt.advance_cons (hat : MarkerCursorAt root cursor pre m (n :: post)) :
    ∃ cursor', advanceMatching hasMarkers cursor.frames = .ok (some cursor')
      ∧ MarkerCursorAt root cursor' (pre ++ [m]) n post := by
  obtain ⟨b, a, ⟨ref, path, hleaf, -⟩, hanchor, rfl, hpost⟩ := hat
  obtain ⟨anchor, marker⟩ := m
  obtain rfl : anchor = textLength b := hanchor
  obtain ⟨cursor', l, x, r, hadv, ⟨rfl, ⟨marker', rfl⟩, hl⟩, hcur⟩ | ⟨-, hfree⟩ :=
    path.advance hroot reads_hasMarkers
  swap
  · simp [markersFrom_eq_nil_iff.mpr hfree] at hpost
  refine ⟨cursor', hadv, ?_⟩
  have hat := hcur.markerCursorAt
  rw [markersFrom_append, markersFrom_eq_nil_iff.mpr hl] at hpost
  simp only [flatten_zero, hleaf, markersFrom_append, markersFrom_eq_nil_iff.mpr hl,
    textLength_append,
    textLength_cons, textLength_nil, bytes_marker, length_nil, add_zero, zero_add,
    markersFrom_marker, markersFrom_nil, append_nil, nil_append] at hat hpost
  cases hpost
  exact hat

theorem MarkerCursorAt.retreat_nil (hat : MarkerCursorAt root cursor [] m post) :
    retreatMatching hasMarkers cursor.frames = .ok none := by
  obtain ⟨b, a, ⟨ref, path, -, -⟩, -, hpre, -⟩ := hat
  obtain ⟨_, _, x, _, -, hlast, -⟩ | ⟨hret, -⟩ := path.retreat hroot reads_hasMarkers
  · exact absurd hlast.holds (markersFrom_eq_nil_iff.mp hpre.symm x hlast.mem)
  · exact hret

theorem MarkerCursorAt.retreat_concat (hat : MarkerCursorAt root cursor (pre ++ [n]) m post) :
    ∃ cursor', retreatMatching hasMarkers cursor.frames = .ok (some cursor')
      ∧ MarkerCursorAt root cursor' pre n (m :: post) := by
  obtain ⟨b, a, ⟨ref, path, hleaf, -⟩, hanchor, hpre, rfl⟩ := hat
  obtain ⟨anchor, marker⟩ := m
  obtain rfl : anchor = textLength b := hanchor
  obtain ⟨cursor', l, x, r, hret, ⟨rfl, ⟨marker', rfl⟩, hr⟩, hcur⟩ | ⟨-, hfree⟩ :=
    path.retreat hroot reads_hasMarkers
  swap
  · simp [markersFrom_eq_nil_iff.mpr hfree] at hpre
  refine ⟨cursor', hret, ?_⟩
  have hat := hcur.markerCursorAt
  simp only [flatten_zero, hleaf, markersFrom_append, markersFrom_eq_nil_iff.mpr hr,
    textLength_append, textLength_cons, bytes_marker, length_nil, zero_add, append_assoc,
    markersFrom_marker, nil_append, cons_append] at hat hpre ⊢
  obtain ⟨rfl, hn⟩ := append_inj' hpre rfl
  cases hn
  exact hat

theorem lastMatchingCursor_nil (hnone : documentMarkers root = []) :
    lastMatchingCursor hasMarkers root = .ok none := by
  have hfree : ¬ hasMarkers root.link = true := by
    rw [reads_hasMarkers _ _ hroot.wellFormed.summary]
    rintro ⟨x, hx, hm⟩
    exact markersFrom_eq_nil_iff.mp hnone x hx hm
  simp [lastMatchingCursor, hfree]

theorem lastMatchingCursor_concat (hsome : documentMarkers root = pre ++ [m]) :
    ∃ cursor, lastMatchingCursor hasMarkers root = .ok (some cursor)
      ∧ MarkerCursorAt root cursor pre m [] := by
  have hex : ∃ x ∈ flatten H root.tree, IsMarker x :=
    by_contra fun hno => by
      push Not at hno
      rw [documentMarkers, markersFrom_eq_nil_iff.mpr hno] at hsome
      simp at hsome
  have hacc : hasMarkers root.link = true := (reads_hasMarkers _ _ hroot.wellFormed.summary).mpr hex
  obtain ⟨cursor, l, x, r, hdesc, ⟨hfl, ⟨marker, rfl⟩, hr⟩, hcur⟩ :=
    CursorPath.start.descendReverse hroot reads_hasMarkers hex
  refine ⟨cursor, ?_, ?_⟩
  · simp only [textLength_nil, length_nil] at hdesc
    simp [lastMatchingCursor, hacc, hdesc]
  · have hat := hcur.markerCursorAt
    simp only [documentMarkers, hfl, markersFrom_append, markersFrom_marker,
      markersFrom_eq_nil_iff.mpr hr, nil_append, append_nil, zero_add] at hsome hat
    obtain ⟨rfl, hm⟩ := append_inj' hsome rfl
    cases hm
    exact hat

end

/-! ### Searching by key -/

/-- **What the search by key does**: nothing is found when no marker is at or past the target, or
when the first such marker is shadowed; otherwise the cursor rests on the first such marker. -/
theorem markerCursor_cases (hdoc : WellFormedDocument root) (target : DraftCompositeSearchKey) :
    ((∀ m ∈ documentMarkers root, markerKey m < target) ∧ markerCursor root target = .ok none)
    ∨ ((∃ m ∈ documentMarkers root, target ≤ markerKey m) ∧ MarkerShadowed root target
        ∧ markerCursor root target = .ok none)
    ∨ (¬ MarkerShadowed root target ∧ ∃ cursor pre m post,
        markerCursor root target = .ok (some cursor) ∧ MarkerCursorAt root cursor pre m post
        ∧ (∀ n ∈ pre, markerKey n < target) ∧ target ≤ markerKey m) := by
  rcases guidedCursor_root hdoc aggregateOverflow (computes_markerCursorAccepts target)
    (guides_reachesTarget target) with
    ⟨hno, hnone⟩ | ⟨hsh, hnone⟩ | ⟨hsh, cursor, l, x, r, hsome, ⟨-, ⟨m, rfl, hle⟩, hl⟩, hcur⟩
  · refine .inl ⟨fun m hm => not_le.mp fun hle => ?_, hnone⟩
    exact hno (holdsIn_markerFrom.mpr ⟨m, hm, hle⟩)
  · exact .inr (.inl ⟨holdsIn_markerFrom.mp hsh.holdsIn, hsh, hnone⟩)
  · refine .inr (.inr ⟨hsh, cursor, _, _, _, hsome, hcur.markerCursorAt, fun n hn => ?_, hle⟩)
    exact not_le.mp fun hge => hl (holdsIn_markerFrom.mpr ⟨n, hn, hge⟩)

/-- A search for the key of a marker: it fails, or rests on that marker if the document has it. -/
theorem markerCursor_markerKey (hdoc : WellFormedDocument root) (m : DraftPieceMarkerAt) :
    (markerCursor root (markerKey m) = .ok none
        ∧ (MarkerShadowed root (markerKey m) ∨ m ∉ documentMarkers root))
    ∨ (¬ MarkerShadowed root (markerKey m) ∧ ∃ cursor pre n post,
        markerCursor root (markerKey m) = .ok (some cursor) ∧ MarkerCursorAt root cursor pre n post
        ∧ (m ∈ documentMarkers root → n = m)) := by
  rcases markerCursor_cases hdoc (markerKey m) with
    ⟨hall, hnone⟩ | ⟨-, hsh, hnone⟩ | ⟨hsh, cursor, pre, n, post, hsome, hat, hpre, hle⟩
  · exact .inl ⟨hnone, .inr fun hm => lt_irrefl _ (hall m hm)⟩
  · exact .inl ⟨hnone, .inl hsh⟩
  · refine .inr ⟨hsh, cursor, pre, n, post, hsome, hat, fun hm => ?_⟩
    have hk := hdoc.keysSorted
    rw [hat.markers_eq] at hk hm
    exact (hk.eq_of_first hpre hle hm).symm

end

end Beryl.Draft
