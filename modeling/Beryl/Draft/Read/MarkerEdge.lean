import Beryl.Draft.Read.MarkerCursor

/-!
# Draft/Read/MarkerEdge — proofs about the markers at one anchor

`proveMarkerEdge` answers a request about the markers anchored at one text offset: that there are
none, that a marker is the first or the last of them, that two of them are neighbours.
`DraftPieceMarkerEdgeProofRequest.Holds` says on the list of markers what each request asserts.

The answers are exact **unless the marker searched for is shadowed**
(`proveMarkerEdge_settles_iff`): then a true first, last or adjacent edge is refused, and an absence
is proved at an anchor that carries a marker (`proveMarkerEdge_false_absence`).
-/

namespace Beryl.Draft

open List

/-! ## Requests and proofs -/

/-- `DraftPieceMarkerEdgeProofRequestV1`. -/
inductive DraftPieceMarkerEdgeProofRequest
  | absence (anchor : ℕ)
  | first (marker : DraftPieceMarkerAt)
  | last (marker : DraftPieceMarkerAt)
  | adjacent (left right : DraftPieceMarkerAt)
  deriving DecidableEq

/-- `DraftPieceMarkerEdgeProofV1`. -/
inductive DraftPieceMarkerEdgeProof
  | absence (anchor : ℕ)
  | first (marker : DraftPieceMarkerAt)
  | last (marker : DraftPieceMarkerAt)
  | adjacent (left right : DraftPieceMarkerAt)
  deriving DecidableEq

namespace DraftPieceMarkerEdgeProofRequest

/-- The anchor a request is about; an adjacent pair at two anchors has none. -/
def anchor? : DraftPieceMarkerEdgeProofRequest → Option ℕ
  | absence anchor => some anchor
  | first marker => some marker.anchor
  | last marker => some marker.anchor
  | adjacent left right => if left.anchor ≠ right.anchor then none else some left.anchor

/-- The proof that grants a request. -/
def proof : DraftPieceMarkerEdgeProofRequest → DraftPieceMarkerEdgeProof
  | absence anchor => .absence anchor
  | first marker => .first marker
  | last marker => .last marker
  | adjacent left right => .adjacent left right

/-- **What a request asserts of the markers of a document.** -/
def Holds (markers : List DraftPieceMarkerAt) : DraftPieceMarkerEdgeProofRequest → Prop
  | absence anchor => ∀ m ∈ markers, m.anchor ≠ anchor
  | first marker => ∃ pre post, markers = pre ++ marker :: post
      ∧ ∀ m ∈ pre, m.anchor ≠ marker.anchor
  | last marker => ∃ pre post, markers = pre ++ marker :: post
      ∧ ∀ m ∈ post, m.anchor ≠ marker.anchor
  | adjacent left right => left.anchor = right.anchor
      ∧ ∃ pre post, markers = pre ++ left :: right :: post

end DraftPieceMarkerEdgeProofRequest

open DraftPieceMarkerEdgeProofRequest

/-! ## The answers -/

section

variable {H : ℕ}

/-- The `Absence` arm of `prove_marker_edge`. -/
def proveAbsence (sequence : SequenceRef H) (anchor : ℕ) :
    Prepared (Option DraftPieceMarkerEdgeProof) := do
  match ← markerCursor sequence (.beforeMarkers anchor) with
  | some cursor =>
    let (_, marker) ← markerAtCursor cursor
    return if marker.anchor ≠ anchor then some (.absence anchor) else none
  | none => return some (.absence anchor)

/-- The shape of the other three arms: find the marker itself, move to a neighbour, and let that
decide. -/
def proveAtMarker (sequence : SequenceRef H) (marker : DraftPieceMarkerAt)
    (move : List CursorFrame → Prepared (Option SequenceCursor))
    (grants : Option DraftPieceMarkerAt → Bool) (proof : DraftPieceMarkerEdgeProof) :
    Prepared (Option DraftPieceMarkerEdgeProof) := do
  match ← markerCursor sequence (markerKey marker) with
  | none => return none
  | some cursor =>
    let (_, found) ← markerAtCursor cursor
    if found ≠ marker then return none else
    match ← move cursor.frames with
    | none => return if grants none then some proof else none
    | some moved =>
      let (_, neighbour) ← markerAtCursor moved
      return if grants (some neighbour) then some proof else none

/-- The `First` arm: no marker in front, or one at another anchor. -/
def proveFirst (sequence : SequenceRef H) (marker : DraftPieceMarkerAt) :
    Prepared (Option DraftPieceMarkerEdgeProof) :=
  proveAtMarker sequence marker (retreatMatching hasMarkers)
    (fun before => before.all (·.anchor ≠ marker.anchor)) (.first marker)

/-- The `Last` arm: no marker behind, or one at another anchor. -/
def proveLast (sequence : SequenceRef H) (marker : DraftPieceMarkerAt) :
    Prepared (Option DraftPieceMarkerEdgeProof) :=
  proveAtMarker sequence marker (advanceMatching hasMarkers)
    (fun after => after.all (·.anchor ≠ marker.anchor)) (.last marker)

/-- The `Adjacent` arm: the marker behind `left` is `right`. -/
def proveAdjacent (sequence : SequenceRef H) (left right : DraftPieceMarkerAt) :
    Prepared (Option DraftPieceMarkerEdgeProof) :=
  proveAtMarker sequence left (advanceMatching hasMarkers)
    (fun after => after = some right) (.adjacent left right)

/-- `prove_marker_edge`. -/
def proveMarkerEdge (sequence : Option (SequenceRef H))
    (request : DraftPieceMarkerEdgeProofRequest) : Prepared (Option DraftPieceMarkerEdgeProof) :=
  match request.anchor? with
  | none => .ok none
  | some anchor =>
    if anchor > extent sequence then .error invalidGapWitness
    else match sequence, request with
      | none, .absence _ => .ok (some (.absence anchor))
      | none, _ => .ok none
      | some sequence, .absence anchor => proveAbsence sequence anchor
      | some sequence, .first marker => proveFirst sequence marker
      | some sequence, .last marker => proveLast sequence marker
      | some sequence, .adjacent left right => proveAdjacent sequence left right

/-! ## Exactness -/

/-- **The answer to a request is the right one**: the proof asked for when the assertion is true of
the flattened document, no proof otherwise. -/
def Settles (sequence : Option (SequenceRef H)) (request : DraftPieceMarkerEdgeProofRequest) :
    Prop :=
  (request.Holds (markersFrom 0 (sequenceLeaves sequence)) →
      proveMarkerEdge sequence request = .ok (some request.proof))
    ∧ (¬ request.Holds (markersFrom 0 (sequenceLeaves sequence)) →
      proveMarkerEdge sequence request = .ok none)

/-- The requests that a shadowed marker leads astray: an absence that is false, an edge that is
there. -/
def DraftPieceMarkerEdgeProofRequest.Misled (root : SequenceRef H) :
    DraftPieceMarkerEdgeProofRequest → Prop
  | absence anchor => MarkerShadowed root (.beforeMarkers anchor)
      ∧ ¬ Holds (documentMarkers root) (absence anchor)
  | first marker => MarkerShadowed root (markerKey marker)
      ∧ Holds (documentMarkers root) (first marker)
  | last marker => MarkerShadowed root (markerKey marker)
      ∧ Holds (documentMarkers root) (last marker)
  | adjacent left right => MarkerShadowed root (markerKey left)
      ∧ Holds (documentMarkers root) (adjacent left right)

variable {root : SequenceRef H} {m : DraftPieceMarkerAt}

/-- An arm that refuses whatever is shadowed, and is exact otherwise, is exact but for the true
requests that are shadowed. -/
theorem exact_iff_of_refuses {ε α : Type} {shadowed holds : Prop} {answer : Except ε (Option α)}
    {p : α} (hsh : shadowed → answer = .ok none)
    (hclear : ¬ shadowed → (holds → answer = .ok (some p)) ∧ (¬ holds → answer = .ok none)) :
    ((holds → answer = .ok (some p)) ∧ (¬ holds → answer = .ok none)) ↔ ¬ (shadowed ∧ holds) := by
  constructor
  · rintro ⟨hyes, -⟩ ⟨h, hh⟩
    have := (hsh h).symm.trans (hyes hh)
    simp at this
  · intro h
    by_cases hs : shadowed
    · exact ⟨fun hh => absurd ⟨hs, hh⟩ h, fun _ => hsh hs⟩
    · exact hclear hs

/-- What a move does, read on the markers in front of the cursor and behind it. -/
def Moves (root : SequenceRef H) (move : List CursorFrame → Prepared (Option SequenceCursor))
    (neighbour : List DraftPieceMarkerAt → List DraftPieceMarkerAt → Option DraftPieceMarkerAt) :
    Prop :=
  ∀ cursor pre m post, MarkerCursorAt root cursor pre m post →
    (move cursor.frames = .ok none ∧ neighbour pre post = none)
    ∨ ∃ moved n, move cursor.frames = .ok (some moved) ∧ neighbour pre post = some n
        ∧ markerAtCursor moved = .ok (markerKey n, n)

theorem moves_retreat (hroot : WellFormedRoot root) :
    Moves root (retreatMatching hasMarkers) fun pre _ => pre.getLast? := by
  intro cursor pre m post hat
  obtain rfl | ⟨pre, n, rfl⟩ := pre.eq_nil_or_concat
  · exact .inl ⟨hat.retreat_nil hroot, rfl⟩
  · rw [concat_eq_append] at hat ⊢
    obtain ⟨moved, hmove, hat'⟩ := hat.retreat_concat hroot
    exact .inr ⟨moved, n, hmove, by simp, hat'.markerAtCursor hroot⟩

theorem moves_advance (hroot : WellFormedRoot root) :
    Moves root (advanceMatching hasMarkers) fun _ post => post.head? := by
  intro cursor pre m post hat
  cases post with
  | nil => exact .inl ⟨hat.advance_nil hroot, rfl⟩
  | cons n post =>
    obtain ⟨moved, hmove, hat'⟩ := hat.advance_cons hroot
    exact .inr ⟨moved, n, hmove, rfl, hat'.markerAtCursor hroot⟩

/-- **The three arms that start from a marker are exact unless it is shadowed.** -/
theorem proveAtMarker_exact (hdoc : WellFormedDocument root) (m : DraftPieceMarkerAt)
    {move : List CursorFrame → Prepared (Option SequenceCursor)}
    {neighbour : Markers → Markers → Option DraftPieceMarkerAt}
    (hmove : Moves root move neighbour) {grants : Option DraftPieceMarkerAt → Bool}
    {p : DraftPieceMarkerEdgeProof} {holds : Prop}
    (hholds : holds ↔ ∃ pre post, documentMarkers root = pre ++ m :: post
      ∧ grants (neighbour pre post) = true) :
    ((holds → proveAtMarker root m move grants p = .ok (some p))
      ∧ (¬ holds → proveAtMarker root m move grants p = .ok none))
    ↔ ¬ (MarkerShadowed root (markerKey m) ∧ holds) := by
  rcases markerCursor_markerKey hdoc m with
    ⟨hnone, hwhy⟩ | ⟨hsh, cursor, pre, n, post, hsome, hat, hmem⟩
  · have hans : proveAtMarker root m move grants p = .ok none := by simp [proveAtMarker, hnone]
    refine exact_iff_of_refuses (fun _ => hans) fun hsh => ⟨fun h => ?_, fun _ => hans⟩
    obtain ⟨pre, post, hms, -⟩ := hholds.mp h
    exact absurd (by rw [hms]; simp) (hwhy.resolve_left hsh)
  · refine exact_iff_of_refuses (fun h => absurd h hsh) fun _ => ?_
    have hms := hat.markers_eq
    have hload := hat.markerAtCursor hdoc.toWellFormedRoot
    by_cases hnm : n = m
    · subst hnm
      have hans : proveAtMarker root n move grants p
          = .ok (if grants (neighbour pre post) then some p else none) := by
        rcases hmove cursor pre n post hat with ⟨hm, hn⟩ | ⟨moved, k, hm, hn, hk⟩
        · simp [proveAtMarker, hsome, hload, hm, hn]
        · simp [proveAtMarker, hsome, hload, hm, hn, hk]
      -- the marker cuts the document in one way only, so the neighbour is the one found
      have hiff : holds ↔ grants (neighbour pre post) = true := by
        rw [hholds]
        refine ⟨fun ⟨pre', post', hms', hg⟩ => ?_, fun hg => ⟨pre, post, hms, hg⟩⟩
        obtain ⟨rfl, rfl⟩ := (hms ▸ hdoc.keysSorted : KeysSorted (pre ++ n :: post)).split_unique
          (hms.symm.trans hms')
        exact hg
      rw [hans, hiff]
      constructor <;> intro h <;> simp [h]
    · have hans : proveAtMarker root m move grants p = .ok none := by
        simp [proveAtMarker, hsome, hload, hnm]
      refine ⟨fun h => ?_, fun _ => hans⟩
      obtain ⟨pre', post', hms', -⟩ := hholds.mp h
      exact absurd (hmem (by rw [hms']; simp)) hnm

/-- No marker in front of the last one before `m` shares an anchor with `m`, unless that one does.
-/
theorem first_iff_getLast {pre post : Markers}
    (h : (pre ++ m :: post).Pairwise fun m n => m.anchor ≤ n.anchor) :
    (∀ k ∈ pre, k.anchor ≠ m.anchor) ↔ pre.getLast?.all (·.anchor ≠ m.anchor) = true := by
  obtain rfl | ⟨pre, n, rfl⟩ := pre.eq_nil_or_concat
  · simp
  · simp only [concat_eq_append] at h ⊢
    obtain ⟨h1, -, h2⟩ := pairwise_append.mp h
    obtain ⟨-, -, h3⟩ := pairwise_append.mp h1
    have hn := h2 n (by simp) m (by simp)
    simp only [mem_append, mem_singleton, getLast?_append, getLast?_singleton,
      Option.some_or, Option.all_some, decide_eq_true_eq]
    refine ⟨fun hall => hall n (.inr rfl), fun hne k hk => ?_⟩
    rcases hk with hk | rfl
    · have := h3 k hk n (by simp)
      omega
    · exact hne

theorem last_iff_head {pre post : Markers}
    (h : (pre ++ m :: post).Pairwise fun m n => m.anchor ≤ n.anchor) :
    (∀ k ∈ post, k.anchor ≠ m.anchor) ↔ post.head?.all (·.anchor ≠ m.anchor) = true := by
  cases post with
  | nil => simp
  | cons n post =>
    obtain ⟨-, h1, -⟩ := pairwise_append.mp h
    obtain ⟨h2, h3⟩ := pairwise_cons.mp h1
    have hn := h2 n (by simp)
    simp only [mem_cons, head?_cons, Option.all_some, decide_eq_true_eq]
    refine ⟨fun hall => hall n (.inl rfl), fun hne k hk => ?_⟩
    rcases hk with rfl | hk
    · exact hne
    · have := (pairwise_cons.mp h3).1 k hk
      omega

/-- The absence arm: a shadowed marker is taken for none at all. -/
theorem proveAbsence_exact (hdoc : WellFormedDocument root) (anchor : ℕ) :
    (((∀ m ∈ documentMarkers root, m.anchor ≠ anchor) →
        proveAbsence root anchor = .ok (some (.absence anchor)))
      ∧ (¬ (∀ m ∈ documentMarkers root, m.anchor ≠ anchor) → proveAbsence root anchor = .ok none))
    ↔ ¬ (MarkerShadowed root (.beforeMarkers anchor)
        ∧ ¬ ∀ m ∈ documentMarkers root, m.anchor ≠ anchor) := by
  rcases markerCursor_cases hdoc (.beforeMarkers anchor) with
    ⟨hall, hnone⟩ | ⟨-, hsh, hnone⟩ | ⟨hsh, cursor, pre, n, post, hsome, hat, hpre, hle⟩
  · have hans : proveAbsence root anchor = .ok (some (.absence anchor)) := by
      simp [proveAbsence, hnone]
    have habsent : ∀ m ∈ documentMarkers root, m.anchor ≠ anchor := fun m hm =>
      (markerKey_lt_beforeMarkers.mp (hall m hm)).ne
    exact iff_of_true ⟨fun _ => hans, fun h => absurd habsent h⟩ fun h => h.2 habsent
  · have hans : proveAbsence root anchor = .ok (some (.absence anchor)) := by
      simp [proveAbsence, hnone]
    constructor
    · rintro ⟨-, hno⟩ ⟨-, h⟩
      have := hans.symm.trans (hno h)
      simp at this
    · intro h
      have hholds := not_not.mp fun hn => h ⟨hsh, hn⟩
      exact ⟨fun _ => hans, fun hn => absurd hholds hn⟩
  · refine iff_of_true ?_ fun h => hsh h.1
    have hms := hat.markers_eq
    have hans : proveAbsence root anchor
        = .ok (if n.anchor ≠ anchor then some (.absence anchor) else none) := by
      simp [proveAbsence, hsome, hat.markerAtCursor hdoc.toWellFormedRoot]
    -- markers stand in order of anchor, so the first one not before the anchor decides
    have hn : anchor ≤ n.anchor := not_lt.mp fun h =>
      (not_lt.mpr hle) (markerKey_lt_beforeMarkers.mpr h)
    have hiff : (∀ m ∈ documentMarkers root, m.anchor ≠ anchor) ↔ n.anchor ≠ anchor := by
      rw [hms]
      refine ⟨fun h => h n (by simp), fun hne m hm => ?_⟩
      have hpost := pairwise_anchor_documentMarkers root
      rw [hms, pairwise_append, pairwise_cons] at hpost
      rcases mem_append.mp hm with hm | hm
      · exact (markerKey_lt_beforeMarkers.mp (hpre m hm)).ne
      · rcases mem_cons.mp hm with rfl | hm
        · exact hne
        · have := hpost.2.1.1 m hm
          omega
    rw [hans, hiff]
    constructor <;> intro h <;> simp [h]

/-- **The answers are exact but for the requests a shadowed marker leads astray.** -/
theorem proveMarkerEdge_settles_iff (sequence : Option (SequenceRef H))
    (request : DraftPieceMarkerEdgeProofRequest) (hwf : WellFormedSequence sequence)
    (hinside : ∀ anchor ∈ request.anchor?, anchor ≤ extent sequence) :
    Settles sequence request ↔ ¬ ∃ root ∈ sequence, request.Misled root := by
  cases sequence with
  | none =>
    refine iff_of_true ?_ (by simp)
    cases request with
    | adjacent l r =>
      by_cases hlr : l.anchor = r.anchor <;>
        simp_all [Settles, proveMarkerEdge, anchor?, Holds]
    | _ =>
      simp_all [Settles, proveMarkerEdge, anchor?, Holds, proof]
  | some root =>
    have hdoc := hwf root rfl
    have hanchors := pairwise_anchor_documentMarkers root
    simp only [Option.mem_def, Option.some.injEq, exists_eq_left']
    cases request with
    | absence anchor =>
      have hle : ¬ anchor > extent (some root) := not_lt.mpr (hinside anchor rfl)
      simp only [Settles, proveMarkerEdge, anchor?, hle, if_false]
      exact proveAbsence_exact hdoc anchor
    | first m =>
      have hle : ¬ m.anchor > extent (some root) := not_lt.mpr (hinside m.anchor rfl)
      simp only [Settles, proveMarkerEdge, anchor?, hle, if_false]
      refine proveAtMarker_exact hdoc m (moves_retreat hdoc.toWellFormedRoot) ?_
      refine exists_congr fun pre => exists_congr fun post => and_congr_right fun hms => ?_
      exact first_iff_getLast (by rw [← hms]; exact hanchors)
    | last m =>
      have hle : ¬ m.anchor > extent (some root) := not_lt.mpr (hinside m.anchor rfl)
      simp only [Settles, proveMarkerEdge, anchor?, hle, if_false]
      refine proveAtMarker_exact hdoc m (moves_advance hdoc.toWellFormedRoot) ?_
      refine exists_congr fun pre => exists_congr fun post => and_congr_right fun hms => ?_
      exact last_iff_head (by rw [← hms]; exact hanchors)
    | adjacent l r =>
      by_cases hlr : l.anchor = r.anchor
      · have hle : ¬ l.anchor > extent (some root) :=
          not_lt.mpr (hinside l.anchor (by simp [anchor?, hlr]))
        simp only [Settles, proveMarkerEdge, anchor?, hlr,
          ne_eq, not_true_eq_false, if_false] at hle ⊢
        simp only [hle, if_false]
        refine proveAtMarker_exact hdoc l (moves_advance hdoc.toWellFormedRoot) ?_
        simp only [Holds, hlr, true_and, decide_eq_true_eq]
        refine exists_congr fun pre => ⟨fun ⟨post, h⟩ => ⟨r :: post, h, rfl⟩, ?_⟩
        rintro ⟨post, h, hr⟩
        obtain ⟨post, rfl⟩ := head?_eq_some_iff.mp hr
        exact ⟨post, h⟩
      · refine iff_of_true ⟨fun h => absurd h.1 hlr, fun _ => ?_⟩ fun h => hlr h.2.1
        simp [proveMarkerEdge, anchor?, hlr]

end

theorem proveMarkerEdge_settles_first :
    Settles (some shadowingRoot) (.first ⟨0, ⟨1, 1, 1, 1⟩⟩)
      ↔ ¬ ∃ root ∈ some shadowingRoot,
        (.first ⟨0, ⟨1, 1, 1, 1⟩⟩ : DraftPieceMarkerEdgeProofRequest).Misled root :=
  proveMarkerEdge_settles_iff (some shadowingRoot) (.first ⟨0, ⟨1, 1, 1, 1⟩⟩)
    (by rintro _ ⟨⟩; exact wellFormed_shadowingRoot) (by rintro _ ⟨⟩; decide)

/-- **An absence is proved at an anchor that carries a marker.** -/
theorem proveMarkerEdge_false_absence :
    WellFormedSequence (some shadowingRoot) ∧ 1 ≤ extent (some shadowingRoot)
      ∧ proveMarkerEdge (some shadowingRoot) (.absence 1) = .ok (some (.absence 1))
      ∧ (⟨1, ⟨2, 2, 2, 1⟩⟩ : DraftPieceMarkerAt) ∈ documentMarkers shadowingRoot
      ∧ ¬ Settles (some shadowingRoot) (.absence 1) := by
  have hans : proveMarkerEdge (some shadowingRoot) (.absence 1) = .ok (some (.absence 1)) := by
    decide +kernel
  have hmem : (⟨1, ⟨2, 2, 2, 1⟩⟩ : DraftPieceMarkerAt) ∈ documentMarkers shadowingRoot := by decide
  refine ⟨by rintro _ ⟨⟩; exact wellFormed_shadowingRoot, by decide, hans, hmem, fun h => ?_⟩
  have := hans.symm.trans (h.2 fun hno => hno _ hmem rfl)
  simp at this

end Beryl.Draft
