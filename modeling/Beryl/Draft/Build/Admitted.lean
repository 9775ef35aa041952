import Beryl.Draft.Build.Stages

/-!
# Draft/Build/Admitted — builds that can go on

`Admitted build edits` collects what the fragments of a text build have to satisfy, with the edits
they ask for; `Viable` adds that every removal leaves the markers in order.
-/

namespace Beryl.Draft

open Fallible Replace List DraftUnit
open Utf8 (ValidUtf8)

/-! ## Admitted builds -/

/-- **A build is admitted**: every fragment names a range of its well-formed predecessor; the ranges
follow one another and hold text only; what is inserted is valid; a continuation repeats the
fragment before it, and no other fragment repeats an empty range; and the counters have room. -/
structure Admitted (build : Build) (edits : Edits) : Prop where
  sound : build.predecessor.Sound
  chars : ∀ t, DraftPieceLeafValue.text t ∈ build.predecessor.leaves → ValidUtf8 t
  nonempty : build.fragments ≠ []
  asks : List.Forall₂ (EditOf build.predecessor.leaves) build.fragments edits
  apart : Apart build.document.length 0 edits
  text : ∀ edit ∈ edits, ∀ i, edit.start ≤ i → i < edit.stop → ∃ b,
    build.document[i]? = some (.byte b)
  valid : ∀ fragment ∈ build.fragments, validateFragment fragment = .ok ()
  continues : ∀ i fragment, build.fragments[i]? = some fragment → fragment.isContinuation = true →
    fragment.inserted ≠ [] ∧ ∃ j previous, i = j + 1 ∧ build.fragments[j]? = some previous
      ∧ previous.start = fragment.start ∧ previous.stop = fragment.stop
  distinct : ∀ i previous fragment, build.fragments[i]? = some previous →
    build.fragments[i + 1]? = some fragment → fragment.isContinuation = false →
    ¬ ∃ b, Resolves build.predecessor.leaves previous.start b
      ∧ Resolves build.predecessor.leaves previous.stop b
      ∧ Resolves build.predecessor.leaves fragment.start b
      ∧ Resolves build.predecessor.leaves fragment.stop b
  countable : build.fragments.length + 1 < u64Size
  room : build.document.length + insertedTotal edits + 1 < u64Size

/-- **A build that can go on**: it is admitted, and every removal leaves the markers in order. -/
def Viable (build : Build) : Prop := ∃ edits, Admitted build edits ∧ Kept build.document edits

variable {roots : BuildRoots} {position : DraftCompositePosition} {b b' : Boundary} {u u' : ℕ}
  {fragment : DraftPieceReplacement} {edits : Edits} {leaves : Leaves}

theorem StandsAt.unique (hroots : roots.Sound) (h : StandsAt roots.leaves position b u)
    (h' : StandsAt roots.leaves position b' u') : u = u' := by
  obtain rfl := h.1.unique hroots h'.1
  exact h.2.unit_eq h'.2

theorem RangeOf.unique (hroots : roots.Sound) {s e s' e' : ℕ}
    (h : RangeOf roots.leaves fragment s e)
    (h' : RangeOf roots.leaves fragment s' e') : s = s' ∧ e = e' := by
  obtain ⟨b, hb⟩ := h.stop
  obtain ⟨b', hb'⟩ := h'.stop
  have he := hb.unique hroots hb'
  have h1 := h.start
  have h2 := h'.start
  split at h1
  · simp only [*, if_true] at h2
    exact ⟨by omega, he⟩
  · rename_i hfresh
    rw [if_neg hfresh] at h2
    obtain ⟨c, hc⟩ := h1
    obtain ⟨c', hc'⟩ := h2
    exact ⟨hc.unique hroots hc', he⟩

theorem rightUnique_editOf (hroots : roots.Sound) : Relator.RightUnique (EditOf roots.leaves) := by
  rintro fragment ⟨s, e, inserted⟩ ⟨s', e', inserted'⟩ h h'
  obtain ⟨rfl, rfl⟩ := h.range.unique hroots h'.range
  obtain rfl : inserted = inserted' := h.inserted.trans h'.inserted.symm
  rfl

section

variable {build : Build} {k : ℕ} {done : Edits}

/-- The edits of the ledger are those the build is admitted with. -/
theorem Task.split (hadm : Admitted build edits) (htask : Task build k fragment done) :
    ∃ edit rest, edits = done ++ edit :: rest ∧ EditOf build.predecessor.leaves fragment edit := by
  obtain ⟨hlt, hget⟩ := List.getElem?_eq_some_iff.mp htask.fragment
  have hdone : done = edits.take (k - 1) :=
    right_unique_forall₂' (rightUnique_editOf hadm.sound) htask.performed
      (forall₂_take (k - 1) hadm.asks)
  have hlen := hadm.asks.length_eq
  have hlt' : k - 1 < edits.length := by omega
  refine ⟨edits[k - 1], edits.drop k, ?_, ?_⟩
  · conv_lhs => rw [← take_append_drop (k - 1) edits, drop_eq_getElem_cons hlt']
    rw [hdone, Nat.sub_add_cancel htask.positive]
  · have h := forall₂_iff_get.mp hadm.asks |>.2 (k - 1) hlt hlt'
    simp only [get_eq_getElem] at h
    rwa [hget] at h

theorem Admitted.edit (hadm : Admitted build edits) {i : ℕ}
    (hget : build.fragments[i]? = some fragment) :
    ∃ edit, EditOf build.predecessor.leaves fragment edit := by
  obtain ⟨hlt, rfl⟩ := List.getElem?_eq_some_iff.mp hget
  have hlen := hadm.asks.length_eq
  exact ⟨edits[i], forall₂_iff_get.mp hadm.asks |>.2 i hlt (by omega)⟩

/-- The start of every fragment stands somewhere, that of a continuation too. -/
theorem Admitted.exists_start (hadm : Admitted build edits) : ∀ {i : ℕ} {fragment},
    build.fragments[i]? = some fragment →
      ∃ b u, StandsAt build.predecessor.leaves fragment.start b u
  | i, fragment, hget => by
    cases hcont : fragment.isContinuation with
    | false =>
      obtain ⟨edit, hedit⟩ := hadm.edit hget
      have hstart := hedit.range.start
      rw [hcont] at hstart
      obtain ⟨b, hb⟩ := hstart
      exact ⟨b, _, hb⟩
    | true =>
      obtain ⟨-, j, previous, rfl, hprev, hstart, -⟩ := hadm.continues i fragment hget hcont
      rw [← hstart]
      exact hadm.exists_start hprev

end

/-! ## Cutting the draft -/

/-- A point to cut the predecessor at is a point to cut the draft at. -/
theorem Ledger.cutPoint {document : List DraftUnit} {map : MapRoot}
    (hl : Ledger document edits roots map) (hc : cursorAfter 0 edits ≤ u)
    (hu : CutPoint document u) :
    CutPoint (unitsOf roots.leaves) (written document edits + (u - cursorAfter 0 edits)) := by
  have hle := hu.1
  refine ⟨?_, fun byte hbyte => hu.2 byte ?_⟩
  · rw [hl.units, length_replaceAll_eq]
    omega
  · rwa [hl.units, getElem?_replaceAll document hc] at hbyte

/-- A draft can be cut wherever a character begins. -/
theorem atUnit_meets {sequence : WorkingSequence} {c : Prop} (hs : Rooted sequence)
    (hu : c → CutPoint (unitsOf (workingLeaves sequence)) u) :
    Meets (atUnit sequence u) c fun fact =>
        fact.unit = u ∧ fact.Marks (workingLeaves sequence) := by
  refine ⟨(atUnit_eq_ok hs).mp, fun hc => ?_⟩
  obtain ⟨b, hb⟩ := exists_placedAt (hu hc)
  have hmarks : UnitFact.Marks ⟨b, u, textLength ((workingLeaves sequence).take b.rank) + b.inner,
      markerTotal ((workingLeaves sequence).take b.rank), (workingLeaves sequence)[b.rank]?⟩
      (workingLeaves sequence) := ⟨hb, rfl, rfl, rfl⟩
  exact ⟨_, (atUnit_eq_ok hs).mpr ⟨rfl, hmarks⟩⟩

/-- Is a unit a marker? -/
def DraftUnit.isMarker : DraftUnit → Bool
  | .byte _ => false
  | .marker _ => true

theorem countP_bytes (t : Utf8) : (t.map DraftUnit.byte).countP isMarker = 0 := by
  simp [countP_eq_zero, isMarker]

theorem markerTotal_eq_countP (leaves : Leaves) :
    markerTotal leaves = (unitsOf leaves).countP isMarker := by
  induction leaves with
  | nil => rfl
  | cons x xs ih =>
    rw [markerTotal_cons, unitsOf_cons, countP_append, ih]
    cases x with
    | text t => rw [units_text, countP_bytes]; rfl
    | marker m => rfl

/-- The markers in front of a boundary are those in front of its unit. -/
theorem PlacedAt.markers (h : PlacedAt leaves b u) : markerTotal (leaves.take b.rank)
      = ((unitsOf leaves).take u).countP isMarker := by
  cases h with
  | @between l r hsplit =>
    subst hsplit
    rw [take_left, unitsOf_append, take_left, markerTotal_eq_countP]
  | @inside l r t i hsplit h0 hlt hchar =>
    subst hsplit
    rw [take_left, unitsOf_append, take_length_add_append, unitsOf_cons, units_text,
      take_append_of_le_length (by simpa using hlt.le), countP_append, ← map_take,
      countP_bytes, markerTotal_eq_countP, add_zero]

/-- A range of text leaves the markers in front of its ends the same. -/
theorem markers_eq_of_text {b b' : Boundary}
    (h : PlacedAt leaves b u) (h' : PlacedAt leaves b' u') (hle : u ≤ u')
    (hbytes : ∀ i, u ≤ i → i < u' → ∃ byte, (unitsOf leaves)[i]? = some (.byte byte)) :
    markerTotal (leaves.take b'.rank) = markerTotal (leaves.take b.rank) := by
  have hsplit : (unitsOf leaves).take u'
      = (unitsOf leaves).take u ++ ((unitsOf leaves).drop u).take (u' - u) := by
    rw [← take_add, Nat.add_sub_cancel' hle]
  have hmid : (((unitsOf leaves).drop u).take (u' - u)).countP isMarker = 0 := by
    rw [countP_eq_zero]
    intro x hx
    obtain ⟨j, hj⟩ := mem_iff_getElem?.mp hx
    rw [getElem?_take] at hj
    split at hj
    · rename_i hlt
      rw [getElem?_drop] at hj
      obtain ⟨byte, hbyte⟩ := hbytes (u + j) (by omega) (by omega)
      cases hj.symm.trans hbyte
      simp [isMarker]
    · cases hj
  rw [h'.markers, h.markers, hsplit, countP_append, hmid, add_zero]

end Beryl.Draft
