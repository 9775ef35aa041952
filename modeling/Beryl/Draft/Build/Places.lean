import Beryl.Draft.Build.Program
import Beryl.Draft.Read.PositionAgreement

/-!
# Draft/Build/Places — positions of the predecessor as units

`StandsAt leaves position boundary unit` says what a position means: the boundary it names, and the
unit in front of which the boundary stands.  **The two-step proofs of a build find what a position
means** (`standsAt_of_sourceProof`), and find it for every position that means something
(`exists_sourceProof`).
-/

namespace Beryl.Draft

open Fallible List BuildRoots
open Utf8 (ValidUtf8 startsChar)

/-! ## Sound roots -/

variable {roots : BuildRoots}

/-- **Roots in good shape**: a well-formed document, with as many markers as index and order count.
-/
structure BuildRoots.Sound (roots : BuildRoots) : Prop where
  document : ∀ h ref, roots.sequence = some ⟨h, ref⟩ → WellFormedDocument ref
  index : roots.indexRecords = markerTotal (workingLeaves roots.sequence)
  order : roots.orderMarkers = markerTotal (workingLeaves roots.sequence)

/-- The document of some roots. -/
def BuildRoots.leaves (roots : BuildRoots) : Leaves := workingLeaves roots.sequence

theorem WellFormedDocument.workable {h : ℕ} {ref : SequenceRef h} (hd : WellFormedDocument ref) :
    Workable ref ∧ 1 ≤ h := ⟨⟨hd.wellFormed, hd.filled, hd.selected, hd.height.2⟩, hd.height.1⟩

theorem BuildRoots.Sound.rooted (hr : roots.Sound) : Rooted roots.sequence :=
  fun h ref heq => (hr.document h ref heq).workable

variable {sequence : WorkingSequence}

theorem sequenceMarkers_eq (hs : Rooted sequence) :
    sequenceMarkers sequence = markerTotal (workingLeaves sequence) := hs.counts.2.2.2

theorem loadWorkingRoots_eq (hs : Rooted roots.sequence)
    (hi : roots.indexRecords = markerTotal roots.leaves)
    (ho : roots.orderMarkers = markerTotal roots.leaves) :
    loadWorkingRoots roots = .ok roots.sequence := by
  have hload : loadRootNode roots.sequence = .ok roots.sequence := by
    obtain ⟨sequence, i, o⟩ := roots
    match sequence, hs with
    | none, _ => rfl
    | some ⟨0, ref⟩, hs => exact absurd (hs 0 ref rfl).2 (by omega)
    | some ⟨h + 1, ref⟩, hs =>
      have hwork := (hs (h + 1) ref rfl).1
      rw [loadRootNode, loadSequenceNode_ok hwork.wellFormed
        (by simpa [hwork.selected] using hwork.filled)]
      rfl
  rw [loadWorkingRoots, hload, ok_bind, sequenceMarkers_eq hs,
    ensure_true ⟨ho.symm, hi.trans ho.symm⟩]
  rfl

theorem BuildRoots.Sound.load (hr : roots.Sound) :
    loadWorkingRoots roots = .ok roots.sequence := loadWorkingRoots_eq hr.rooted hr.index hr.order

/-! ## What a position means -/

/-- **A position stands at a boundary, in front of a unit.** -/
def StandsAt (leaves : Leaves) (position : DraftCompositePosition)
    (boundary : Boundary) (unit : ℕ) : Prop :=
  Resolves leaves position boundary ∧ PlacedAt leaves boundary unit

variable {unit rank : ℕ} {boundary : Boundary} {position : DraftCompositePosition}

section

variable {H : ℕ} {root : SequenceRef H} {offset : ℕ} {fact : Option Fact} {f : Fact}
  {primary : Option ℕ}

/-- The answers of `locate` are places of the document. -/
def Places (leaves : Leaves) (fact : Option Fact) : Prop :=
  ∀ f ∈ fact, ∃ l x r, leaves = l ++ x :: r ∧ f = factAt (l, x)

theorem places_of_locate {key : DraftCompositeSearchKey} (hdoc : WellFormedDocument root)
    (hkey : key = .beforeMarkers offset ∨ key = .afterMarkers offset
      ∨ ∃ o i, key = .marker offset o i)
    (hloc : locate root key false = .ok fact) : Places (flatten H root.tree) fact := by
  -- each search either finds nothing or the first leaf it asks for
  have key_case : ∀ {P},
      (∃ p, Finds P (flatten H root.tree) p ∧ locate root key false = .ok (p.map factAt)) →
      Places (flatten H root.tree) fact := by
    rintro P ⟨p, hp, h⟩
    cases hloc.symm.trans h
    cases hp with
    | absent => nofun
    | found hfirst =>
      rintro f ⟨⟩
      exact ⟨_, _, _, hfirst.1, rfl⟩
  obtain rfl | rfl | ⟨o, i, rfl⟩ := hkey
  · exact key_case (locate_finds hdoc _ (guides_before offset))
  · exact key_case (locate_finds hdoc _ (guides_after offset))
  · exact key_case (locate_finds hdoc _
      ⟨guides_guardedKeyTest offset o i, neverShadows_guarded offset o i⟩)

theorem placedAt_of_textBoundary {ordinal : ℕ} (hdoc : WellFormedDocument root)
    (hplaces : Places (flatten H root.tree) fact)
    (hok : textBoundary (some root) fact offset = .ok (boundary, ordinal)) :
    PlacedAt (flatten H root.tree) boundary (offset + ordinal) := by
  have hs := hdoc.wellFormed.summary
  cases fact with
  | none =>
    have hoff : offset = root.link.logicalUtf8Bytes := by
      by_contra hne
      simp [textBoundary, hne] at hok
    obtain ⟨rfl, rfl⟩ : boundary = ⟨root.link.pieceCount, 0⟩ ∧ ordinal = root.link.markerCount := by
      simpa [textBoundary, hoff, eq_comm] using hok
    rw [hoff, hs.bytes, hs.markers, hs.pieces, ← length_unitsOf]
    exact .between (append_nil _).symm
  | some f =>
    obtain ⟨l, x, r, hsplit, rfl⟩ := hplaces f rfl
    cases x with
    | marker m => simp [textBoundary] at hok
    | text t =>
      simp only [textBoundary, factAt_leaf, factAt_anchor, factAt_rank, bind_eq_ok, ensure_eq_ok,
        checkedSub_eq_ok, exists_const] at hok
      obtain ⟨inner, rfl, ⟨hle, hchar⟩, hok⟩ := hok
      split at hok
      · rename_i hend
        simp only [bind_eq_ok, increment, checkedAdd_eq_ok, pure_eq_ok_iff, Prod.mk.injEq] at hok
        obtain ⟨rank, ⟨rfl, -⟩, rfl, rfl⟩ := hok
        have hback : PlacedAt (flatten H root.tree) ⟨(l ++ [DraftPieceLeafValue.text t]).length, 0⟩
            (unitsOf (l ++ [DraftPieceLeafValue.text t])).length :=
          .between (r := r) (by rw [hsplit, append_cons])
        have hcount := length_unitsOf l
        convert hback using 1
        · simp
        · simp only [unitsOf_append, unitsOf_cons, units_text, unitsOf_nil, append_nil,
            length_append, length_map, hcount, factAt]
          omega
      · rename_i hend
        simp only [pure_eq_ok_iff, Prod.mk.injEq] at hok
        obtain ⟨rfl, rfl⟩ := hok
        have hcount := length_unitsOf l
        have hunit : textLength l + inner + markerTotal l = (unitsOf l).length + inner := by omega
        simp only [factAt]
        rw [hunit]
        rcases Nat.eq_zero_or_pos inner with rfl | h0
        · exact .between hsplit
        · exact .inside hsplit h0 (by omega) hchar

theorem placedAt_of_marker (hplaces : Places (flatten H root.tree) fact) (hfact : fact = some f)
    (hanchor : f.located.anchor = offset) :
    PlacedAt (flatten H root.tree) ⟨f.located.rank, 0⟩ (offset + f.markerOrdinal) := by
  obtain ⟨l, x, r, hsplit, rfl⟩ := hplaces f hfact
  have hcount := length_unitsOf l
  have hunit : offset + markerTotal l = (unitsOf l).length := by
    rw [← hanchor, factAt_anchor]
    omega
  simp only [factAt]
  rw [hunit]
  exact .between hsplit

theorem firstMarkerFact_eq_ok (hok : firstMarkerFact offset fact = .ok f) :
    fact = some f ∧ f.located.anchor = offset := by
  simp only [firstMarkerFact, bind_eq_ok, required_eq_ok] at hok
  obtain ⟨g, hg, hok⟩ := hok
  split at hok
  · simp only [bind_eq_ok, ensure_eq_ok, pure_eq_ok_iff, exists_const] at hok
    obtain ⟨h1, rfl⟩ := hok
    exact ⟨hg, h1⟩
  · simp at hok

theorem keyedMarkerFact_eq_ok {o i : ℕ} (hok : keyedMarkerFact (.marker offset o i) fact = .ok f) :
    fact = some f ∧ f.located.anchor = offset := by
  simp only [keyedMarkerFact, bind_eq_ok, required_eq_ok] at hok
  obtain ⟨g, hg, hok⟩ := hok
  split at hok
  · simp only [bind_eq_ok, ensure_eq_ok, pure_eq_ok_iff, exists_const,
      DraftCompositeSearchKey.marker.injEq] at hok
    obtain ⟨h1, rfl⟩ := hok
    exact ⟨hg, h1.1⟩
  · simp at hok

/-- **A completed proof gives a boundary with its unit.** -/
theorem placedAt_of_resolve {component : Component} (hdoc : WellFormedDocument root)
    (hok : resolve (some root) position component primary = .ok (.complete boundary unit)) :
    PlacedAt (flatten H root.tree) boundary unit := by
  obtain ⟨offset, gap⟩ := position
  simp only [resolve, bind_eq_ok, ensure_eq_ok, required_eq_ok, exists_const] at hok
  obtain ⟨-, key, hkey, fact, hfact, hok⟩ := hok
  have hplaces : Places (flatten H root.tree) fact := by
    refine @places_of_locate H root offset _ _ hdoc ?_ hfact
    cases gap <;> cases component <;> simp_all [componentKey, eq_comm]
  cases gap <;> cases component <;>
    simp only [bind_eq_ok, pure_eq_ok_iff, PositionProof.complete.injEq, reduceCtorEq,
      and_false, exists_false, Prod.exists, ensure_eq_ok, exists_const] at hok
  case unambiguous.primary =>
    obtain ⟨b, ordinal, htext, rfl, rfl⟩ := hok
    exact placedAt_of_textBoundary hdoc hplaces htext
  case beforeAll.primary =>
    obtain ⟨f, hf, rfl, rfl⟩ := hok
    exact placedAt_of_marker hplaces (firstMarkerFact_eq_ok hf).1 (firstMarkerFact_eq_ok hf).2
  case afterAll.secondary =>
    obtain ⟨b, ordinal, htext, -, -, -, rfl, rfl⟩ := hok
    exact placedAt_of_textBoundary hdoc hplaces htext
  case between.secondary =>
    obtain rfl : _ = key := Option.some.inj hkey
    obtain ⟨f, hf, -, -, -, -, -, rfl, rfl⟩ := hok
    exact placedAt_of_marker hplaces (keyedMarkerFact_eq_ok hf).1 (keyedMarkerFact_eq_ok hf).2

theorem resolve_secondary_ne {tree : Option (SequenceRef H)} :
    resolve tree position .secondary primary ≠ .ok (.primary rank) := by
  obtain ⟨offset, gap⟩ := position
  intro hok
  cases tree <;> cases gap <;> simp [resolve, bind_eq_ok] at hok

end

variable {proof : ProofComponent}

/-- **The component a proof has come to**: the first, or the second after the first. -/
def ProofFor (sequence : WorkingSequence) (position : DraftCompositePosition)
    (proof : ProofComponent) : Prop :=
  proof = primaryProof ∨ ∃ rank, proof = secondaryProof rank
    ∧ resolveIn sequence position primaryProof = .ok (.primary rank)

theorem ProofFor.next (hproof : ProofFor sequence position proof)
    (hok : resolveIn sequence position proof = .ok (.primary rank)) :
    proof = primaryProof ∧ ProofFor sequence position (secondaryProof rank) := by
  obtain rfl | ⟨first, rfl, -⟩ := hproof
  · exact ⟨rfl, .inr ⟨rank, rfl, hok⟩⟩
  · cases sequence with
    | none | some => exact absurd hok resolve_secondary_ne

/-- The empty draft has one position. -/
theorem resolveIn_none {found : PositionProof}
    (hok : resolveIn none position primaryProof = .ok found) :
    position = ⟨0, .unambiguous⟩ ∧ found = .complete ⟨0, 0⟩ 0 := by
  obtain ⟨offset, gap⟩ := position
  simp only [resolveIn, primaryProof, resolve, bind_eq_ok, ensure_eq_ok, required_eq_ok,
    exists_const] at hok
  obtain ⟨-, key, -, fact, hfact, hok⟩ := hok
  obtain rfl : none = fact := Except.ok.inj hfact
  cases gap <;> simp [bind_eq_ok, textBoundary, extent, firstMarkerFact, keyedMarkerFact] at hok
  grind

/-- **A completed proof has found where its position stands.** -/
theorem standsAt_of_resolveIn (hroots : roots.Sound)
    (hproof : ProofFor roots.sequence position proof)
    (hok : resolveIn roots.sequence position proof = .ok (.complete boundary unit)) :
    StandsAt roots.leaves position boundary unit := by
  obtain ⟨sequence, i, o⟩ := roots
  cases sequence with
  | none =>
    obtain rfl | ⟨rank, rfl, hfirst⟩ := hproof
    · obtain ⟨rfl, ⟨⟩⟩ := resolveIn_none hok
      exact ⟨⟨by simp [leaves, workingLeaves], .inl ⟨rfl, rfl⟩⟩,
        .between (l := []) (r := []) rfl⟩
    · cases (resolveIn_none hfirst).2
  | some root =>
    obtain ⟨offset, gap⟩ := position
    obtain ⟨h, ref⟩ := root
    have hdoc := hroots.document h ref rfl
    refine ⟨?_, placedAt_of_resolve hdoc hok⟩
    have hoff : offset ≤ textLength (flatten h ref.tree) := by
      rw [← hdoc.wellFormed.summary.bytes]
      simp only [resolveIn, resolve, bind_eq_ok, ensure_eq_ok, exists_const] at hok
      exact hok.1.1
    rw [leaves, workingLeaves, ← resolveComponents_some hdoc hoff]
    obtain rfl | ⟨rank, rfl, hfirst⟩ := hproof
    · rw [resolveComponents]
      change resolve (some ref) _ .primary none = _ at hok
      rw [hok]
      rfl
    · rw [resolveComponents]
      change resolve (some ref) _ .primary none = _ at hfirst
      change resolve (some ref) _ .secondary (some rank) = _ at hok
      simp [hfirst, hok]

theorem Resolves.offset_le {leaves : Leaves}
    (h : Resolves leaves position boundary) : position.utf8Offset ≤ textLength leaves := by
  obtain ⟨offset, gap⟩ := position
  have hfront : ∀ {l r}, leaves = l ++ r → textLength l = offset → offset ≤ textLength leaves := by
    rintro l r rfl rfl
    simp only [textLength_append]
    omega
  cases gap with
  | unambiguous =>
    obtain ⟨-, ⟨rfl, -⟩ | ⟨l, t, r, rfl, -, hlt, -⟩⟩ := h
    · exact le_rfl
    · simp only [textLength_append, textLength_cons, DraftPieceLeafValue.bytes_text] at hlt ⊢
      omega
  | beforeAll | afterAll =>
    obtain ⟨l, m, r, hsplit, hl, -⟩ := h
    exact hfront hsplit hl
  | between =>
    obtain ⟨l, m, n, r, hsplit, hl, -⟩ := h
    exact hfront hsplit hl

/-- **Every position that stands somewhere is found**, in one component or two. -/
theorem exists_resolveIn (hroots : roots.Sound) (hpos : Resolves roots.leaves position boundary)
    (hproof : ProofFor roots.sequence position proof) :
    ∃ answer, resolveIn roots.sequence position proof = .ok answer := by
  obtain ⟨sequence, i, o⟩ := roots
  cases sequence with
  | none =>
    obtain ⟨offset, gap⟩ := position
    have hoff : offset = 0 := Nat.le_zero.mp hpos.offset_le
    subst hoff
    cases gap with
    | unambiguous =>
      have hfirst : resolveIn none ⟨0, .unambiguous⟩ primaryProof = .ok (.complete ⟨0, 0⟩ 0) := rfl
      obtain rfl | ⟨rank, rfl, hprimary⟩ := hproof
      · exact ⟨_, hfirst⟩
      · simp [hfirst] at hprimary
    | _ => simp [Resolves, leaves, workingLeaves] at hpos
  | some root =>
    obtain ⟨h, ref⟩ := root
    have hdoc := hroots.document h ref rfl
    have hcomp : resolveComponents (some ref) position = .ok boundary :=
      (resolveComponents_some hdoc hpos.offset_le position.gap).mpr hpos
    rw [resolveComponents, bind_eq_ok] at hcomp
    obtain ⟨answer, hfirst, hcomp⟩ := hcomp
    obtain rfl | ⟨rank, rfl, hprimary⟩ := hproof
    · exact ⟨answer, hfirst⟩
    · obtain rfl : answer = .primary rank := Except.ok.inj (hfirst.symm.trans hprimary)
      obtain ⟨second, hsecond, -⟩ := bind_eq_ok.mp hcomp
      exact ⟨second, hsecond⟩

theorem Resolves.unique {boundary' : Boundary} (hroots : roots.Sound)
    (h : Resolves roots.leaves position boundary) (h' : Resolves roots.leaves position boundary') :
    boundary = boundary' := by
  obtain ⟨sequence, i, o⟩ := roots
  cases sequence with
  | none =>
    obtain ⟨offset, gap⟩ := position
    cases gap with
    | unambiguous =>
      obtain ⟨-, ⟨-, rfl⟩ | ⟨l, t, r, hl, -⟩⟩ := h
      · obtain ⟨-, ⟨-, rfl⟩ | ⟨l, t, r, hl, -⟩⟩ := h'
        · rfl
        · simp [leaves, workingLeaves] at hl
      · simp [leaves, workingLeaves] at hl
    | _ => simp [Resolves, leaves, workingLeaves] at h
  | some root =>
    obtain ⟨k, ref⟩ := root
    have hdoc := hroots.document k ref rfl
    exact Except.ok.inj (((resolveComponents_some hdoc h.offset_le position.gap).mpr h).symm.trans
      ((resolveComponents_some hdoc h.offset_le position.gap).mpr h'))

/-! ## Where a document may be cut -/

variable {leaves : Leaves} {b : Boundary} {u : ℕ}

/-- **A document may be cut** in front of a marker, of a character, and at the end. -/
def CutPoint (document : List DraftUnit) (u : ℕ) : Prop :=
  u ≤ document.length ∧ ∀ byte, document[u]? = some (.byte byte) → startsChar byte = true

theorem PlacedAt.cons (h : PlacedAt leaves b u) (x : DraftPieceLeafValue) :
    PlacedAt (x :: leaves) ⟨b.rank + 1, b.inner⟩ (x.units.length + u) := by
  cases h with
  | @between l r hsplit =>
    have hcons : x :: leaves = (x :: l) ++ r := by rw [hsplit]; rfl
    simpa using PlacedAt.between hcons
  | @inside l r t i hsplit h0 hlt hchar =>
    have hcons : x :: leaves = (x :: l) ++ .text t :: r := by rw [hsplit]; rfl
    simpa [add_assoc] using PlacedAt.inside hcons h0 hlt hchar

/-- **However the text is split into leaves, every point to cut at is a boundary.** -/
theorem exists_placedAt : ∀ {leaves} {u}, CutPoint (unitsOf leaves) u → ∃ b, PlacedAt leaves b u
  | [], u, h => by
    obtain rfl : u = 0 := by simpa using h.1
    exact ⟨_, .between (l := []) rfl⟩
  | x :: xs, u, h => by
    obtain ⟨hle, hcut⟩ := h
    rw [unitsOf_cons] at hle hcut
    rcases lt_or_ge u x.units.length with hin | hout
    · rcases Nat.eq_zero_or_pos u with rfl | hpos
      · exact ⟨_, .between (l := []) rfl⟩
      · cases x with
        | marker m =>
          simp only [units_marker, length_singleton] at hin
          omega
        | text t =>
          rw [units_text, length_map] at hin
          have hchar : isCharBoundary t u = true := by
            refine isCharBoundary_iff.mpr (.inr (.inr ⟨t[u], getElem?_eq_getElem hin, hcut _ ?_⟩))
            rw [units_text, getElem?_append_left (by simpa using hin), getElem?_map,
              getElem?_eq_getElem hin]
            rfl
          exact ⟨_, by simpa using PlacedAt.inside (l := []) (r := xs) rfl hpos hin hchar⟩
    · obtain ⟨b, hb⟩ := @exists_placedAt xs (u - x.units.length)
        ⟨by rw [length_append] at hle; omega, fun byte hbyte => hcut byte (by
          rwa [getElem?_append_right hout])⟩
      exact ⟨_, by simpa [Nat.add_sub_cancel' hout] using hb.cons x⟩

theorem PlacedAt.cutPoint (hchars : ∀ t, DraftPieceLeafValue.text t ∈ leaves → ValidUtf8 t)
    (h : PlacedAt leaves b u) (hocc : ∀ x ∈ leaves, x.Occupied) : CutPoint (unitsOf leaves) u := by
  refine ⟨h.le_length, fun byte hbyte => ?_⟩
  cases h with
  | @between l r hsplit =>
    rw [hsplit, unitsOf_append, getElem?_append_right le_rfl, Nat.sub_self] at hbyte
    cases r with
    | nil => simp at hbyte
    | cons x xs =>
      cases x with
      | marker m => simp at hbyte
      | text t =>
        have ht : t ≠ [] := hocc (.text t) (by rw [hsplit]; simp)
        obtain ⟨c, cs, rfl⟩ := exists_cons_of_ne_nil ht
        have hc : c = byte := by simpa using hbyte
        exact (hchars (c :: cs) (by rw [hsplit]; simp)).head byte (by simp [hc])
  | @inside l r t i hsplit h0 hlt hchar =>
    rw [hsplit, unitsOf_append, getElem?_append_right (by omega), Nat.add_sub_cancel_left,
      unitsOf_cons, units_text, getElem?_append_left (by simpa using hlt), getElem?_map] at hbyte
    rcases isCharBoundary_iff.mp hchar with h | h | ⟨c, hc, hstart⟩
    · omega
    · omega
    · rw [hc] at hbyte
      obtain rfl : c = byte := by simpa using hbyte
      exact hstart

/-! ## Markers between two boundaries -/

/-- A marker of the document is a leaf. -/
theorem exists_split_of_marker {m : DraftPieceMarker} : ∀ {leaves} {i},
    (unitsOf leaves)[i]? = some (.marker m) →
    ∃ l r, leaves = l ++ .marker m :: r ∧ (unitsOf l).length = i
  | [], i, h => by simp at h
  | x :: xs, i, h => by
    rw [unitsOf_cons] at h
    rcases lt_or_ge i x.units.length with hin | hout
    · rw [getElem?_append_left hin] at h
      cases x with
      | text t =>
        rw [units_text, getElem?_map, Option.map_eq_some_iff] at h
        obtain ⟨byte, -, hbyte⟩ := h
        cases hbyte
      | marker n =>
        obtain rfl : i = 0 := by simpa using hin
        obtain rfl : n = m := by simpa using h
        exact ⟨[], xs, rfl, rfl⟩
    · rw [getElem?_append_right hout] at h
      obtain ⟨l, r, rfl, hl⟩ := exists_split_of_marker h
      exact ⟨x :: l, r, rfl, by simp only [unitsOf_cons, length_append, hl]; omega⟩

theorem markerTotal_take_mono {m n : ℕ} (h : m ≤ n) :
    markerTotal (leaves.take m) ≤ markerTotal (leaves.take n) := by
  rw [← take_append_drop m (leaves.take n), markerTotal_append, take_take, Nat.min_eq_left h]
  omega

/-- **With as many markers in front of both ends, a range holds text only.** -/
theorem text_between {b' : Boundary} {u' : ℕ} (hocc : ∀ x ∈ leaves, x.Occupied)
    (h : PlacedAt leaves b u) (h' : PlacedAt leaves b' u')
    (hmks : markerTotal (leaves.take b'.rank) = markerTotal (leaves.take b.rank)) {i : ℕ}
    (hi : u ≤ i) (hi' : i < u') : ∃ byte, (unitsOf leaves)[i]? = some (.byte byte) := by
  have hlt : i < (unitsOf leaves).length := hi'.trans_le h'.le_length
  rw [getElem?_eq_getElem hlt]
  cases hunit : (unitsOf leaves)[i] with
  | byte byte => exact ⟨byte, rfl⟩
  | marker m =>
    exfalso
    obtain ⟨l, r, rfl, rfl⟩ := exists_split_of_marker (List.getElem?_eq_some_iff.mpr ⟨hlt, hunit⟩)
    have hm : PlacedAt (l ++ .marker m :: r) ⟨l.length, 0⟩ (unitsOf l).length := .between rfl
    have hle : b.rank ≤ l.length := by
      by_contra hcon
      have : (⟨l.length, 0⟩ : Boundary) < b := Boundary.lt_iff.mpr (.inl (by simp only; omega))
      have := (hm.lt_iff hocc h).mp this
      omega
    have hlt' : l.length < b'.rank := by
      have hlt := (hm.lt_iff hocc h').mpr hi'
      rcases Boundary.lt_iff.mp hlt with hlt | ⟨heq, h0⟩
      · exact hlt
      · obtain ⟨rank, inner⟩ := b'
        obtain rfl : l.length = rank := heq
        generalize hb : (⟨l.length, inner⟩ : Boundary) = b' at h'
        cases h' with
        | between => simp only [Boundary.mk.injEq] at hb h0; omega
        | @inside l' r' t j hsplit =>
          obtain ⟨hlen, -⟩ := Boundary.mk.inj hb
          have := append_inj_right hsplit hlen
          simp at this
    have h1 := @markerTotal_take_mono (l ++ .marker m :: r) _ _ hle
    have h2 := @markerTotal_take_mono (l ++ .marker m :: r) (l.length + 1) _ hlt'
    have h3 : markerTotal ((l ++ .marker m :: r).take l.length) = markerTotal l := by simp
    have h4 : markerTotal ((l ++ .marker m :: r).take (l.length + 1)) = markerTotal l + 1 := by
      rw [append_cons, take_left' (by simp)]
      simp
    omega

end Beryl.Draft
