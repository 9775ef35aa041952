import Beryl.Machinery.Fallible
import Mathlib.Data.Prod.Lex

/-!
# Draft/Sequence/Key — composite search keys and the checked arithmetic under them

A place in a draft is a text offset together with a side of the image markers anchored there:
before all of them, at one of them, or after all of them.  `DraftCompositeSearchKey` names such a
place, ordered by anchor first, and every aggregate below is a `u64` whose additions are checked.
-/

namespace Beryl.Draft

open Fallible

/-! ## Errors and checked sums -/

/-- Why an edit or a read of a draft tree is rejected. -/
inductive DraftPieceRejectedReason
  | emptyTransaction | tooManyReplacements | insertedPayloadTooLarge | emptyTextLeaf
  | invalidUtf8Boundary | invalidGapWitness | outOfOrder | overlap | duplicateEmptyRange
  | duplicateMarkerIdentity | duplicateMarkerOrder | aggregateOverflow | treeLimit
  deriving DecidableEq

/-- A failed preparation.  Storage failures and absent records are outside the model: a link here
always leads to the record it was computed from. -/
inductive DraftPiecePrepareError
  | rejected (reason : DraftPieceRejectedReason)
  | invalidRoot
  deriving DecidableEq

/-- The result of a step over a draft tree. -/
abbrev Prepared (α : Type) := Except DraftPiecePrepareError α

/-! The rejections the read paths report. -/

/-- A sum that does not fit in a `u64`. -/
abbrev aggregateOverflow : DraftPiecePrepareError := .rejected .aggregateOverflow

/-- A position, a scope or a cursor that does not fit the markers of the document. -/
abbrev invalidGapWitness : DraftPiecePrepareError := .rejected .invalidGapWitness

/-- An offset past the end or inside a character. -/
abbrev invalidUtf8Boundary : DraftPiecePrepareError := .rejected .invalidUtf8Boundary

/-- A page or a tree that exceeds its limit. -/
abbrev treeLimit : DraftPiecePrepareError := .rejected .treeLimit

/-! ## Search keys -/

/-- A side of the markers anchored at a text offset. -/
inductive DraftCompositeSearchKey
  | beforeMarkers (anchor : ℕ)
  | marker (anchor orderKey markerId : ℕ)
  | afterMarkers (anchor : ℕ)
  deriving DecidableEq

namespace DraftCompositeSearchKey

variable {a b o i : ℕ}

/-- The text offset a key stands at. -/
def anchor : DraftCompositeSearchKey → ℕ
  | beforeMarkers a => a
  | marker a _ _ => a
  | afterMarkers a => a

/-- The tuple `Ord::cmp` compares: anchors first, then the side of the markers, then order key and
marker identity. -/
def sortKey : DraftCompositeSearchKey → ℕ ×ₗ ℕ ×ₗ ℕ ×ₗ ℕ
  | beforeMarkers a => toLex (a, toLex (0, toLex (0, 0)))
  | marker a o i => toLex (a, toLex (1, toLex (o, i)))
  | afterMarkers a => toLex (a, toLex (2, toLex (0, 0)))

theorem sortKey_injective : Function.Injective sortKey := by
  intro a b h
  cases a <;> cases b <;> simp_all [sortKey]

instance : LinearOrder DraftCompositeSearchKey := LinearOrder.lift' sortKey sortKey_injective

theorem le_iff_sortKey {a b : DraftCompositeSearchKey} : a ≤ b ↔ sortKey a ≤ sortKey b := .rfl

/-- A key moved by the text in front of its subtree. -/
def shift : DraftCompositeSearchKey → ℕ → DraftCompositeSearchKey
  | beforeMarkers a, n => beforeMarkers (a + n)
  | marker a o i, n => marker (a + n) o i
  | afterMarkers a, n => afterMarkers (a + n)

@[simp] theorem anchor_beforeMarkers (a : ℕ) : (beforeMarkers a).anchor = a := rfl
@[simp] theorem anchor_marker (a o i : ℕ) : (marker a o i).anchor = a := rfl
@[simp] theorem anchor_afterMarkers (a : ℕ) : (afterMarkers a).anchor = a := rfl

@[simp] theorem shift_marker (a o i n : ℕ) : (marker a o i).shift n = marker (a + n) o i := rfl

/-! The order, one lemma per pair of sides — what every search proof rewrites with. -/

@[simp] theorem beforeMarkers_le_marker : beforeMarkers a ≤ marker b o i ↔ a ≤ b := by
  simp [le_iff_sortKey, sortKey, Prod.Lex.toLex_le_toLex]; omega

@[simp] theorem beforeMarkers_le_afterMarkers : beforeMarkers a ≤ afterMarkers b ↔ a ≤ b := by
  simp [le_iff_sortKey, sortKey, Prod.Lex.toLex_le_toLex]; omega

@[simp] theorem marker_le_beforeMarkers : marker a o i ≤ beforeMarkers b ↔ a < b := by
  simp [le_iff_sortKey, sortKey, Prod.Lex.toLex_le_toLex]

@[simp] theorem marker_le_marker {o' i' : ℕ} :
    marker a o i ≤ marker b o' i' ↔ a < b ∨ a = b ∧ (o < o' ∨ o = o' ∧ i ≤ i') := by
  simp [le_iff_sortKey, sortKey, Prod.Lex.toLex_le_toLex]

@[simp] theorem marker_le_afterMarkers : marker a o i ≤ afterMarkers b ↔ a ≤ b := by
  simp [le_iff_sortKey, sortKey, Prod.Lex.toLex_le_toLex]; omega

@[simp] theorem afterMarkers_le_beforeMarkers : afterMarkers a ≤ beforeMarkers b ↔ a < b := by
  simp [le_iff_sortKey, sortKey, Prod.Lex.toLex_le_toLex]

@[simp] theorem afterMarkers_le_marker : afterMarkers a ≤ marker b o i ↔ a < b := by
  simp [le_iff_sortKey, sortKey, Prod.Lex.toLex_le_toLex]

@[simp] theorem afterMarkers_le_afterMarkers : afterMarkers a ≤ afterMarkers b ↔ a ≤ b := by
  simp [le_iff_sortKey, sortKey, Prod.Lex.toLex_le_toLex]; omega

@[simp] theorem beforeMarkers_lt_marker :
    beforeMarkers a < marker b o i ↔ a ≤ b := by rw [← not_le, marker_le_beforeMarkers, not_lt]

@[simp] theorem beforeMarkers_lt_afterMarkers : beforeMarkers a < afterMarkers b ↔ a ≤ b := by
  rw [← not_le, afterMarkers_le_beforeMarkers, not_lt]

@[simp] theorem afterMarkers_lt_marker :
    afterMarkers a < marker b o i ↔ a < b := by rw [← not_le, marker_le_afterMarkers, not_le]

@[simp] theorem afterMarkers_lt_afterMarkers : afterMarkers a < afterMarkers b ↔ a < b := by
  rw [← not_le, afterMarkers_le_afterMarkers, not_le]

end DraftCompositeSearchKey

/-- `checked_offset_key`: a child's relative key in the coordinates of its parent. -/
def checkedOffsetKey (key : DraftCompositeSearchKey) (offset : ℕ) :
    Except DraftPieceRejectedReason DraftCompositeSearchKey :=
  match key with
  | .beforeMarkers a => (checkedAdd .aggregateOverflow a offset).map .beforeMarkers
  | .marker a o i => (checkedAdd .aggregateOverflow a offset).map (.marker · o i)
  | .afterMarkers a => (checkedAdd .aggregateOverflow a offset).map .afterMarkers

variable {offset : ℕ}

theorem checkedOffsetKey_of_lt {key : DraftCompositeSearchKey}
    (h : key.anchor + offset < u64Size) : checkedOffsetKey key offset = .ok (key.shift offset) := by
  cases key <;>
    simp only [DraftCompositeSearchKey.anchor_beforeMarkers, DraftCompositeSearchKey.anchor_marker,
      DraftCompositeSearchKey.anchor_afterMarkers] at h <;>
    simp only [checkedOffsetKey, checkedAdd_of_lt h] <;> rfl

theorem checkedOffsetKey_eq_ok {key k : DraftCompositeSearchKey}
    (h : checkedOffsetKey key offset = .ok k) :
    k = key.shift offset ∧ key.anchor + offset < u64Size := by
  by_cases hlt : key.anchor + offset < u64Size
  · rw [checkedOffsetKey_of_lt hlt] at h
    exact ⟨(Except.ok.inj h).symm, hlt⟩
  · exfalso
    cases key <;>
      simp only [DraftCompositeSearchKey.anchor_beforeMarkers,
        DraftCompositeSearchKey.anchor_marker, DraftCompositeSearchKey.anchor_afterMarkers]
          at hlt <;>
      simp [checkedOffsetKey, checkedAdd, hlt, Except.map] at h

end Beryl.Draft
