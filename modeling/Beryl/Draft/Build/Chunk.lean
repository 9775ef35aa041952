import Beryl.Draft.Read.Position

/-!
# Draft/Build/Chunk — what a fragment inserts, a leaf at a time

A fragment replaces a range of the predecessor by pieces of text.  The pieces go in chunk by chunk,
a chunk being what fits into one leaf, cut back to the end of a character: **a chunk of a valid text
is never empty** (`insertionChunk_eq_ok`), and there is one at every character
(`exists_insertionChunk`).
-/

namespace Beryl.Draft

open Fallible List
open Utf8 (ValidUtf8 length_utf8)

/-! ## Fragments -/

/-- A text: bytes that spell characters. -/
structure Utf8Text where
  bytes : Utf8
  valid : ValidUtf8 bytes

/-- `DraftPieceV1`: what a fragment may insert. -/
inductive DraftPiece
  | text (text : Utf8Text)
  | marker (marker : DraftPieceMarker)

/-- The bytes of a piece. -/
def DraftPiece.bytes : DraftPiece → Utf8
  | text t => t.bytes
  | marker _ => []

/-- The piece is a text. -/
def DraftPiece.isText : DraftPiece → Bool
  | text _ => true
  | marker _ => false

/-- `DraftPieceReplacementV1`, of a fragment without marker effect. -/
structure DraftPieceReplacement where
  start : DraftCompositePosition
  stop : DraftCompositePosition
  inserted : List DraftPiece
  isContinuation : Bool

/-- `DRAFT_PIECE_TEXT_LEAF_MAX_BYTES`. -/
abbrev draftPieceTextLeafMaxBytes : ℕ := 32768

/-- All bytes a fragment inserts. -/
def DraftPieceReplacement.payload (replacement : DraftPieceReplacement) : Utf8 :=
  replacement.inserted.flatMap DraftPiece.bytes

/-- `validate_fragment`, of a fragment without marker effect. -/
def validateFragment (replacement : DraftPieceReplacement) :
    Except DraftPieceRejectedReason Unit := do
  ensure (replacement.inserted.length ≤ draftPiecePageMaxRecords)
    DraftPieceRejectedReason.tooManyReplacements
  ensure (∀ piece ∈ replacement.inserted, piece.isText = true) .duplicateMarkerIdentity
  ensure (∀ piece ∈ replacement.inserted, piece.bytes ≠ []) .emptyTextLeaf
  ensure (replacement.payload.length ≤ draftPiecePageMaxBytes) .insertedPayloadTooLarge

theorem validateFragment_eq_ok {replacement : DraftPieceReplacement} {u : Unit} :
    validateFragment replacement = .ok u ↔ replacement.inserted.length ≤ draftPiecePageMaxRecords
      ∧ (∀ piece ∈ replacement.inserted, piece.isText = true ∧ piece.bytes ≠ [])
      ∧ replacement.payload.length ≤ draftPiecePageMaxBytes := by
  simp only [validateFragment, bind_eq_ok, ensure_eq_ok, exists_const]
  constructor
  · rintro ⟨h1, h2, h3, h4⟩
    exact ⟨h1, fun p hp => ⟨h2 p hp, h3 p hp⟩, h4⟩
  · rintro ⟨h1, h2, h4⟩
    exact ⟨h1, fun p hp => (h2 p hp).1, fun p hp => (h2 p hp).2, h4⟩

/-! ## Chunks -/

/-- `insertion_chunk`: the end of the chunk in its piece, and the chunk. -/
def insertionChunk (replacement : DraftPieceReplacement) (piece byte : ℕ) :
    Prepared (ℕ × Utf8) := do
  match ← required .invalidRoot replacement.inserted[piece]? with
  | .marker _ => .error .invalidRoot
  | .text text =>
    ensure (byte < text.bytes.length ∧ isCharBoundary text.bytes byte = true) .invalidRoot
    let stop := floorCharBoundary text.bytes
      (min (byte + draftPieceTextLeafMaxBytes) text.bytes.length)
    return (stop, (text.bytes.drop byte).take (stop - byte))

section

variable {replacement : DraftPieceReplacement} {piece byte : ℕ}

/-- **A chunk** is a part of its piece that is not empty and ends with a character. -/
theorem insertionChunk_eq_ok {result : ℕ × Utf8}
    (hok : insertionChunk replacement piece byte = .ok result) :
    ∃ text, replacement.inserted[piece]? = some (.text text) ∧ byte < result.1
      ∧ result.1 ≤ text.bytes.length ∧ isCharBoundary text.bytes result.1 = true
      ∧ result.2 = (text.bytes.drop byte).take (result.1 - byte) := by
  simp only [insertionChunk, bind_eq_ok, required_eq_ok] at hok
  obtain ⟨value, hvalue, hok⟩ := hok
  cases value with
  | marker m => simp at hok
  | text text =>
    simp only [bind_eq_ok, ensure_eq_ok, pure_eq_ok_iff, exists_const] at hok
    obtain ⟨⟨hlt, -⟩, rfl⟩ := hok
    refine ⟨text, hvalue, ?_, ?_, isCharBoundary_floor _ _, rfl⟩
    · obtain ⟨bytes, chars, rfl⟩ := text
      have hmax : draftPieceTextLeafMaxBytes = 32768 := rfl
      simp only [floorCharBoundary_utf8, length_utf8] at hlt ⊢
      have hthree := Text.le_utf8Len_takeBytes (min_le_right (byte + 32768) (String.utf8Len chars))
      rcases le_total (byte + 32768) (String.utf8Len chars) with hle | hle
      · rw [min_eq_left hle] at hthree ⊢
        omega
      · rw [min_eq_right hle, Text.takeBytes_of_le le_rfl]
        exact hlt
    · exact (floorCharBoundary_le _ _).trans (min_le_right _ _)

theorem exists_insertionChunk {text : Utf8Text}
    (hpiece : replacement.inserted[piece]? = some (.text text)) (hlt : byte < text.bytes.length)
    (hchar : isCharBoundary text.bytes byte = true) :
    ∃ result, insertionChunk replacement piece byte = .ok result := by
  simp only [insertionChunk, hpiece, required_some, ok_bind, ensure_true (And.intro hlt hchar),
    pure_eq_ok_iff, exists_eq']

end

end Beryl.Draft
