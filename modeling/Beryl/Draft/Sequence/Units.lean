import Beryl.Draft.Sequence.Tree
import Beryl.Machinery.Search
import Beryl.Machinery.Utf8
import Mathlib.Data.List.Chain

/-!
# Draft/Sequence/Units — a document as a list of units

A document is a list of units: the bytes of its text, and its markers at their places.  How the text
is cut into leaves is not part of it, so an edit of a tree is judged by what it does to the units
(`unitsOf`).

Markers that touch must rise in order key (`Ordered`).  Every well-formed tree keeps this rule,
since each node checks the joints between its children.
-/

namespace Beryl.Draft

open Search DraftPieceLeafValue List
open Utf8 (utf8 startsChar length_utf8 startsChar_getElem?_utf8)

/-! ## Units -/

/-- One unit of a document: a byte of text, or a marker. -/
inductive DraftUnit
  | byte (value : UInt8)
  | marker (marker : DraftPieceMarker)
  deriving DecidableEq

/-- The units of a leaf. -/
def DraftPieceLeafValue.units : DraftPieceLeafValue → List DraftUnit
  | text t => t.map .byte
  | marker m => [.marker m]

@[simp] theorem units_text (t : Utf8) : (text t).units = t.map .byte := rfl
@[simp] theorem units_marker (m : DraftPieceMarker) : (marker m).units = [.marker m] := rfl

/-- **The document a run of leaves spells.** -/
def unitsOf (leaves : Leaves) : List DraftUnit := leaves.flatMap (·.units)

@[simp] theorem unitsOf_nil : unitsOf [] = [] := rfl
variable (x : DraftPieceLeafValue) {boundary : Boundary} {leaves : Leaves}

@[simp] theorem unitsOf_cons (xs : Leaves) :
    unitsOf (x :: xs) = x.units ++ unitsOf xs := flatMap_cons
@[simp] theorem unitsOf_append (xs ys : Leaves) :
    unitsOf (xs ++ ys) = unitsOf xs ++ unitsOf ys := flatMap_append

theorem length_units : x.units.length = x.bytes.length + x.markers := by
  cases x <;> simp

theorem length_unitsOf (leaves : Leaves) :
    (unitsOf leaves).length = textLength leaves + markerTotal leaves := by
  induction leaves with
  | nil => rfl
  | cons x xs ih =>
    simp only [unitsOf_cons, length_append, length_units, ih, textLength_cons, markerTotal_cons]
    omega

theorem DraftPieceLeafValue.Occupied.units_pos {x : DraftPieceLeafValue} (h : x.Occupied) :
    0 < x.units.length := by
  cases x with
  | text t => simpa [length_pos_iff] using h
  | marker m => simp

/-- Every leaf takes up at least one unit. -/
theorem length_le_unitsOf (h : ∀ x ∈ leaves, x.Occupied) :
    leaves.length ≤ (unitsOf leaves).length := by
  induction leaves with
  | nil => simp
  | cons x xs ih =>
    have h1 := (h x (by simp)).units_pos
    have h2 := ih fun y hy => h y (by simp [hy])
    simp only [unitsOf_cons, length_append, length_cons]
    omega

/-! ## Order -/

/-- Two markers that touch rise in order key. -/
def KeysRise : DraftUnit → DraftUnit → Prop
  | .marker m, .marker n => m.orderKey < n.orderKey
  | _, _ => True

instance : DecidableRel KeysRise
  | .marker m, .marker n => inferInstanceAs (Decidable (m.orderKey < n.orderKey))
  | .byte _, _ => .isTrue trivial
  | .marker _, .byte _ => .isTrue trivial

/-- **Markers that touch stand in order of their keys.** -/
def Ordered (document : List DraftUnit) : Prop := document.IsChain KeysRise

instance (document : List DraftUnit) : Decidable (Ordered document) :=
  inferInstanceAs (Decidable (document.IsChain KeysRise))

@[simp] theorem keysRise_byte_left (b : UInt8) (u : DraftUnit) : KeysRise (.byte b) u := trivial
@[simp] theorem keysRise_byte_right (u : DraftUnit) (b : UInt8) : KeysRise u (.byte b) := by
  cases u <;> trivial
@[simp] theorem keysRise_marker {m n : DraftPieceMarker} :
    KeysRise (.marker m) (.marker n) ↔ m.orderKey < n.orderKey := .rfl

theorem Ordered.left {a b : List DraftUnit} (h : Ordered (a ++ b)) : Ordered a :=
  List.IsChain.left_of_append h

theorem Ordered.right {a b : List DraftUnit} (h : Ordered (a ++ b)) : Ordered b :=
  List.IsChain.right_of_append h

theorem ordered_bytes (t : Utf8) : Ordered (t.map .byte) := by
  induction t with
  | nil => exact .nil
  | cons b t ih => exact ih.cons fun y _ => keysRise_byte_left b y

theorem ordered_units : Ordered x.units := by
  cases x with
  | text t => exact ordered_bytes t
  | marker m => exact .singleton _

/-- Two leaves may touch: two markers only in order of their keys. -/
def LeavesJoin : DraftPieceLeafValue → DraftPieceLeafValue → Prop
  | .marker m, .marker n => m.orderKey < n.orderKey
  | _, _ => True

@[simp] theorem leavesJoin_text_left (t : Utf8) (y : DraftPieceLeafValue) :
    LeavesJoin (.text t) y := trivial
@[simp] theorem leavesJoin_text_right (t : Utf8) : LeavesJoin x (.text t) := by cases x <;> trivial
@[simp] theorem leavesJoin_marker {m n : DraftPieceMarker} :
    LeavesJoin (.marker m) (.marker n) ↔ m.orderKey < n.orderKey := .rfl

theorem leavesJoin_iff {x y : DraftPieceLeafValue} (hx : x.Occupied) (hy : y.Occupied) :
    LeavesJoin x y ↔ ∀ u ∈ x.units.getLast?, ∀ v ∈ y.units.head?, KeysRise u v := by
  cases x with
  | text t =>
    obtain ⟨ts, b, rfl⟩ := t.eq_nil_or_concat.resolve_left hx
    simp
  | marker m =>
    cases y with
    | text t => cases t <;> simp
    | marker n => simp

/-- Two runs of leaves may be put side by side. -/
def Joins (xs ys : Leaves) : Prop :=
  ∀ x ∈ xs.getLast?, ∀ y ∈ ys.head?, LeavesJoin x y

/-- **Two runs of leaves, joined.** -/
theorem ordered_unitsOf_append {xs ys : Leaves} (hx : ∀ x ∈ xs, x.Occupied)
    (hy : ∀ y ∈ ys, y.Occupied) :
    Ordered (unitsOf (xs ++ ys)) ↔ Ordered (unitsOf xs) ∧ Ordered (unitsOf ys) ∧ Joins xs ys := by
  rw [Ordered, unitsOf_append, isChain_append]
  refine and_congr Iff.rfl (and_congr Iff.rfl ?_)
  rcases xs.eq_nil_or_concat with rfl | ⟨xs, x, rfl⟩
  · simp [Joins]
  cases ys with
  | nil => simp [Joins]
  | cons y ys =>
    have hx' : x.Occupied := hx x (by simp)
    have hy' : y.Occupied := hy y (by simp)
    rw [concat_eq_append, unitsOf_append, unitsOf_cons, unitsOf_nil, append_nil,
      getLast?_append_of_ne_nil _ (length_pos_iff.mp hx'.units_pos), unitsOf_cons,
      head?_append_of_ne_nil _ (length_pos_iff.mp hy'.units_pos), ← leavesJoin_iff hx' hy']
    simp [Joins]

/-! ## Boundaries -/

/-- `Boundary`: a cut in front of a leaf, or `inner` bytes into a text leaf. -/
structure Boundary where
  rank : ℕ
  inner : ℕ
  deriving DecidableEq

/-- `str::is_char_boundary`: an end of the text, or a byte that continues no character. -/
def isCharBoundary (text : Utf8) (index : ℕ) : Bool :=
  match text[index]? with
  | none => index = text.length
  | some byte => index = 0 ∨ byte < 128 ∨ 192 ≤ byte

@[simp] theorem isCharBoundary_zero (text : Utf8) : isCharBoundary text 0 = true := by
  cases text <;> simp [isCharBoundary]

theorem isCharBoundary_iff {text : Utf8} {i : ℕ} : isCharBoundary text i = true
    ↔ i = 0 ∨ i = text.length ∨ ∃ byte, text[i]? = some byte ∧ startsChar byte = true := by
  simp only [isCharBoundary, startsChar, Bool.or_eq_true, decide_eq_true_eq]
  cases hget : text[i]? with
  | none =>
    have := List.getElem?_eq_none_iff.mp hget
    simp only [decide_eq_true_eq, reduceCtorEq, false_and, exists_false, or_false]
    constructor
    · exact .inr
    · rintro (rfl | h)
      · omega
      · exact h
  | some byte =>
    have hlt : i < text.length := (List.getElem?_eq_some_iff.mp hget).1
    simp [hlt.ne]

/-- **The boundaries of the bytes of a text are those of the text.** -/
theorem isCharBoundary_utf8 (s : List Char) (n : ℕ) :
    isCharBoundary (utf8 s) n = Text.isCharBoundary s n := by
  rw [Bool.eq_iff_iff, isCharBoundary_iff]
  cases hbyte : (utf8 s)[n]? with
  | none =>
    have hle := List.getElem?_eq_none_iff.mp hbyte
    rw [length_utf8] at hle
    simp only [reduceCtorEq, false_and, exists_false, or_false, length_utf8]
    rw [Text.isCharBoundary_iff, Text.takeBytes_of_le hle]
    omega
  | some byte =>
    have hlt : n < (utf8 s).length := (List.getElem?_eq_some_iff.mp hbyte).1
    have hstart := startsChar_getElem?_utf8 hbyte
    simp only [Option.some.injEq, exists_eq_left', hstart, hlt.ne, false_or]
    refine ⟨?_, .inr⟩
    rintro (rfl | h)
    · exact Text.isCharBoundary_zero s
    · exact h

/-- `while !text.is_char_boundary(end) { end -= 1 }`. -/
def floorCharBoundary (text : Utf8) : ℕ → ℕ
  | 0 => 0
  | stop + 1 => if isCharBoundary text (stop + 1) then stop + 1 else floorCharBoundary text stop

theorem floorCharBoundary_le (text : Utf8) : ∀ stop, floorCharBoundary text stop ≤ stop
  | 0 => le_refl 0
  | stop + 1 => by
    rw [floorCharBoundary]
    split
    · exact le_refl _
    · exact (floorCharBoundary_le text stop).trans (Nat.le_succ stop)

theorem isCharBoundary_floor (text : Utf8) : ∀ stop,
    isCharBoundary text (floorCharBoundary text stop) = true
  | 0 => isCharBoundary_zero text
  | stop + 1 => by
    rw [floorCharBoundary]
    split
    · assumption
    · exact isCharBoundary_floor text stop

/-- The loop keeps the whole characters. -/
theorem floorCharBoundary_utf8 (s : List Char) (n : ℕ) :
    floorCharBoundary (utf8 s) n = String.utf8Len (Text.takeBytes n s) := by
  rw [← Text.boundaryBefore_eq]
  induction n with
  | zero => rfl
  | succ n ih => rw [floorCharBoundary, Text.boundaryBefore, ih, isCharBoundary_utf8]

/-- **A boundary cuts a run of leaves in two**: between two leaves, or between two characters of a
text leaf. -/
def CutsAt (leaves : Leaves) (boundary : Boundary) (left right : Leaves) : Prop :=
  (boundary.inner = 0 ∧ leaves = left ++ right ∧ left.length = boundary.rank)
    ∨ ∃ l t r, leaves = l ++ .text t :: r ∧ l.length = boundary.rank
      ∧ 0 < boundary.inner ∧ boundary.inner < t.length ∧ isCharBoundary t boundary.inner = true
      ∧ left = l ++ [.text (t.take boundary.inner)] ∧ right = .text (t.drop boundary.inner) :: r

theorem CutsAt.units {left right : Leaves}
    (h : CutsAt leaves boundary left right) : unitsOf leaves = unitsOf left ++ unitsOf right := by
  rcases h with ⟨-, rfl, -⟩ | ⟨l, t, r, rfl, -, -, -, -, rfl, rfl⟩
  · simp
  · simp only [unitsOf_append, unitsOf_cons, units_text, unitsOf_nil, append_nil, append_assoc]
    rw [← append_assoc (List.map _ _), ← map_append, take_append_drop]

theorem CutsAt.occupied {left right : Leaves}
    (h : CutsAt leaves boundary left right) (hocc : ∀ x ∈ leaves, x.Occupied) :
    (∀ x ∈ left, x.Occupied) ∧ ∀ x ∈ right, x.Occupied := by
  rcases h with ⟨-, rfl, -⟩ | ⟨l, t, r, rfl, -, h0, hlt, -, rfl, rfl⟩
  · exact forall_mem_append.mp hocc
  · have htake : t.take boundary.inner ≠ [] := by rw [← length_pos_iff, length_take]; omega
    have hdrop : t.drop boundary.inner ≠ [] := by rw [← length_pos_iff, length_drop]; omega
    rw [forall_mem_append, forall_mem_cons] at hocc
    exact ⟨forall_mem_append.mpr ⟨hocc.1, forall_mem_singleton.mpr htake⟩,
      forall_mem_cons.mpr ⟨hdrop, hocc.2.2⟩⟩

/-- A cut inside a part of a run is a cut of the run. -/
theorem CutsAt.within {before mid after left right : Leaves}
    (h : CutsAt (before ++ (mid ++ after)) boundary left right)
    (hlow : before.length ≤ boundary.rank) (hhigh : boundary.rank < before.length + mid.length
      ∨ boundary.inner = 0 ∧ boundary.rank = before.length + mid.length) :
    ∃ l r, CutsAt mid ⟨boundary.rank - before.length, boundary.inner⟩ l r
      ∧ left = before ++ l ∧ right = r ++ after := by
  rcases h with ⟨h0, hsplit, hlen⟩ | ⟨l, t, r, hsplit, hlen, h0, hlt, hchar, rfl, rfl⟩
  · obtain ⟨l, rfl, hmid⟩ := append_split hsplit (by omega)
    rw [length_append] at hlen
    obtain ⟨r, rfl, rfl⟩ := append_split hmid.symm (by omega)
    exact ⟨l, r, .inl ⟨h0, rfl, by simp only; omega⟩, rfl, rfl⟩
  · obtain ⟨l', rfl, hmid⟩ := append_split hsplit (by omega)
    rw [length_append] at hlen
    obtain ⟨r', rfl, hr⟩ := append_split hmid.symm (by omega)
    cases r' with
    | nil => simp only [append_nil] at hhigh; omega
    | cons y r' =>
      cases hr
      exact ⟨l' ++ [.text (t.take boundary.inner)], .text (t.drop boundary.inner) :: r',
        .inr ⟨l', t, r', rfl, by simp only; omega, h0, hlt, hchar, rfl, rfl⟩, by simp, by simp⟩

end Beryl.Draft
