import Beryl.Draft.Read.MarkerCursor
import Beryl.Draft.Read.RankCursor

/-!
# Draft/Read/CursorRuns — whole runs of a cursor

A cursor is made once and then moved by any sequence of calls.  `Tracks` is what is expected of such
a run: before and after every call the cursor's own rank and anchor are those of the leaf it rests
on, and each call moves to the neighbouring leaf that passes its test, or answers `false` because
there is none.

**The cursors of `markerCursor` and `lastMatchingCursor` keep track in every run; those of
`pieceCursor` and `textCursor` do so exactly when they are made on the first leaf**
(`cursors_track_iff`).
-/

namespace Beryl.Draft

open Fallible DraftPieceLeafValue List

/-! ## Calls -/

/-- The child predicates the callers pass. -/
inductive ChildTest
  | any | text | markers
  deriving DecidableEq

/-- The predicate on links. -/
def ChildTest.accepts : ChildTest → DraftPieceChild → Bool
  | any => fun _ => true
  | text => hasText
  | markers => hasMarkers

/-- The leaves it is after. -/
def ChildTest.Passes : ChildTest → DraftPieceLeafValue → Prop
  | any => fun _ => True
  | text => HasBytes
  | markers => IsMarker

/-- Every predicate in use reads a property of leaves. -/
theorem ChildTest.reads : ∀ test : ChildTest, Reads test.accepts test.Passes
  | any => fun link leaves hs => by
    obtain ⟨x, xs, rfl, -⟩ := hs.first
    simp [accepts, Passes]
  | text => reads_hasText
  | markers => reads_hasMarkers

/-- A call on a cursor. -/
inductive CursorCall
  | advance (test : ChildTest)
  | retreat (test : ChildTest)
  deriving DecidableEq

/-- What a move makes of a cursor: the frames are popped one by one, so a move that finds nothing
leaves none. -/
def settle (cursor : SequenceCursor) : Option SequenceCursor → Bool × SequenceCursor
  | none => (false, { cursor with frames := [] })
  | some moved => (true, moved)

/-- `advance_matching` or `retreat_matching`, with the answer and the cursor left behind. -/
def CursorCall.run : CursorCall → SequenceCursor → Prepared (Bool × SequenceCursor)
  | advance test, cursor => do
    let moved ← advanceMatching test.accepts cursor.frames
    return settle cursor moved
  | retreat test, cursor => do
    let moved ← retreatMatching test.accepts cursor.frames
    return settle cursor moved

/-! ## What is expected of a run -/

/-- The position a cursor shows is that of the leaf it rests on. -/
def PositionExact (leaves : Leaves) (located : LocatedLeaf) : Prop :=
  leaves[located.rank]? = some located.leaf
    ∧ located.anchor = textLength (leaves.take located.rank)

/-- **The answer of a call** made at rank `rank`: the nearest leaf in its direction that passes, or
`false` and there is none. -/
def Answers (leaves : Leaves) (rank : ℕ) : CursorCall → Bool → LocatedLeaf → Prop
  | .advance test, true, located => rank < located.rank ∧ test.Passes located.leaf
      ∧ ∀ i x, rank < i → i < located.rank → leaves[i]? = some x → ¬ test.Passes x
  | .advance test, false, _ => ∀ i x, rank < i → leaves[i]? = some x → ¬ test.Passes x
  | .retreat test, true, located => located.rank < rank ∧ test.Passes located.leaf
      ∧ ∀ i x, located.rank < i → i < rank → leaves[i]? = some x → ¬ test.Passes x
  | .retreat test, false, _ => ∀ i x, i < rank → leaves[i]? = some x → ¬ test.Passes x

/-- **A run keeps track**: every position is exact, every call succeeds with the right answer. -/
def Tracks (leaves : Leaves) : SequenceCursor → List CursorCall → Prop
  | cursor, [] => PositionExact leaves cursor.leaf
  | cursor, call :: calls => PositionExact leaves cursor.leaf
      ∧ ∃ answer moved, call.run cursor = .ok (answer, moved)
        ∧ Answers leaves cursor.leaf.rank call answer moved.leaf
        ∧ (answer = true → Tracks leaves moved calls)

variable {H : ℕ} {root : SequenceRef H} {cursor : SequenceCursor}
  {b a : Leaves} {x : DraftPieceLeafValue}

/-! ## Exact cursors -/

theorem CursorAt.positionExact (hat : CursorAt root cursor b x a) :
    PositionExact (flatten H root.tree) cursor.leaf := by
  rw [hat.flatten_eq]
  obtain ⟨ref, -, -, hleaf⟩ := hat
  rw [hleaf]
  simp [PositionExact]

/-- The leaves a move passes over, by their ranks. -/
theorem getElem?_mem_middle {l m r : Leaves} {i : ℕ} {x y : DraftPieceLeafValue}
    (hl : l.length < i) (hi : i < l.length + 1 + m.length)
    (hy : (l ++ x :: (m ++ r))[i]? = some y) : y ∈ m := by
  obtain ⟨i, rfl⟩ := Nat.exists_eq_add_of_lt hl
  rw [getElem?_append_right (by omega), show l.length + i + 1 - l.length = i + 1 by omega,
    getElem?_cons_succ, getElem?_append_left (by omega)] at hy
  exact mem_of_getElem? hy

/-- **One call on an exact cursor**: the right answer, and an exact cursor again. -/
theorem CursorAt.run (hroot : WellFormedRoot root) (hat : CursorAt root cursor b x a)
    (call : CursorCall) : ∃ answer moved, call.run cursor = .ok (answer, moved)
      ∧ Answers (flatten H root.tree) cursor.leaf.rank call answer moved.leaf
      ∧ (answer = true → ∃ b' x' a', CursorAt root moved b' x' a') := by
  have hfl := hat.flatten_eq
  obtain ⟨ref, path, hx, hleaf⟩ := hat
  have hrank : cursor.leaf.rank = b.length := by rw [hleaf]
  cases call with
  | advance test =>
    obtain ⟨moved, l, y, r, hadv, ⟨rfl, hpy, hl⟩, hat'⟩ | ⟨hno, hfree⟩ :=
      path.advance hroot test.reads
    · have hmoved : moved.leaf.rank = (b ++ [x] ++ l).length ∧ moved.leaf.leaf = y := by
        obtain ⟨ref', -, -, hleaf'⟩ := hat'
        simp [hleaf', hx]
      refine ⟨true, moved, by simp [CursorCall.run, hadv, settle], ?_, fun _ => ⟨_, _, _, hat'⟩⟩
      simp only [length_append, length_singleton] at hmoved
      refine ⟨by omega, by rwa [hmoved.2], fun i z h1 h2 hz => hl z ?_⟩
      exact getElem?_mem_middle (by omega) (by omega) (hfl ▸ hz)
    · refine ⟨false, _, by simp [CursorCall.run, hno, settle]; rfl, fun i z h1 hz => hfree z ?_,
        by simp⟩
      rw [hfl, ← append_nil a] at hz
      have hi := (List.getElem?_eq_some_iff.mp hz).1
      simp only [length_append, length_cons, length_nil] at hi
      exact getElem?_mem_middle (by omega) (by omega) hz
  | retreat test =>
    obtain ⟨moved, l, y, r, hret, ⟨rfl, hpy, hr⟩, hat'⟩ | ⟨hno, hfree⟩ :=
      path.retreat hroot test.reads
    · have hmoved : moved.leaf.rank = l.length ∧ moved.leaf.leaf = y := by
        obtain ⟨ref', -, -, hleaf'⟩ := hat'
        simp [hleaf']
      refine ⟨true, moved, by simp [CursorCall.run, hret, settle], ?_, fun _ => ⟨_, _, _, hat'⟩⟩
      refine ⟨by rw [hrank, hmoved.1]; simp, by rwa [hmoved.2], fun i z h1 h2 hz => hr z ?_⟩
      rw [length_append, length_cons] at hrank
      rw [hfl, append_assoc, cons_append] at hz
      exact getElem?_mem_middle (by omega) (by omega) hz
    · refine ⟨false, _, by simp [CursorCall.run, hno, settle]; rfl, fun i z h1 hz => hfree z ?_,
        by simp⟩
      rw [hrank] at h1
      rw [hfl, getElem?_append_left h1] at hz
      exact mem_of_getElem? hz

/-- **An exact cursor keeps track in every run.** -/
theorem CursorAt.tracks (hroot : WellFormedRoot root) : ∀ {calls} {cursor} {b a} {x},
    CursorAt root cursor b x a → Tracks (flatten H root.tree) cursor calls
  | [], _, _, _, _, hat => hat.positionExact
  | call :: calls, _, _, _, _, hat => by
    obtain ⟨answer, moved, hrun, hanswers, hnext⟩ := hat.run hroot call
    refine ⟨hat.positionExact, answer, moved, hrun, hanswers, fun htrue => ?_⟩
    obtain ⟨b', x', a', hat'⟩ := hnext htrue
    exact hat'.tracks hroot

/-! ## Cursors made by rank -/

/-- **A cursor made by rank or offset keeps track in every run exactly on the first leaf**: behind
it, one step back is enough to lose count. -/
theorem RankAt.tracks_iff (hroot : WellFormedRoot root) (hat : RankAt root cursor b x a) :
    (∀ calls, Tracks (flatten H root.tree) cursor calls) ↔ b = [] := by
  obtain ⟨ref, path, hx, hleaf⟩ := hat
  constructor
  · intro htracks
    obtain ⟨-, answer, moved, hrun, hanswers, -⟩ := htracks [.retreat .any]
    have hfl : flatten H root.tree = b ++ x :: a := by
      obtain ⟨_, hplaced⟩ := path.placed
      rw [hplaced.flatten_eq, flatten_zero, hx]
      simp
    have hrank : cursor.leaf.rank = b.length := by rw [hleaf]
    rw [hrank] at hanswers
    simp only [CursorCall.run, bind_eq_ok, pure_eq_ok_iff] at hrun
    obtain ⟨moved?, hret, hsettle⟩ := hrun
    cases moved? with
    | none =>
      cases hsettle
      by_contra hne
      obtain ⟨y, ys, rfl⟩ := exists_cons_of_ne_nil hne
      exact hanswers 0 y (by simp) (by simp [hfl]) trivial
    | some m =>
      cases hsettle
      have hle := path.retreat_rank hret
      have hlt := hanswers.1
      omega
  · rintro rfl calls
    exact CursorAt.tracks hroot ⟨ref, path.exact rfl, hx, hleaf⟩

/-! ## The cursors of the code -/

/-- The four ways the code makes a cursor. -/
inductive MadeBy (root : SequenceRef H) : SequenceCursor → Prop
  | piece {targetRank : ℕ} {cursor : SequenceCursor}
      (made : pieceCursor root targetRank = .ok cursor) :
    MadeBy root cursor
  | text {offset from_ : ℕ} {cursor : SequenceCursor}
      (made : textCursor root offset = .ok (some (cursor, from_))) : MadeBy root cursor
  | marker {target : DraftCompositeSearchKey} {cursor : SequenceCursor}
      (made : markerCursor root target = .ok (some cursor)) : MadeBy root cursor
  | last {test : ChildTest} {cursor : SequenceCursor}
      (made : lastMatchingCursor test.accepts root = .ok (some cursor)) : MadeBy root cursor

/-- The expectation on every cursor of a tree and every run. -/
def CursorsTrack (root : SequenceRef H) : Prop :=
  ∀ cursor, MadeBy root cursor → ∀ calls, Tracks (flatten H root.tree) cursor calls

/-- **Which cursors keep track in every run**: all those made by key or from the end, and those made
by rank or by offset on the first leaf of the document, no others. -/
theorem cursors_track_iff (hdoc : WellFormedDocument root) :
    (∀ target cursor, markerCursor root target = .ok (some cursor) →
        ∀ calls, Tracks (flatten H root.tree) cursor calls)
    ∧ (∀ (test : ChildTest) cursor, lastMatchingCursor test.accepts root = .ok (some cursor) →
        ∀ calls, Tracks (flatten H root.tree) cursor calls)
    ∧ (∀ targetRank cursor, pieceCursor root targetRank = .ok cursor →
        ((∀ calls, Tracks (flatten H root.tree) cursor calls) ↔ targetRank = 0))
    ∧ (∀ offset cursor inner, textCursor root offset = .ok (some (cursor, inner)) →
        ((∀ calls, Tracks (flatten H root.tree) cursor calls)
          ↔ ∃ t rest, flatten H root.tree = .text t :: rest ∧ offset < t.length)) := by
  have hroot := hdoc.toWellFormedRoot
  have hs := hroot.wellFormed.summary
  refine ⟨fun target cursor hmade calls => ?_, fun test cursor hmade calls => ?_,
    fun targetRank cursor hmade => ?_, fun offset cursor inner hmade => ?_⟩
  · rcases markerCursor_cases hdoc target with
      ⟨-, hnone⟩ | ⟨-, -, hnone⟩ | ⟨-, found, pre, m, post, hsome, hat, -, -⟩
    · simp [hnone] at hmade
    · simp [hnone] at hmade
    · obtain rfl : found = cursor := by simpa [hsome] using hmade
      obtain ⟨b, a, hat', -⟩ := hat
      exact hat'.tracks hroot
  · by_cases hacc : test.accepts root.link = true
    · obtain ⟨found, l, x, r, hdesc, -, hat⟩ := CursorPath.start.descendReverse hroot test.reads
        ((test.reads _ _ hs).mp hacc)
      simp only [textLength_nil, length_nil] at hdesc
      obtain rfl : found = cursor := by simpa [lastMatchingCursor, hacc, hdesc] using hmade
      exact hat.tracks hroot
    · simp [lastMatchingCursor, hacc] at hmade
  · have hlt : targetRank < (flatten H root.tree).length := by
      simp only [pieceCursor, bind_eq_ok, ensure_eq_ok, hs.pieces] at hmade
      obtain ⟨-, hlt, -⟩ := hmade
      exact hlt
    obtain ⟨found, b, x, a, hfound, rfl, -, hat⟩ := pieceCursor_ok hroot hlt
    obtain rfl : found = cursor := by simpa [hfound] using hmade
    rw [hat.tracks_iff hroot, length_eq_zero_iff]
  · obtain ⟨found, b, t, a, hfound, hsplit, hle, hlt, hat⟩ :=
      textCursor_ok hroot (lt_of_textCursor hroot hdoc.height.1 hmade)
    obtain ⟨rfl, -⟩ : found = cursor ∧ _ := by simpa [hfound] using hmade
    rw [hat.tracks_iff hroot, hsplit]
    constructor
    · rintro rfl
      exact ⟨t, a, rfl, by simpa using hlt⟩
    · rintro ⟨t', rest, hfirst, hlt'⟩
      cases b with
      | nil => rfl
      | cons y b =>
        -- the leaf found would start behind the first leaf, which holds the byte
        cases hfirst
        simp only [textLength_cons, bytes_text] at hle
        omega

/-- The letters `a`, `b`, `c`, a leaf each. -/
def threeLetters : SequenceRef 1 where
  link := ⟨3, 0, 1, 3, 0, .beforeMarkers 0, .afterMarkers 3⟩
  tree :=
    [(⟨1, 0, 1, 1, 0, .beforeMarkers 0, .afterMarkers 1⟩, .text [97]),
     (⟨1, 0, 1, 1, 0, .beforeMarkers 0, .afterMarkers 1⟩, .text [98]),
     (⟨1, 0, 1, 1, 0, .beforeMarkers 0, .afterMarkers 1⟩, .text [99])]
  selectedRoot := true

theorem wellFormed_threeLetters : WellFormedDocument threeLetters := by decide +kernel

/-- **A cursor made on the second letter loses track**: advanced, it rests on the third letter and
shows rank 3 and anchor 3 there. -/
theorem cursors_lose_track :
    WellFormedDocument threeLetters ∧ ¬ CursorsTrack threeLetters
      ∧ (do let cursor ← pieceCursor threeLetters 1
            let (answer, moved) ← (CursorCall.advance .any).run cursor
            return (answer, moved.leaf.rank, moved.leaf.anchor, moved.leaf.leaf) :
          Prepared (Bool × ℕ × ℕ × DraftPieceLeafValue)).toOption
        = some (true, 3, 3, .text [99]) := by
  refine ⟨wellFormed_threeLetters, fun htrack => ?_, by decide +kernel⟩
  have hroot := wellFormed_threeLetters.toWellFormedRoot
  obtain ⟨cursor, b, x, a, hmade, hb, -, hat⟩ := pieceCursor_ok hroot
    (show 1 < (flatten 1 threeLetters.tree).length by decide)
  have hnil := (hat.tracks_iff hroot).mp (htrack cursor (.piece hmade))
  simp [hnil] at hb

/-- The theorem on `threeLetters`: the piece cursor of rank 0 keeps track, that of rank 1 does
not. -/
theorem cursors_track_threeLetters :
    WellFormedDocument threeLetters
      ∧ (∃ cursor, pieceCursor threeLetters 0 = .ok cursor
          ∧ ∀ calls, Tracks (flatten 1 threeLetters.tree) cursor calls)
      ∧ ∃ cursor, pieceCursor threeLetters 1 = .ok cursor
          ∧ ¬ ∀ calls, Tracks (flatten 1 threeLetters.tree) cursor calls := by
  have hdoc := wellFormed_threeLetters
  obtain ⟨-, -, hpiece, -⟩ := cursors_track_iff hdoc
  refine ⟨hdoc, ?_, ?_⟩
  · obtain ⟨cursor, _, _, _, hmade, -⟩ := pieceCursor_ok hdoc.toWellFormedRoot
      (show 0 < (flatten 1 threeLetters.tree).length by decide)
    exact ⟨cursor, hmade, (hpiece 0 cursor hmade).mpr rfl⟩
  · obtain ⟨cursor, _, _, _, hmade, -⟩ := pieceCursor_ok hdoc.toWellFormedRoot
      (show 1 < (flatten 1 threeLetters.tree).length by decide)
    exact ⟨cursor, hmade, fun h => absurd ((hpiece 1 cursor hmade).mp h) (by decide)⟩

end Beryl.Draft
