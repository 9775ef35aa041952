import Beryl.Draft.Build.Outcome
import Beryl.Draft.Read.CursorRuns

/-!
# Draft/Build/Edits — one leaf in, one range out

The two edits a draft is made of, each carried to its end.  A leaf goes in at a boundary, and the
roots are built anew.  A range of text goes out slice by slice, and the root is renewed after each:
**the range goes exactly when the document without it has its markers in order**
(`removeRange_outcome`).  As long as text of the range is left it keeps the markers on its two sides
apart, so only the last slice can be refused.  Over any run of both the tree stays its document
(`edits_refine`).
-/

namespace Beryl.Draft

open Fallible Replace List

/-! ## Boundaries -/

section

variable {leaves : Leaves} {boundary : Boundary} {u : ℕ}

/-- A boundary of a document: beside a leaf, or between two characters of a text leaf. -/
def Boundary.Valid (leaves : Leaves) (boundary : Boundary) : Prop :=
  boundary.rank ≤ leaves.length ∧ (boundary.inner = 0 ∨ ∃ t, leaves[boundary.rank]? = some (.text t)
    ∧ boundary.inner < t.length ∧ isCharBoundary t boundary.inner = true)

/-- The unit a boundary stands in front of. -/
def Boundary.unit (leaves : Leaves) (boundary : Boundary) : ℕ :=
  unitsBefore leaves boundary.rank + boundary.inner

theorem placedAt_iff :
    PlacedAt leaves boundary u ↔ boundary.Valid leaves ∧ boundary.unit leaves = u := by
  refine ⟨fun h => ⟨?_, h.eq_unitsBefore.1.symm⟩, ?_⟩
  · cases h with
    | between hsplit => subst hsplit; exact ⟨by simp, .inl rfl⟩
    | inside hsplit h0 hlt hchar => subst hsplit; exact ⟨by simp, .inr ⟨_, by simp, hlt, hchar⟩⟩
  · rintro ⟨⟨hle, hin⟩, rfl⟩
    obtain ⟨rank, inner⟩ := boundary
    have hrank : (leaves.take rank).length = rank := by simpa using hle
    cases inner with
    | zero =>
      have hplace : PlacedAt leaves ⟨(leaves.take rank).length, 0⟩ (unitsBefore leaves rank) :=
        .between (take_append_drop rank leaves).symm
      rwa [hrank] at hplace
    | succ inner =>
      obtain ⟨t, ht, hlt, hchar⟩ := hin.resolve_left (by simp)
      obtain ⟨hget, hleaf⟩ := List.getElem?_eq_some_iff.mp ht
      have hsplit : leaves = leaves.take rank ++ .text t :: leaves.drop (rank + 1) := by
        rw [← hleaf, ← drop_eq_getElem_cons hget, take_append_drop]
      have hplace : PlacedAt leaves ⟨(leaves.take rank).length, inner + 1⟩ _ :=
        .inside hsplit (Nat.succ_pos inner) hlt hchar
      rwa [hrank] at hplace

end

/-! ## A leaf more -/

/-- `insert_sequence_leaf`, then `build_roots`. -/
def insertLeaf (mapping : MappingStage) (roots : BuildRoots) (boundary : Boundary)
    (x : DraftPieceLeafValue) : Prepared BuildRoots := do
  let root ← insertSequenceLeaf mapping roots.sequence boundary (newSequenceLeaf x)
  buildRoots roots (some root)

/-! ## A range less -/

/-- A round of a removal: `remove_text_slice`, then the renewal of the root. -/
def removeRound (sequence : WorkingSequence) (start stop : Boundary) :
    Prepared (WorkingSequence × Boundary × Boundary) :=
  match sequence with
  | none => .error .invalidRoot
  | some ⟨_, ref⟩ => do
    let removed ← removeTextSlice none ref start stop
    let root ← rootSequence removed.1
    return (root, removed.2)

/-- Rounds until the two boundaries meet. -/
def removeRange : ℕ → WorkingSequence → Boundary → Boundary → Prepared (WorkingSequence × Boundary)
  | 0, _, _, _ => .error .invalidRoot
  | rounds + 1, sequence, start, stop =>
    if start = stop then .ok (sequence, start)
    else do
      let next ← removeRound sequence start stop
      removeRange rounds next.1 next.2.1 next.2.2

/-- **A range of text** of a draft, between two boundaries that stand at `u` and `v`. -/
structure TextRange (sequence : WorkingSequence) (start stop : Boundary) (u v : ℕ) : Prop where
  rooted : Rooted sequence
  start : PlacedAt (workingLeaves sequence) start u
  stop : PlacedAt (workingLeaves sequence) stop v
  le : u ≤ v
  bytes : ∀ i, u ≤ i → i < v → ∃ b, (unitsOf (workingLeaves sequence))[i]? = some (.byte b)

section

variable {sequence : WorkingSequence} {start stop : Boundary} {u v : ℕ}

/-- **A round takes the end of the range** and leaves the range of what remains. -/
theorem removeRound_meets (h : TextRange sequence start stop u v) (hlt : u < v) :
    Meets (removeRound sequence start stop)
      (Ordered (cutOut u v (unitsOf (workingLeaves sequence))))
      fun next => ∃ a, u ≤ a ∧ a < v ∧ TextRange next.1 next.2.1 next.2.2 u a
        ∧ unitsOf (workingLeaves next.1) = cutOut a v (unitsOf (workingLeaves sequence)) := by
  have hv := h.stop.le_length
  obtain ⟨splice, hslice⟩ := exists_sliceAt h.rooted.occupied h.start h.stop hlt h.bytes
  obtain ⟨-, hua, hpos, hav, -⟩ := hslice.bounds
  have hfits := h.rooted.fits
  match sequence, h with
  | none, _ => simp at hv; omega
  | some ⟨k, ref⟩, h =>
    rw [workingLeaves_some] at hv
    refine ((removeSliceAt_meets none (h.rooted k ref rfl).1 hslice).mono
      (fun hord => ⟨nofun, ?_, hfits⟩) fun _ => id).bind fun removed hremoved => ?_
    · -- while text of the range is left, it keeps the markers around it apart
      rcases hua.eq_or_lt with heq | hgt
      · rwa [← heq]
      · exact ordered_cutOut h.rooted.ordered hgt (by omega) h.bytes
    obtain ⟨hunits, -, hstart, hstop, hkeeps, hworks⟩ := hremoved
    refine ((rootSequence_meets hworks).mono (fun _ => hkeeps hfits) fun _ => id).bind
      fun root hroot => meets_ok ?_
    obtain ⟨hlvs, hrooted⟩ := hroot
    rw [← hlvs] at hunits hstart hstop
    refine ⟨splice.a, hua, by omega, ⟨hrooted, hstart, hstop, hua, fun i hi hia => ?_⟩, hunits⟩
    obtain ⟨b, hb⟩ := h.bytes i hi (by omega)
    refine ⟨b, ?_⟩
    rw [hunits, cutOut, getElem?_append_left (by rw [length_take]; omega), getElem?_take_of_lt hia]
    exact hb

/-- **All rounds together take the range**, and leave the boundary where it was. -/
theorem removeRange_meets : ∀ {rounds} {sequence} {start stop}
    {v}, TextRange sequence start stop u v → v - u < rounds →
    Meets (removeRange rounds sequence start stop)
      (Ordered (cutOut u v (unitsOf (workingLeaves sequence)))) fun result =>
      Rooted result.1 ∧ PlacedAt (workingLeaves result.1) result.2 u
        ∧ unitsOf (workingLeaves result.1) = cutOut u v (unitsOf (workingLeaves sequence))
  | 0, _, _, _, _, _, hrounds => absurd hrounds (Nat.not_lt_zero _)
  | rounds + 1, sequence, start, stop, v, h, hrounds => by
    unfold removeRange
    split
    · rename_i heq
      subst heq
      obtain rfl := h.start.unit_eq h.stop
      exact meets_ok ⟨h.rooted, h.start, (cutOut_self _ _).symm⟩
    · rename_i hne
      have hlt : u < v := lt_of_le_of_ne h.le fun huv =>
        hne (h.start.eq_of_unit h.rooted.occupied (huv ▸ h.stop))
      refine (removeRound_meets h hlt).bind fun next hnext => ?_
      obtain ⟨a, hua, hav, hrange, hunits⟩ := hnext
      have hcut : cutOut u a (unitsOf (workingLeaves next.1))
          = cutOut u v (unitsOf (workingLeaves sequence)) := by
        rw [hunits, cutOut_cutOut hua hav.le _ h.stop.le_length]
      have hrest := removeRange_meets hrange (show a - u < rounds by omega)
      rwa [hcut] at hrest

/-- **The outcome of the removal of a range of text**: enough rounds take it exactly when the
document without it has its markers in order, and the boundaries then meet where the range was. -/
theorem removeRange_outcome (sequence : WorkingSequence) (start stop : Boundary) (rounds : ℕ)
    (hrooted : Rooted sequence) (hstart : start.Valid (workingLeaves sequence))
    (hstop : stop.Valid (workingLeaves sequence)) (hlt : start < stop)
    (hbytes : ∀ i, start.unit (workingLeaves sequence) ≤ i →
      i < stop.unit (workingLeaves sequence) →
      ∃ b, (unitsOf (workingLeaves sequence))[i]? = some (.byte b))
    (hrounds : stop.unit (workingLeaves sequence) - start.unit (workingLeaves sequence) < rounds) :
    ((∃ result, removeRange rounds sequence start stop = .ok result)
        ↔ Ordered (cutOut (start.unit (workingLeaves sequence)) (stop.unit (workingLeaves sequence))
          (unitsOf (workingLeaves sequence))))
      ∧ ∀ root boundary, removeRange rounds sequence start stop = .ok (root, boundary) →
        Rooted root ∧ boundary.Valid (workingLeaves root)
          ∧ boundary.unit (workingLeaves root) = start.unit (workingLeaves sequence)
          ∧ unitsOf (workingLeaves root) = cutOut (start.unit (workingLeaves sequence))
            (stop.unit (workingLeaves sequence)) (unitsOf (workingLeaves sequence)) := by
  have hs := placedAt_iff.mpr ⟨hstart, rfl⟩
  have ht := placedAt_iff.mpr ⟨hstop, rfl⟩
  have hle := (hs.lt_iff hrooted.occupied ht).mp hlt
  have hmeets := removeRange_meets ⟨hrooted, hs, ht, hle.le, hbytes⟩ hrounds
  refine ⟨⟨fun hok => ?_, hmeets.total⟩, fun root boundary hok => ?_⟩
  · obtain ⟨result, hok⟩ := hok
    obtain ⟨hroot, -, hunits⟩ := hmeets.sound hok
    rw [← hunits]
    exact hroot.ordered
  · obtain ⟨hroot, hplace, hunits⟩ := hmeets.sound hok
    exact ⟨hroot, (placedAt_iff.mp hplace).1, (placedAt_iff.mp hplace).2, hunits⟩

end

theorem rooted_apartRoot : Rooted (some ⟨1, apartRoot⟩) := by
  rintro h ref ⟨⟩
  exact wellFormed_apartRoot.workable

/-- **Text that keeps two markers apart cannot go**: the first marker has the higher key. -/
theorem removeRange_refused :
    Rooted (some ⟨1, apartRoot⟩) ∧ (⟨1, 0⟩ : Boundary).Valid (workingLeaves (some ⟨1, apartRoot⟩))
      ∧ (⟨2, 0⟩ : Boundary).Valid (workingLeaves (some ⟨1, apartRoot⟩))
      ∧ (∀ i, 1 ≤ i → i < 2 →
        ∃ b, (unitsOf (workingLeaves (some ⟨1, apartRoot⟩)))[i]? = some (.byte b))
      ∧ ∀ rounds result, removeRange rounds (some ⟨1, apartRoot⟩) ⟨1, 0⟩ ⟨2, 0⟩ ≠ .ok result := by
  have hbytes : ∀ i, 1 ≤ i → i < 2 →
      ∃ b, (unitsOf (workingLeaves (some ⟨1, apartRoot⟩)))[i]? = some (.byte b) := by
    intro i h1 h2
    obtain rfl : i = 1 := by omega
    exact ⟨120, rfl⟩
  refine ⟨rooted_apartRoot, ⟨by decide, .inl rfl⟩, ⟨by decide, .inl rfl⟩, hbytes,
    fun rounds result hok => ?_⟩
  cases rounds with
  | zero => cases hok
  | succ rounds =>
    rw [removeRange, if_neg (by decide), bind_eq_ok] at hok
    obtain ⟨next, hround, -⟩ := hok
    have hrange : TextRange (some ⟨1, apartRoot⟩) ⟨1, 0⟩ ⟨2, 0⟩ 1 2 :=
      ⟨rooted_apartRoot, .between (l := [.marker ⟨1, 1, 1, 5⟩]) rfl,
        .between (l := [.marker ⟨1, 1, 1, 5⟩, .text [120]]) rfl, by decide, hbytes⟩
    obtain ⟨a, h1, h2, hnext, hunits⟩ := (removeRound_meets hrange (by decide)).sound hround
    obtain rfl : a = 1 := by omega
    have hord := hunits ▸ hnext.rooted.ordered
    revert hord
    decide

/-- The theorem on the three letters: the last two go. -/
theorem removeRange_outcome_threeLetters :
    (∃ result, removeRange 3 (some ⟨1, threeLetters⟩) ⟨1, 0⟩ ⟨3, 0⟩ = .ok result)
      ∧ ∀ root boundary, removeRange 3 (some ⟨1, threeLetters⟩) ⟨1, 0⟩ ⟨3, 0⟩ =
        .ok (root, boundary) →
        Rooted root ∧ boundary.Valid (workingLeaves root) ∧ boundary.unit (workingLeaves root) = 1
          ∧ unitsOf (workingLeaves root) = [.byte 97] := by
  have hrooted : Rooted (some ⟨1, threeLetters⟩) := by
    rintro h ref ⟨⟩
    exact wellFormed_threeLetters.workable
  have h := removeRange_outcome (some ⟨1, threeLetters⟩) ⟨1, 0⟩ ⟨3, 0⟩ 3 hrooted
    ⟨by decide, .inl rfl⟩ ⟨by decide, .inl rfl⟩ (by decide) (fun i (h1 : 1 ≤ i) (h2 : i < 3) => by
      obtain rfl | rfl : i = 1 ∨ i = 2 := by omega
      exacts [⟨98, rfl⟩, ⟨99, rfl⟩]) (by decide)
  exact ⟨h.1.mpr (by decide), h.2⟩

/-! ## Edit after edit -/

/-- **A draft under edit**, and the units it is to hold: leaves went in at places, and text went
out. -/
inductive Edited : WorkingSequence → List DraftUnit → Prop
  | nothing : Edited none []
  | insert {roots next : BuildRoots} {document : List DraftUnit} {mapping : MappingStage}
    {boundary : Boundary} {u : ℕ} {x : DraftPieceLeafValue}
    (edited : Edited roots.sequence document)
    (place : PlacedAt roots.leaves boundary u) (occupied : x.Occupied)
    (inserted : insertLeaf mapping roots boundary x = .ok next) :
    Edited next.sequence (document.take u ++ (unitsOf [x] ++ document.drop u))
  | remove {sequence next : WorkingSequence} {document : List DraftUnit}
    {start stop boundary : Boundary} {u v rounds : ℕ} (edited : Edited sequence document)
    (first : PlacedAt (workingLeaves sequence) start u)
    (last : PlacedAt (workingLeaves sequence) stop v) (le : u ≤ v)
    (text : ∀ i, u ≤ i → i < v → ∃ b, document[i]? = some (.byte b)) (enough : v - u < rounds)
    (removed : removeRange rounds sequence start stop = .ok (next, boundary)) :
    Edited next (cutOut u v document)

/-- **A tree stays its document**: whatever leaves go in and whatever text goes out, the tree is
well formed and spells the document with the same edits. -/
theorem edits_refine {sequence : WorkingSequence} {document : List DraftUnit}
    (h : Edited sequence document) :
    Rooted sequence ∧ unitsOf (workingLeaves sequence) = document := by
  induction h with
  | nothing => exact ⟨by rintro _ _ ⟨⟩, rfl⟩
  | insert _ place occupied inserted ih =>
    obtain ⟨hrooted, rfl⟩ := ih
    obtain ⟨left, right, hcut, rfl⟩ := place.cuts
    obtain ⟨root, hroot, hbuilt⟩ := bind_eq_ok.mp inserted
    obtain ⟨hleaves, hwork⟩ := (insertSequenceLeaf_meets occupied hrooted hcut).sound hroot
    obtain ⟨root', rfl, hkept, hrooted'⟩ :=
      (buildRoots_meets (by rintro _ _ ⟨⟩; exact hwork)).sound hbuilt
    have hunits : unitsOf (workingLeaves _) = unitsOf left ++ unitsOf right := hcut.units
    refine ⟨hrooted', ?_⟩
    rw [hkept, hleaves, hunits, take_left, drop_left]
    simp
  | remove _ first last le text enough removed ih =>
    obtain ⟨hrooted, rfl⟩ := ih
    obtain ⟨hrooted', -, hunits⟩ :=
      (removeRange_meets ⟨hrooted, first, last, le, text⟩ enough).sound removed
    exact ⟨hrooted', hunits⟩

/-- A marker, to stand between two letters. -/
def between : DraftPieceMarker := ⟨1, 1, 1, 1⟩

/-- The result of an edit that succeeds. -/
def edited {α : Type} (default : α) (x : Prepared α) : α := x.toOption.getD default

/-- A draft of two letters. -/
def twoLetters : BuildRoots :=
  edited ⟨none, 0, 0⟩ (insertLeaf none ⟨none, 0, 0⟩ ⟨0, 0⟩ (.text [97, 98]))

/-- The two letters, parted by a marker. -/
def partedLetters : BuildRoots :=
  edited ⟨none, 0, 0⟩ (insertLeaf none ⟨twoLetters.sequence, 1, 1⟩ ⟨0, 1⟩ (.marker between))

/-- The marker and the second letter. -/
def secondLetter : WorkingSequence × Boundary :=
  edited (none, ⟨0, 0⟩) (removeRange 2 partedLetters.sequence ⟨0, 0⟩ ⟨1, 0⟩)

/-- A leaf goes in, a marker parts it, and the first part goes out. -/
theorem edits_refine_parted : Edited secondLetter.1 [.marker between, .byte 98]
    ∧ Rooted secondLetter.1
    ∧ unitsOf (workingLeaves secondLetter.1) = [.marker between, .byte 98] := by
  have hletters : Edited twoLetters.sequence [.byte 97, .byte 98] :=
    @Edited.insert ⟨none, 0, 0⟩ twoLetters [] none ⟨0, 0⟩ 0 (.text [97, 98]) .nothing
      (.between (l := []) rfl) (cons_ne_nil _ _) rfl
  have hplace : PlacedAt (workingLeaves twoLetters.sequence) ⟨0, 1⟩ 1 :=
    .inside (l := []) (t := [97, 98]) (r := []) rfl (by decide) (by decide) (by decide)
  have hparted : Edited partedLetters.sequence [.byte 97, .marker between, .byte 98] :=
    @Edited.insert ⟨twoLetters.sequence, 1, 1⟩ partedLetters _ none ⟨0, 1⟩ 1 (.marker between)
      hletters hplace trivial rfl
  have h : Edited secondLetter.1 [.marker between, .byte 98] :=
    @Edited.remove partedLetters.sequence secondLetter.1 _ ⟨0, 0⟩ ⟨1, 0⟩ secondLetter.2 0 1 2
      hparted (.between (l := []) rfl) (.between (l := [.text [97]]) rfl) (by decide)
      (fun i _ hi => by
        obtain rfl : i = 0 := by omega
        exact ⟨97, rfl⟩) (by decide) rfl
  exact ⟨h, edits_refine h⟩

end Beryl.Draft
