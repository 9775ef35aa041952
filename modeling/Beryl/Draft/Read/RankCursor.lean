import Beryl.Draft.Sequence.Markers

/-!
# Draft/Read/RankCursor — cursors made by rank and by text offset

`pieceCursor` and `textCursor` descend by a measure: at each node they skip the children that lie
wholly in front of the target.  Both rest on the right leaf (`rankedCursor_ok`), but **the frames
they push count the children skipped as if they stood in front of the node** (`RankPath`), while the
moves of `Draft.Read.Cursor` add the same children once more.  A cursor made this way is exact only
where nothing was skipped (`RankPath.exact`).
-/

namespace Beryl.Draft

open Fallible Search List

/-! ## The descent -/

/-- What the scan of a node finds: a child, what is left of the target in front of it, and the
text and rank there. -/
structure Picked (h : ℕ) where
  index : ℕ
  child : Link h
  remaining : ℕ
  anchor : ℕ
  rank : ℕ

/-- The scan of a node in `piece_cursor` and `text_cursor`. -/
def pickChild (accepts : DraftPieceChild → ℕ → Bool) (measure : DraftPieceChild → ℕ) {h : ℕ} :
    Links h → ℕ → ℕ → ℕ → ℕ → Prepared (Picked h)
  | [], _, _, _, _ => .error .invalidRoot
  | child :: children, index, remaining, anchor, rank =>
    if accepts child.1 remaining then .ok ⟨index, child, remaining, anchor, rank⟩
    else do
      let remaining ← checkedSub aggregateOverflow remaining (measure child.1)
      let anchor ← checkedAdd aggregateOverflow anchor child.1.logicalUtf8Bytes
      let rank ← checkedAdd aggregateOverflow rank child.1.pieceCount
      pickChild accepts measure children (index + 1) remaining anchor rank

/-- The descent of `piece_cursor` and `text_cursor`.  The frame of a node is pushed after the scan,
with the text and rank of the child it enters. -/
def rankedCursor (accepts : DraftPieceChild → ℕ → Bool) (measure : DraftPieceChild → ℕ) :
    (h : ℕ) → SequenceRef h → ℕ → ℕ → ℕ → List CursorFrame → Prepared (SequenceCursor × ℕ)
  | 0, ref, remaining, anchor, rank, frames =>
    .ok (⟨frames, ⟨rank, anchor, ref.link, ref.tree.leaf⟩⟩, remaining)
  | h + 1, ref, remaining, anchor, rank, frames => do
    let node ← loadSequenceNode ref
    let picked ← pickChild accepts measure node 0 remaining anchor rank
    rankedCursor accepts measure h ⟨picked.child.1, picked.child.2, false⟩ picked.remaining
      picked.anchor picked.rank (⟨h, node, picked.index, picked.anchor, picked.rank⟩ :: frames)

/-- The test of `piece_cursor`. -/
def holdsRank (child : DraftPieceChild) (remaining : ℕ) : Bool := remaining < child.pieceCount

/-- The test of `text_cursor`. -/
def holdsOffset (child : DraftPieceChild) (remaining : ℕ) : Bool :=
  child.logicalUtf8Bytes ≠ 0 && remaining < child.logicalUtf8Bytes

/-- The child predicate of the text walks. -/
def hasText (child : DraftPieceChild) : Bool := child.logicalUtf8Bytes != 0

/-- A leaf with bytes. -/
def HasBytes (x : DraftPieceLeafValue) : Prop := x.bytes ≠ []

theorem textLength_ne_zero_iff {xs : Leaves} : textLength xs ≠ 0 ↔ ∃ x ∈ xs, HasBytes x := by
  induction xs with
  | nil => simp
  | cons x xs ih =>
    have hx : x.bytes.length ≠ 0 ↔ HasBytes x := by simp [HasBytes]
    rw [textLength_cons, exists_mem_cons_iff, ← ih, ← hx]
    omega

theorem reads_hasText : Reads hasText HasBytes := by
  intro link leaves hs
  rw [hasText, bne_iff_ne, hs.bytes, textLength_ne_zero_iff]

/-- `piece_cursor`: the leaf of a rank. -/
def pieceCursor {H : ℕ} (tree : SequenceRef H) (targetRank : ℕ) : Prepared SequenceCursor := do
  ensure (targetRank < tree.link.pieceCount) .invalidRoot
  let found ← rankedCursor holdsRank (·.pieceCount) H tree targetRank 0 0 []
  return { found.1 with leaf := { found.1.leaf with rank := targetRank } }

/-- `text_cursor`: the text leaf that holds a byte, and where in the leaf the byte stands. -/
def textCursor {H : ℕ} (tree : SequenceRef H) (offset : ℕ) :
    Prepared (Option (SequenceCursor × ℕ)) :=
  if offset = tree.link.logicalUtf8Bytes then .ok none
  else do
    let found ← rankedCursor holdsOffset (·.logicalUtf8Bytes) H tree offset 0 0 []
    return some found

/-! ## The frames it leaves -/

variable {H : ℕ} {root : SequenceRef H}

/-- `RankPath root h ref frames b a`: the frames lead to the subtree `ref` between the leaves `b`
and `a`, and each carries the position of the child it enters. -/
inductive RankPath (root : SequenceRef H) :
    (h : ℕ) → SequenceRef h → List CursorFrame → Leaves → Leaves → Prop
  | start : RankPath root H root [] [] []
  | enter {h : ℕ} {ref : SequenceRef (h + 1)} {frames : List CursorFrame}
      {b a : Leaves} {l r : Links h} {c : Link h} (path : RankPath root (h + 1) ref frames b a)
      (split : ref.tree.children = l ++ c :: r) :
      RankPath root h ⟨c.1, c.2, false⟩
        (⟨h, ref.tree.children, l.length, textLength (b ++ leavesOf l), (b ++ leavesOf l).length⟩
          :: frames)
        (b ++ leavesOf l) (leavesOf r ++ a)

/-- A cursor made by rank or offset rests on the leaf `x`, between `b` and `a`. -/
def RankAt (root : SequenceRef H) (cursor : SequenceCursor) (b : Leaves)
    (x : DraftPieceLeafValue) (a : Leaves) : Prop :=
  ∃ ref : SequenceRef 0, RankPath root 0 ref cursor.frames b a ∧ ref.tree.leaf = x
    ∧ cursor.leaf = ⟨b.length, textLength b, ref.link, x⟩

section

variable {h : ℕ} {ref : SequenceRef h} {frames : List CursorFrame} {b a : Leaves}

theorem RankPath.placed (path : RankPath root h ref frames b a) :
    ∃ frames', CursorPath root h ref frames' b a := by
  induction path with
  | start => exact ⟨_, .start⟩
  | enter path split ih =>
    obtain ⟨frames', path'⟩ := ih
    exact ⟨_, path'.enter split⟩

/-- **Where nothing was skipped the frames are exact.** -/
theorem RankPath.exact (path : RankPath root h ref frames b a) (hb : b = []) :
    CursorPath root h ref frames b a := by
  induction path with
  | start => exact .start
  | @enter h ref frames b a l r c path split ih =>
    obtain ⟨rfl, hl⟩ := append_eq_nil_iff.mp hb
    have hexact := (ih rfl).enter split
    simpa only [nil_append, hl, textLength_nil, length_nil] using hexact

end

/-! ## A step back -/

theorem le_rank_of_passChildren {h : ℕ} : ∀ {children : Links h}
    {anchor rank} {passed}, passChildren children anchor rank = .ok passed → rank ≤ passed.2
  | [], _, _, _, hok => by
    cases hok
    exact le_rfl
  | c :: cs, anchor, rank, passed, hok => by
    simp only [passChildren, bind_eq_ok, checkedAdd_eq_ok] at hok
    obtain ⟨_, -, _, ⟨rfl, -⟩, hrest⟩ := hok
    exact (Nat.le_add_right _ _).trans (le_rank_of_passChildren hrest)

/-- A descent never lowers the rank it starts from. -/
theorem le_rank_of_descendMatchingReverse {accepts : DraftPieceChild → Bool} :
    ∀ {h : ℕ} {ref} {anchor rank} {frames} {cursor},
      descendMatchingReverse accepts h ref anchor rank frames = .ok cursor → rank ≤ cursor.leaf.rank
  | 0, _, _, _, _, _, hok => by
    cases hok
    exact le_rfl
  | h + 1, ref, anchor, rank, frames, cursor, hok => by
    simp only [descendMatchingReverse, bind_eq_ok] at hok
    obtain ⟨_, -, _, -, _, hpass, hdesc⟩ := hok
    exact (le_rank_of_passChildren hpass).trans (le_rank_of_descendMatchingReverse hdesc)

/-- **A step back from a cursor made by rank never lowers the rank.** -/
theorem RankPath.retreat_rank {h : ℕ} {ref : SequenceRef h} {frames : List CursorFrame}
    {b a : Leaves} {cursor : SequenceCursor} (path : RankPath root h ref frames b a)
    (hok : retreatMatching (fun _ => true) frames = .ok (some cursor)) :
    b.length ≤ cursor.leaf.rank := by
  induction path with
  | start => simp [retreatMatching] at hok
  | @enter h ref frames b a l r c path split ih =>
    have htake : ref.tree.children.take l.length = l := by simp [split]
    simp only [retreatMatching, htake] at hok
    cases hpos : rposition (fun _ => true) l 0 with
    | none =>
      -- the first child was entered: the frame above decides
      have hl : l = [] := eq_nil_iff_forall_not_mem.mpr fun c hc => by
        simpa using rposition_eq_none.mp hpos c hc
      rw [hpos] at hok
      simpa [hl] using ih hok
    | some found =>
      rw [hpos] at hok
      simp only [bind_eq_ok, pure_eq_ok_iff, Option.some.injEq] at hok
      obtain ⟨_, hpass, _, hdesc, rfl⟩ := hok
      exact (le_rank_of_passChildren hpass).trans (le_rank_of_descendMatchingReverse hdesc)

/-! ## Where it rests -/

/-- A test and a measure on links that follow a weight of leaves. -/
structure Gauges (accepts : DraftPieceChild → ℕ → Bool) (measure : DraftPieceChild → ℕ)
    (weight : DraftPieceLeafValue → ℕ) : Prop where
  measure_eq : ∀ {link leaves}, Summarizes link leaves → measure link = (leaves.map weight).sum
  accepts_iff : ∀ {link remaining}, accepts link remaining = true ↔ remaining < measure link

theorem gauges_holdsRank : Gauges holdsRank (·.pieceCount) fun _ => 1 where
  measure_eq hs := by simp [hs.pieces]
  accepts_iff := by simp [holdsRank]

theorem gauges_holdsOffset : Gauges holdsOffset (·.logicalUtf8Bytes) fun x => x.bytes.length where
  measure_eq hs := hs.bytes
  accepts_iff := by
    intro link remaining
    simp only [holdsOffset, Bool.and_eq_true, decide_eq_true_eq]
    omega

section

variable {accepts : DraftPieceChild → ℕ → Bool} {measure : DraftPieceChild → ℕ}
  {weight : DraftPieceLeafValue → ℕ}

/-- The weight of a run of leaves. -/
def weightOf (weight : DraftPieceLeafValue → ℕ) (leaves : Leaves) : ℕ :=
  (leaves.map weight).sum

@[simp] theorem weightOf_nil : weightOf weight [] = 0 := rfl
@[simp] theorem weightOf_append (xs ys : Leaves) :
    weightOf weight (xs ++ ys) = weightOf weight xs + weightOf weight ys := by simp [weightOf]
@[simp] theorem weightOf_singleton (x : DraftPieceLeafValue) : weightOf weight [x] = weight x := by
  simp [weightOf]

/-- **The scan stops at the child that holds the target.** -/
theorem pickChild_ok (hg : Gauges accepts measure weight) {h : ℕ} :
    ∀ {children} index {remaining anchor rank}, (∀ c ∈ children, Summarizes c.1 (flatten h c.2)) →
      remaining < weightOf weight (leavesOf children) →
      anchor + textLength (leavesOf children) < u64Size →
      rank + (leavesOf children).length < u64Size →
      ∃ l c r, children = l ++ c :: r ∧ weightOf weight (leavesOf l) ≤ remaining
        ∧ remaining < weightOf weight (leavesOf l) + weightOf weight (flatten h c.2)
        ∧ pickChild accepts measure children index remaining anchor rank
          = .ok ⟨index + l.length, c, remaining - weightOf weight (leavesOf l),
              anchor + textLength (leavesOf l), rank + (leavesOf l).length⟩
  | [], _, _, _, _, _, hlt, _, _ => absurd hlt (by simp)
  | c :: cs, index, remaining, anchor, rank, hs, hlt, ha, hr => by
    have hc := hs c (by simp)
    have hm : measure c.1 = weightOf weight (flatten h c.2) := hg.measure_eq hc
    simp only [leavesOf_cons, textLength_append, length_append, weightOf_append] at hlt ha hr
    by_cases hacc : remaining < weightOf weight (flatten h c.2)
    · refine ⟨[], c, cs, rfl, by simp, by simpa using hacc, ?_⟩
      rw [pickChild, if_pos (hg.accepts_iff.mpr (by rwa [hm]))]
      simp
    · have hle := not_lt.mp hacc
      have h1 : remaining - weightOf weight (flatten h c.2) < weightOf weight (leavesOf cs) := by
        omega
      have h2 : anchor + textLength (flatten h c.2) + textLength (leavesOf cs) < u64Size := by omega
      have h3 : rank + (flatten h c.2).length + (leavesOf cs).length < u64Size := by omega
      obtain ⟨l, d, r, rfl, hle', hlt', hpick⟩ := pickChild_ok hg (index + 1)
        (fun d hd => hs d (mem_cons_of_mem _ hd)) h1 h2 h3
      refine ⟨c :: l, d, r, rfl, ?_, ?_, ?_⟩
      · simp only [leavesOf_cons, weightOf_append]; omega
      · simp only [leavesOf_cons, weightOf_append]; omega
      · have hno : ¬ accepts c.1 remaining = true := by rw [hg.accepts_iff, hm]; exact hacc
        rw [pickChild, if_neg hno, hm, hc.bytes, hc.pieces]
        simp only [checkedSub_of_le hle,
          checkedAdd_of_lt (show anchor + textLength (flatten h c.2) < u64Size by omega),
          checkedAdd_of_lt (show rank + (flatten h c.2).length < u64Size by omega), ok_bind, hpick]
        simp only [leavesOf_cons, textLength_append, length_append, weightOf_append,
          length_cons, Nat.sub_sub, add_assoc, add_comm 1]

/-- A scan that finds a child was after something the children hold. -/
theorem lt_of_pickChild (hg : Gauges accepts measure weight) {h : ℕ} :
    ∀ {children} {index remaining anchor rank}
      {picked}, (∀ c ∈ children, Summarizes c.1 (flatten h c.2)) →
      pickChild accepts measure children index remaining anchor rank = .ok picked →
      remaining < weightOf weight (leavesOf children)
  | [], _, _, _, _, _, _, hok => by simp [pickChild] at hok
  | c :: cs, index, remaining, anchor, rank, picked, hs, hok => by
    have hm : measure c.1 = weightOf weight (flatten h c.2) := hg.measure_eq (hs c (by simp))
    rw [leavesOf_cons, weightOf_append]
    rw [pickChild] at hok
    split at hok
    · next hacc =>
      have := hg.accepts_iff.mp hacc
      omega
    · simp only [bind_eq_ok, checkedSub_eq_ok, checkedAdd_eq_ok] at hok
      obtain ⟨_, hsub, _, -, _, -, hrest⟩ := hok
      have := lt_of_pickChild hg (fun d hd => hs d (mem_cons_of_mem _ hd)) hrest
      omega

theorem weightOf_pieces (leaves : Leaves) :
    weightOf (fun _ => 1) leaves = leaves.length := by simp [weightOf]

variable (hroot : WellFormedRoot root) {offset : ℕ}
include hroot

/-- **The descent rests on the leaf that holds the target.** -/
theorem rankedCursor_ok (hg : Gauges accepts measure weight) : ∀ {h} {ref} {frames} {b a}
      {remaining}, RankPath root h ref frames b a →
      remaining < weightOf weight (flatten h ref.tree) → ∃ cursor l x r,
        rankedCursor accepts measure h ref remaining (textLength b) b.length frames
          = .ok (cursor, remaining - weightOf weight l)
        ∧ flatten h ref.tree = l ++ x :: r ∧ weightOf weight l ≤ remaining
        ∧ remaining < weightOf weight l + weight x ∧ RankAt root cursor (b ++ l) x (r ++ a)
  | 0, ref, frames, b, a, remaining, path, hlt =>
    ⟨_, [], ref.tree.leaf, [], rfl, by simp, by simp, by simpa using hlt,
      ref, by simpa using path, rfl, by simp⟩
  | h + 1, ref, frames, b, a, remaining, path, hlt => by
    obtain ⟨_, hplaced⟩ := path.placed
    obtain ⟨hw, hf⟩ := hplaced.wellFormed hroot
    obtain ⟨hb1, hb2⟩ := hplaced.bounded hroot
    rw [textLength_append] at hb1
    rw [length_append] at hb2
    obtain ⟨l, c, r, hsplit, hle, hlt', hpick⟩ := pickChild_ok hg 0
      (fun c hc => (hw.child hc).summary) hlt hb1 hb2
    obtain ⟨cursor, l', x, r', hrank, hfl, hle', hlt'', hat⟩ := rankedCursor_ok hg
      (path.enter hsplit)
      (show remaining - weightOf weight (leavesOf l) < weightOf weight (flatten h c.2) by omega)
    refine ⟨cursor, leavesOf l ++ l', x, r' ++ leavesOf r, ?_, ?_, ?_, ?_, by simpa using hat⟩
    · simp only [rankedCursor, loadSequenceNode_ok hw hf, ok_bind, hpick, zero_add]
      rw [textLength_append, length_append] at hrank
      rw [hrank, weightOf_append, Nat.sub_sub]
    · rw [flatten_succ, hsplit]
      simp [hfl]
    · rw [weightOf_append]; omega
    · rw [weightOf_append]; omega

/-- **A piece cursor rests on the leaf of its rank.** -/
theorem pieceCursor_ok {targetRank : ℕ} (hlt : targetRank < (flatten H root.tree).length) :
    ∃ cursor b x a, pieceCursor root targetRank = .ok cursor ∧ b.length = targetRank
      ∧ flatten H root.tree = b ++ x :: a ∧ RankAt root cursor b x a := by
  obtain ⟨cursor, b, x, a, hrank, hsplit, hle, hlt', hat⟩ :=
    rankedCursor_ok hroot gauges_holdsRank (.start : RankPath root H root [] [] [])
      (show targetRank < weightOf (fun _ => 1) (flatten H root.tree) by rwa [weightOf_pieces])
  rw [weightOf_pieces] at hle hlt'
  have hb : b.length = targetRank := by omega
  obtain ⟨ref, path, hx, hleaf⟩ := hat
  refine ⟨⟨cursor.frames, ⟨b.length, textLength b, ref.link, x⟩⟩, b, x, a, ?_, hb, hsplit, ref,
    by simpa using path, hx, rfl⟩
  rw [pieceCursor, hroot.wellFormed.summary.pieces, ensure_bind hlt]
  have hstart : rankedCursor holdsRank (·.pieceCount) H root targetRank 0 0 [] = .ok (cursor, _) :=
    hrank
  rw [hstart, ok_bind, hleaf, ← hb]
  rfl

/-- **A text cursor rests on the text leaf that holds its byte.** -/
theorem textCursor_ok (hlt : offset < textLength (flatten H root.tree)) :
    ∃ cursor b t a, textCursor root offset = .ok (some (cursor, offset - textLength b))
      ∧ flatten H root.tree = b ++ .text t :: a ∧ textLength b ≤ offset
      ∧ offset < textLength b + t.length ∧ RankAt root cursor b (.text t) a := by
  obtain ⟨cursor, b, x, a, hrank, hsplit, hle, hlt', hat⟩ :=
    rankedCursor_ok hroot gauges_holdsOffset (.start : RankPath root H root [] [] []) hlt
  obtain ⟨t, rfl⟩ : ∃ t, x = .text t := by
    cases x with
    | text t => exact ⟨t, rfl⟩
    | marker m => exact absurd hlt' (by simpa using hle)
  refine ⟨cursor, b, t, a, ?_, hsplit, hle, hlt', by simpa using hat⟩
  have hne : ¬ offset = root.link.logicalUtf8Bytes := by
    rw [hroot.wellFormed.summary.bytes]
    exact hlt.ne
  have hstart : rankedCursor holdsOffset (·.logicalUtf8Bytes) H root offset 0 0 []
      = .ok (cursor, offset - textLength b) := hrank
  rw [textCursor, if_neg hne, hstart]
  rfl

/-- A text cursor is made only for a byte of the document. -/
theorem lt_of_textCursor (hH : 1 ≤ H)
    {found : SequenceCursor × ℕ} (hok : textCursor root offset = .ok (some found)) :
    offset < textLength (flatten H root.tree) := by
  obtain ⟨h, rfl⟩ : ∃ h, H = h + 1 := ⟨H - 1, by omega⟩
  unfold textCursor at hok
  split at hok
  · simp at hok
  · simp only [rankedCursor, bind_eq_ok] at hok
    obtain ⟨_, ⟨node, hload, picked, hpick, -⟩, -⟩ := hok
    rw [loadSequenceNode_ok hroot.wellFormed (by rw [hroot.selected]; exact hroot.filled)] at hload
    cases hload
    exact lt_of_pickChild gauges_holdsOffset
      (fun c hc => (hroot.wellFormed.child hc).summary) hpick

end

end Beryl.Draft
