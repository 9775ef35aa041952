import Beryl.Draft.Sequence.Tree
import Beryl.Machinery.Search

/-!
# Draft/Read/Cursor — cursors over a sequence tree

A cursor is a leaf together with the stack of nodes above it, each frame remembering which child
was entered and the text and rank in front of the node.  `CursorPath` ties such a stack to the
flat list: the leaves before the subtree the stack points into, and the leaves after it.  Moving a
cursor is then a statement about that list — `advanceMatching` finds the next leaf that passes a
test, `retreatMatching` the previous one.  **Which leaf a move reaches does not depend on what the
frames have counted** (`DriftPath`), as long as the counters have room.
-/

namespace Beryl.Draft

open Fallible Search List

/-! ## Cursors -/

/-- `CursorFrame`: a node on the way to a leaf; `height` is that of its children. -/
structure CursorFrame where
  height : ℕ
  children : Links height
  index : ℕ
  anchor : ℕ
  rank : ℕ

/-- `LocatedLeaf`: a leaf with its rank and the text in front of it. -/
structure LocatedLeaf where
  rank : ℕ
  anchor : ℕ
  link : DraftPieceChild
  leaf : DraftPieceLeafValue

/-- `SequenceCursor`, innermost frame first. -/
structure SequenceCursor where
  frames : List CursorFrame
  leaf : LocatedLeaf

/-- The two running sums every traversal keeps: text and rank behind the children passed. -/
def passChildren {h : ℕ} : Links h → ℕ → ℕ → Prepared (ℕ × ℕ)
  | [], anchor, rank => .ok (anchor, rank)
  | child :: children, anchor, rank => do
    let anchor ← checkedAdd aggregateOverflow anchor child.1.logicalUtf8Bytes
    let rank ← checkedAdd aggregateOverflow rank child.1.pieceCount
    passChildren children anchor rank

/-- `descend_matching`: to the first leaf below `ref` that `accepts` leads to. -/
def descendMatching (accepts : DraftPieceChild → Bool) :
    (h : ℕ) → SequenceRef h → ℕ → ℕ → List CursorFrame → Prepared SequenceCursor
  | 0, ref, anchor, rank, frames => .ok ⟨frames, ⟨rank, anchor, ref.link, ref.tree.leaf⟩⟩
  | h + 1, ref, anchor, rank, frames => do
    let node ← loadSequenceNode ref
    let (index, child) ← required .invalidRoot (position (fun c => accepts c.1) node 0)
    let (childAnchor, childRank) ← passChildren (node.take index) anchor rank
    descendMatching accepts h ⟨child.1, child.2, false⟩ childAnchor childRank
      (⟨h, node, index, anchor, rank⟩ :: frames)

/-- `descend_matching_reverse`: to the last such leaf. -/
def descendMatchingReverse (accepts : DraftPieceChild → Bool) :
    (h : ℕ) → SequenceRef h → ℕ → ℕ → List CursorFrame → Prepared SequenceCursor
  | 0, ref, anchor, rank, frames => .ok ⟨frames, ⟨rank, anchor, ref.link, ref.tree.leaf⟩⟩
  | h + 1, ref, anchor, rank, frames => do
    let node ← loadSequenceNode ref
    let (index, child) ← required .invalidRoot (rposition (fun c => accepts c.1) node 0)
    let (childAnchor, childRank) ← passChildren (node.take index) anchor rank
    descendMatchingReverse accepts h ⟨child.1, child.2, false⟩ childAnchor childRank
      (⟨h, node, index, anchor, rank⟩ :: frames)

/-- `advance_matching`; `none` is the answer `false`, after which the cursor is spent. -/
def advanceMatching (accepts : DraftPieceChild → Bool) :
    List CursorFrame → Prepared (Option SequenceCursor)
  | [] => .ok none
  | frame :: frames => do
    let (anchor, rank) ←
      passChildren (frame.children.take (frame.index + 1)) frame.anchor frame.rank
    match position (fun c => accepts c.1) (frame.children.drop (frame.index + 1))
        (frame.index + 1) with
    | none => advanceMatching accepts frames
    | some (index, child) => do
      let (anchor, rank) ←
        passChildren ((frame.children.take index).drop (frame.index + 1)) anchor rank
      let cursor ← descendMatching accepts frame.height ⟨child.1, child.2, false⟩ anchor rank
        ({ frame with index } :: frames)
      return some cursor

/-- `retreat_matching`. -/
def retreatMatching (accepts : DraftPieceChild → Bool) :
    List CursorFrame → Prepared (Option SequenceCursor)
  | [] => .ok none
  | frame :: frames =>
    match rposition (fun c => accepts c.1) (frame.children.take frame.index) 0 with
    | none => retreatMatching accepts frames
    | some (index, child) => do
      let (anchor, rank) ← passChildren (frame.children.take index) frame.anchor frame.rank
      let cursor ← descendMatchingReverse accepts frame.height ⟨child.1, child.2, false⟩ anchor rank
        ({ frame with index } :: frames)
      return some cursor

/-- `last_matching_cursor`. -/
def lastMatchingCursor (accepts : DraftPieceChild → Bool) {h : ℕ} (ref : SequenceRef h) :
    Prepared (Option SequenceCursor) :=
  if accepts ref.link then do
    let cursor ← descendMatchingReverse accepts h ref 0 0 []
    return some cursor
  else .ok none

/-! ## Stacks of frames as places in the flat list -/

/-- The tree a read starts from. -/
structure WellFormedRoot {H : ℕ} (root : SequenceRef H) : Prop where
  wellFormed : WellFormed H root.link root.tree
  filled : Filled 1 H root.tree
  selected : root.selectedRoot = true
  bytes : root.link.logicalUtf8Bytes < u64Size
  pieces : root.link.pieceCount < u64Size

variable {H : ℕ} {root : SequenceRef H}

/-- `CursorPath root h ref frames b a`: the frames lead from the root to the subtree `ref`, with
the leaves `b` in front of it and `a` behind it. -/
inductive CursorPath (root : SequenceRef H) :
    (h : ℕ) → SequenceRef h → List CursorFrame → Leaves → Leaves → Prop
  | start : CursorPath root H root [] [] []
  | enter {h : ℕ} {ref : SequenceRef (h + 1)} {frames : List CursorFrame}
      {b a : Leaves} {l r : Links h} {c : Link h} (path : CursorPath root (h + 1) ref frames b a)
      (split : ref.tree.children = l ++ c :: r) :
      CursorPath root h ⟨c.1, c.2, false⟩
        (⟨h, ref.tree.children, l.length, textLength b, b.length⟩ :: frames)
        (b ++ leavesOf l) (leavesOf r ++ a)

variable {b a : Leaves} {frames : List CursorFrame} {h : ℕ} {ref : SequenceRef h}

/-- **A stack of frames splits the flat list.** -/
theorem CursorPath.flatten_eq (path : CursorPath root h ref frames b a) :
    flatten H root.tree = b ++ flatten h ref.tree ++ a := by
  induction path with
  | start => simp
  | enter path split ih => rw [ih, flatten_succ, split]; simp

variable (hroot : WellFormedRoot root) (path : CursorPath root h ref frames b a)
include hroot path

theorem CursorPath.wellFormed :
    WellFormed h ref.link ref.tree ∧ Filled (if ref.selectedRoot then 1 else 2) h ref.tree := by
  induction path with
  | start => exact ⟨hroot.wellFormed, by rw [hroot.selected]; exact hroot.filled⟩
  | enter path split ih =>
    exact ⟨ih.1.child (by rw [split]; simp), (ih.1.2 _ (by rw [split]; simp)).1⟩

/-- The text and the leaves up to the end of the subtree a stack leads to fit in a `u64`. -/
theorem CursorPath.bounded : textLength (b ++ flatten h ref.tree) < u64Size
      ∧ (b ++ flatten h ref.tree).length < u64Size := by
  have hs := hroot.wellFormed.summary
  have h1 := hs.bytes ▸ hroot.bytes
  have h2 := hs.pieces ▸ hroot.pieces
  rw [path.flatten_eq] at h1 h2
  simp only [textLength_append, length_append] at h1 h2 ⊢
  omega

omit hroot path

/-- Passing well-formed children adds up their text and their leaves. -/
theorem passChildren_ok : ∀ {children}
    {anchor rank}, (∀ c ∈ children, Summarizes c.1 (flatten h c.2)) →
    anchor + textLength (leavesOf children) < u64Size →
    rank + (leavesOf children).length < u64Size → passChildren children anchor rank
      = .ok (anchor + textLength (leavesOf children), rank + (leavesOf children).length)
  | [], _, _, _, _, _ => rfl
  | c :: cs, anchor, rank, hs, ha, hr => by
    have hc := hs c (by simp)
    simp only [leavesOf_cons, textLength_append, length_append] at ha hr ⊢
    have h1 : anchor + c.1.logicalUtf8Bytes < u64Size := by rw [hc.bytes]; omega
    have h2 : rank + c.1.pieceCount < u64Size := by rw [hc.pieces]; omega
    simp only [passChildren, checkedAdd_of_lt h1, checkedAdd_of_lt h2, ok_bind]
    rw [passChildren_ok (fun d hd => hs d (mem_cons_of_mem _ hd))
      (by rw [hc.bytes]; omega) (by rw [hc.pieces]; omega), hc.bytes, hc.pieces]
    simp only [add_assoc]

/-- A cursor rests on the leaf `x` of the flat list, between `b` and `a`. -/
def CursorAt (root : SequenceRef H) (cursor : SequenceCursor) (b : Leaves)
    (x : DraftPieceLeafValue) (a : Leaves) : Prop :=
  ∃ ref : SequenceRef 0, CursorPath root 0 ref cursor.frames b a ∧ ref.tree.leaf = x
    ∧ cursor.leaf = ⟨b.length, textLength b, ref.link, x⟩

variable {x : DraftPieceLeafValue} {cursor : SequenceCursor}

theorem CursorAt.flatten_eq (hc : CursorAt root cursor b x a) :
    flatten H root.tree = b ++ x :: a := by
  obtain ⟨ref, path, rfl, -⟩ := hc
  rw [path.flatten_eq]
  simp

theorem CursorAt.loadSequenceLeaf (hroot : WellFormedRoot root) (hc : CursorAt root cursor b x a) :
    loadSequenceLeaf cursor.leaf.link cursor.leaf.leaf = .ok x := by
  obtain ⟨ref, path, rfl, hleaf⟩ := hc
  rw [hleaf]
  exact loadSequenceLeaf_ok (path.wellFormed hroot).1

/-! ## Moving -/

/-- A test on links reads a test on leaves: it accepts a link exactly when a leaf below passes. -/
def Reads (accepts : DraftPieceChild → Bool) (p : DraftPieceLeafValue → Prop) : Prop :=
  ∀ link leaves, Summarizes link leaves → (accepts link = true ↔ ∃ x ∈ leaves, p x)

variable {accepts : DraftPieceChild → Bool} {p : DraftPieceLeafValue → Prop} {children : Links h}

theorem Reads.leavesOf_free (hp : Reads accepts p)
    (hs : ∀ c ∈ children, Summarizes c.1 (flatten h c.2))
    (hfree : ∀ c ∈ children, accepts c.1 = false) : ∀ x ∈ leavesOf children, ¬ p x := by
  intro x hx hpx
  obtain ⟨c, hc, hxc⟩ := mem_flatMap.mp hx
  exact absurd ((hp _ _ (hs c hc)).mpr ⟨x, hxc, hpx⟩) (by simp [hfree c hc])

/-! ## Stacks that have lost count

A frame may say more than the text and the pieces in front of its node: then every position a move
computes through it is ahead by the same amount.  Which leaf a move reaches depends on the links
alone, so the moves are described once, for stacks whose frames are ahead by any amounts in `D`; an
exact stack is one where all of them are zero. -/

/-- The counters of a frame have room for every child a move may enter: up to the last child with a
leaf searched for, and up to the child entered last. -/
def Covered (p : DraftPieceLeafValue → Prop) {h : ℕ}
    (children : Links h) (index anchor rank : ℕ) : Prop :=
  ∃ u v, children = u ++ v ∧ index < u.length ∧ (∀ x ∈ leavesOf v, ¬ p x)
    ∧ anchor + textLength (leavesOf u) < u64Size ∧ rank + (leavesOf u).length < u64Size

/-- `DriftPath D p root h ref frames b a`: the frames lead from the root to the subtree `ref`,
between the leaves `b` and `a`, and each is ahead of its node by an amount in `D`. -/
inductive DriftPath (D : ℕ → ℕ → Prop) (p : DraftPieceLeafValue → Prop) (root : SequenceRef H) :
    (h : ℕ) → SequenceRef h → List CursorFrame → Leaves → Leaves → Prop
  | start : DriftPath D p root H root [] [] []
  | enter {h : ℕ} {ref : SequenceRef (h + 1)} {frames : List CursorFrame}
      {b a : Leaves} {l r : Links h} {c : Link h} {d e : ℕ}
      (path : DriftPath D p root (h + 1) ref frames b a)
      (split : ref.tree.children = l ++ c :: r) (ahead : D d e)
      (room : Covered p ref.tree.children l.length (textLength b + d) (b.length + e)) :
      DriftPath D p root h ⟨c.1, c.2, false⟩
        (⟨h, ref.tree.children, l.length, textLength b + d, b.length + e⟩ :: frames)
        (b ++ leavesOf l) (leavesOf r ++ a)

/-- A cursor rests on the leaf `x`, between `b` and `a`; its own position is ahead by an amount in
`D`. -/
def DriftAt (D : ℕ → ℕ → Prop) (p : DraftPieceLeafValue → Prop) (root : SequenceRef H)
    (cursor : SequenceCursor) (b : Leaves) (x : DraftPieceLeafValue) (a : Leaves) : Prop :=
  ∃ (ref : SequenceRef 0) (d e : ℕ), DriftPath D p root 0 ref cursor.frames b a
    ∧ ref.tree.leaf = x ∧ D d e ∧ cursor.leaf = ⟨b.length + e, textLength b + d, ref.link, x⟩

section

variable {D : ℕ → ℕ → Prop}

/-- A stack that has lost count stands where an exact one does. -/
theorem DriftPath.placed (path : DriftPath D p root h ref frames b a) :
    ∃ frames', CursorPath root h ref frames' b a := by
  induction path with
  | start => exact ⟨_, .start⟩
  | enter path split ahead room ih =>
    obtain ⟨frames', path'⟩ := ih
    exact ⟨_, path'.enter split⟩

theorem DriftPath.wellFormed (hroot : WellFormedRoot root)
    (path : DriftPath D p root h ref frames b a) :
    WellFormed h ref.link ref.tree ∧ Filled (if ref.selectedRoot then 1 else 2) h ref.tree := by
  obtain ⟨_, hplaced⟩ := path.placed
  exact hplaced.wellFormed hroot

/-- The leaf under a cursor loads, wherever the cursor believes to be. -/
theorem DriftAt.loadSequenceLeaf (hroot : WellFormedRoot root)
    (hat : DriftAt D p root cursor b x a) :
    loadSequenceLeaf cursor.leaf.link cursor.leaf.leaf = .ok x := by
  obtain ⟨ref, d, e, path, rfl, -, hleaf⟩ := hat
  rw [hleaf]
  exact loadSequenceLeaf_ok (path.wellFormed hroot).1

variable {index : ℕ} {c : Link h} {m r : Links h}

/-- A frame has room for the children up to one that a move may enter, and keeps it there. -/
theorem Covered.at_child {anchor rank : ℕ}
    (room : Covered p children index anchor rank) (split : children = m ++ c :: r)
    (hc : m.length ≤ index ∨ ∃ x ∈ flatten h c.2, p x) :
    anchor + textLength (leavesOf (m ++ [c])) < u64Size
      ∧ rank + (leavesOf (m ++ [c])).length < u64Size
          ∧ Covered p children m.length anchor rank := by
  obtain ⟨u, v, rfl, hi, hv, hbytes, hpcs⟩ := room
  have hlt : m.length < u.length := by
    by_contra hge
    obtain ⟨mid, -, hmid⟩ := append_split split (by omega)
    rcases hc with hle | ⟨x, hx, hpx⟩
    · omega
    · exact hv x (by rw [hmid]; simp [hx]) hpx
  have happ : (m ++ [c]) ++ r = u ++ v := by simp [split]
  obtain ⟨w, rfl, -⟩ := append_split happ (by rw [length_append]; exact hlt)
  refine ⟨?_, ?_, _, _, rfl, hlt, hv, hbytes, hpcs⟩
  · rw [leavesOf_append, textLength_append] at hbytes
    omega
  · rw [leavesOf_append, length_append] at hpcs
    omega

theorem passChildren_append : ∀ (u v : Links h) (anchor rank : ℕ), passChildren (u ++ v) anchor rank
      = passChildren u anchor rank >>= fun passed => passChildren v passed.1 passed.2
  | [], _, _, _ => rfl
  | c :: u, v, anchor, rank => by
    simp only [cons_append, passChildren, bind_assoc, passChildren_append u v]

/-- The counters of a position ahead by `d` bytes and `e` pieces have room for some leaves. -/
def HasRoom (b leaves : Leaves) (d e : ℕ) : Prop :=
  textLength b + d + textLength leaves < u64Size ∧ b.length + e + leaves.length < u64Size

variable {d e : ℕ}

/-- **Entering a child** that its frame has room for: the counters move to its front, still ahead by
the same amount, and have room for it. -/
theorem Covered.enter {ref : SequenceRef (h + 1)} (hw : WellFormed (h + 1) ref.link ref.tree)
    (room : Covered p ref.tree.children index (textLength b + d) (b.length + e))
    (split : ref.tree.children = m ++ c :: r) (hc : m.length ≤ index ∨ ∃ x ∈ flatten h c.2, p x) :
    passChildren m (textLength b + d) (b.length + e)
        = .ok (textLength (b ++ leavesOf m) + d, (b ++ leavesOf m).length + e)
      ∧ Covered p ref.tree.children m.length (textLength b + d) (b.length + e)
      ∧ HasRoom (b ++ leavesOf m) (flatten h c.2) d e := by
  obtain ⟨hbytes, hpcs, hroom⟩ := room.at_child split hc
  simp only [HasRoom, leavesOf_append, leavesOf_cons, leavesOf_nil, append_nil,
    textLength_append, length_append] at hbytes hpcs ⊢
  refine ⟨?_, hroom, by omega, by omega⟩
  rw [passChildren_ok (fun x hx => (hw.child (by rw [split]; simp [hx])).summary) (by omega)
    (by omega), add_right_comm (textLength b), add_right_comm b.length]

/-- A node that is entered whole has room for all of its children. -/
theorem HasRoom.covered {ref : SequenceRef (h + 1)}
    (hroom : HasRoom b (flatten (h + 1) ref.tree) d e)
    (split : ref.tree.children = m ++ c :: r) :
    Covered p ref.tree.children m.length (textLength b + d) (b.length + e) :=
  ⟨ref.tree.children, [], by simp, by rw [split]; simp, by simp, hroom.1, hroom.2⟩

section

variable (hroot : WellFormedRoot root) (hp : Reads accepts p)
include hroot hp

/-- **A move into an accepted child** of a node on the stack. -/
theorem DriftPath.into {ref : SequenceRef (h + 1)} (hD : D d e)
    (path : DriftPath D p root (h + 1) ref frames b a)
    (room : Covered p ref.tree.children index (textLength b + d) (b.length + e)) {l r : Links h}
    (split : ref.tree.children = l ++ c :: r) (hc : accepts c.1 = true) :
    passChildren l (textLength b + d) (b.length + e)
        = .ok (textLength (b ++ leavesOf l) + d, (b ++ leavesOf l).length + e)
      ∧ DriftPath D p root h ⟨c.1, c.2, false⟩
        (⟨h, ref.tree.children, l.length, textLength b + d, b.length + e⟩ :: frames)
        (b ++ leavesOf l) (leavesOf r ++ a)
      ∧ HasRoom (b ++ leavesOf l) (flatten h c.2) d e ∧ ∃ x ∈ flatten h c.2, p x := by
  have hw := (path.wellFormed hroot).1
  have hsub := (hp _ _ (hw.summaries c (by rw [split]; simp))).mp hc
  obtain ⟨hpass, hcovered, hroom⟩ := room.enter hw split (.inr hsub)
  exact ⟨hpass, path.enter split hD hcovered, hroom, hsub⟩

/-- **Descending finds the first leaf below that passes**, and in reverse the last one. -/
theorem DriftPath.descends (hD : D d e) : ∀ {h} {ref} {frames} {b a},
      DriftPath D p root h ref frames b a → HasRoom b (flatten h ref.tree) d e →
      (∃ x ∈ flatten h ref.tree, p x) → (∃ cursor l x r,
        descendMatching accepts h ref (textLength b + d) (b.length + e) frames = .ok cursor
        ∧ IsFirst p (flatten h ref.tree) l x r ∧ DriftAt D p root cursor (b ++ l) x (r ++ a))
      ∧ ∃ cursor l x r,
        descendMatchingReverse accepts h ref (textLength b + d) (b.length + e) frames = .ok cursor
        ∧ IsLast p (flatten h ref.tree) l x r ∧ DriftAt D p root cursor (b ++ l) x (r ++ a)
  | 0, ref, frames, b, a, path, _, hex => by
    obtain ⟨x, hx, hpx⟩ := hex
    obtain rfl := mem_singleton.mp hx
    constructor <;>
      exact ⟨_, [], ref.tree.leaf, [], rfl, ⟨by simp, hpx, by simp⟩,
        ref, d, e, by simpa using path, rfl, hD, by simp⟩
  | h + 1, ref, frames, b, a, path, hroom, hex => by
    obtain ⟨hw, hf⟩ := path.wellFormed hroot
    have hex : ∃ c ∈ ref.tree.children, accepts c.1 = true := by
      obtain ⟨x, hx, hpx⟩ := hex
      obtain ⟨c, hc, hxc⟩ := mem_flatMap.mp hx
      exact ⟨c, hc, (hp _ _ (hw.summaries c hc)).mpr ⟨x, hxc, hpx⟩⟩
    constructor
    · obtain ⟨i, c, hpos⟩ := exists_position_eq_some hex 0
      obtain ⟨l, r, hsplit, rfl, hc, hl⟩ := position_eq_some hpos
      have htake : ref.tree.children.take l.length = l := by simp [hsplit]
      obtain ⟨hpass, hpath, hroom', hsub⟩ := path.into hroot hp hD (hroom.covered hsplit) hsplit hc
      obtain ⟨cursor, l', x, r', hdesc, hfirst, hat⟩ := (DriftPath.descends hD hpath hroom' hsub).1
      refine ⟨cursor, leavesOf l ++ l', x, r' ++ leavesOf r, ?_, ?_, by simpa using hat⟩
      · simp only [descendMatching, loadSequenceNode_ok hw hf, ok_bind, hpos, required_some,
          zero_add, htake, hpass]
        exact hdesc
      · have hfree := hp.leavesOf_free (fun d hd => hw.summaries d (by rw [hsplit]; simp [hd])) hl
        rw [flatten_succ, hsplit]
        simpa using hfirst.within hfree (leavesOf r)
    · obtain ⟨i, c, hpos⟩ := exists_rposition_eq_some hex 0
      obtain ⟨l, r, hsplit, rfl, hc, hr⟩ := rposition_eq_some hpos
      have htake : ref.tree.children.take l.length = l := by simp [hsplit]
      obtain ⟨hpass, hpath, hroom', hsub⟩ := path.into hroot hp hD (hroom.covered hsplit) hsplit hc
      obtain ⟨cursor, l', x, r', hdesc, hlast, hat⟩ := (DriftPath.descends hD hpath hroom' hsub).2
      refine ⟨cursor, leavesOf l ++ l', x, r' ++ leavesOf r, ?_, ?_, by simpa using hat⟩
      · simp only [descendMatchingReverse, loadSequenceNode_ok hw hf, ok_bind, hpos, required_some,
          zero_add, htake, hpass]
        exact hdesc
      · have hfree := hp.leavesOf_free (fun d hd => hw.summaries d (by rw [hsplit]; simp [hd])) hr
        rw [flatten_succ, hsplit]
        simpa using hlast.within (leavesOf l) hfree

/-- **Advancing finds the next leaf that passes**, behind the subtree the stack leads to, or reports
that there is none. -/
theorem DriftPath.advance (path : DriftPath D p root h ref frames b a) :
    (∃ cursor l x r, advanceMatching accepts frames = .ok (some cursor) ∧ IsFirst p a l x r
        ∧ DriftAt D p root cursor (b ++ flatten h ref.tree ++ l) x r)
      ∨ advanceMatching accepts frames = .ok none ∧ ∀ x ∈ a, ¬ p x := by
  induction path with
  | start => exact .inr ⟨rfl, by simp⟩
  | @enter h ref frames b a l r c d e path split ahead room ih =>
    have hs := (path.wellFormed hroot).1.summaries
    obtain ⟨hbytes, hpcs, -⟩ := room.at_child split (.inl le_rfl)
    have hsplit : ref.tree.children = (l ++ [c]) ++ r := by simp [split]
    have htake : ref.tree.children.take (l.length + 1) = l ++ [c] := by
      rw [hsplit, take_left' (by simp)]
    have hdrop : ref.tree.children.drop (l.length + 1) = r := by simp [split]
    have hpass := passChildren_ok (fun d hd => hs d (by rw [hsplit]; exact mem_append_left r hd))
      hbytes hpcs
    cases hpos : position (fun d => accepts d.1) r (l.length + 1) with
    | none =>
      -- nothing left below this node: the search goes on one frame up
      have hfree := hp.leavesOf_free (fun d hd => hs d (by rw [split]; simp [hd]))
        (position_eq_none.mp hpos)
      simp only [advanceMatching, htake, hpass, ok_bind, hdrop, hpos]
      refine ih.imp ?_ (.imp_right (not_mem_append hfree))
      rintro ⟨cursor, l', x, r', hadv, hfirst, hat⟩
      rw [flatten_succ, split] at hat
      exact ⟨cursor, leavesOf r ++ l', x, r', hadv, by simpa using hfirst.within hfree [],
        by simpa using hat⟩
    | some found =>
      obtain ⟨index, c'⟩ := found
      obtain ⟨r₁, r₂, rfl, rfl, hc', hr₁⟩ := position_eq_some hpos
      have hsplit' : ref.tree.children = (l ++ c :: r₁) ++ c' :: r₂ := by simp [split]
      obtain ⟨hpass', hpath, hroom, hsub⟩ := path.into hroot hp ahead room hsplit' hc'
      rw [show l ++ c :: r₁ = (l ++ [c]) ++ r₁ by simp, passChildren_append, hpass, ok_bind]
        at hpass'
      have htake' : (ref.tree.children.take (l.length + 1 + r₁.length)).drop (l.length + 1) =
          r₁ := by
        rw [hsplit, show l.length + 1 = (l ++ [c]).length by simp, take_length_add_append,
          take_left, drop_left]
      obtain ⟨cursor, l', x, r', hdesc, hfirst, hat⟩ := (hpath.descends hroot hp ahead hroom hsub).1
      have hfree := hp.leavesOf_free (fun e he => hs e (by rw [split]; simp [he])) hr₁
      refine .inl ⟨cursor, leavesOf r₁ ++ l', x, r' ++ (leavesOf r₂ ++ a), ?_, ?_,
        by simpa using hat⟩
      · simp only [advanceMatching, htake, hpass, ok_bind, hdrop, hpos, htake', hpass']
        rw [show l.length + 1 + r₁.length = (l ++ c :: r₁).length by simp; omega,
          show l ++ [c] ++ r₁ = l ++ c :: r₁ by simp, hdesc]
        rfl
      · simpa using hfirst.within hfree (leavesOf r₂ ++ a)

/-- **Retreating finds the previous leaf that passes**, or reports that there is none. -/
theorem DriftPath.retreat (path : DriftPath D p root h ref frames b a) :
    (∃ cursor l x r, retreatMatching accepts frames = .ok (some cursor) ∧ IsLast p b l x r
        ∧ DriftAt D p root cursor l x (r ++ flatten h ref.tree ++ a))
      ∨ retreatMatching accepts frames = .ok none ∧ ∀ x ∈ b, ¬ p x := by
  induction path with
  | start => exact .inr ⟨rfl, by simp⟩
  | @enter h ref frames b a l r c d e path split ahead room ih =>
    have hs := (path.wellFormed hroot).1.summaries
    have htake : ref.tree.children.take l.length = l := by simp [split]
    cases hpos : rposition (fun d => accepts d.1) l 0 with
    | none =>
      have hfree := hp.leavesOf_free (fun d hd => hs d (by rw [split]; simp [hd]))
        (rposition_eq_none.mp hpos)
      simp only [retreatMatching, htake, hpos]
      refine ih.imp ?_ (.imp_right fun hb => not_mem_append hb hfree)
      rintro ⟨cursor, l', x, r', hret, hlast, hat⟩
      rw [flatten_succ, split] at hat
      exact ⟨cursor, l', x, r' ++ leavesOf l, hret, by simpa using hlast.within [] hfree,
        by simpa using hat⟩
    | some found =>
      obtain ⟨index, c'⟩ := found
      obtain ⟨l₁, l₂, rfl, rfl, hc', hl₂⟩ := rposition_eq_some hpos
      have hsplit : ref.tree.children = l₁ ++ c' :: (l₂ ++ c :: r) := by simp [split]
      obtain ⟨hpass, hpath, hroom, hsub⟩ := path.into hroot hp ahead room hsplit hc'
      have htake' : ref.tree.children.take l₁.length = l₁ := by simp [hsplit]
      obtain ⟨cursor, l', x, r', hdesc, hlast, hat⟩ := (hpath.descends hroot hp ahead hroom hsub).2
      have hfree := hp.leavesOf_free (fun e he => hs e (by rw [split]; simp [he])) hl₂
      refine .inl ⟨cursor, b ++ leavesOf l₁ ++ l', x, r' ++ leavesOf l₂, ?_, ?_, by simpa using hat⟩
      · simp only [retreatMatching, htake, hpos, zero_add, htake', hpass, ok_bind, hdesc]
        rfl
      · simpa using hlast.within (b ++ leavesOf l₁) hfree

end

end

/-! ## Exact stacks -/

/-- No drift at all. -/
def Level (d e : ℕ) : Prop := d = 0 ∧ e = 0

variable (hroot : WellFormedRoot root) (path : CursorPath root h ref frames b a)
include hroot path

theorem CursorPath.hasRoom : HasRoom b (flatten h ref.tree) 0 0 := by
  obtain ⟨h1, h2⟩ := path.bounded hroot
  rw [textLength_append] at h1
  rw [length_append] at h2
  exact ⟨h1, h2⟩

theorem CursorPath.level : DriftPath Level p root h ref frames b a := by
  induction path with
  | start => exact .start
  | enter path split ih => exact ih.enter split ⟨rfl, rfl⟩ ((path.hasRoom hroot).covered split)

omit hroot path

theorem DriftPath.exact (path : DriftPath Level p root h ref frames b a) :
    CursorPath root h ref frames b a := by
  induction path with
  | start => exact .start
  | enter path split ahead room ih =>
    obtain ⟨rfl, rfl⟩ := ahead
    exact ih.enter split

theorem DriftAt.exact (hat : DriftAt Level p root cursor b x a) : CursorAt root cursor b x a := by
  obtain ⟨ref, d, e, path, hx, ⟨rfl, rfl⟩, hleaf⟩ := hat
  exact ⟨ref, path.exact, hx, hleaf⟩

variable (hroot : WellFormedRoot root) (hp : Reads accepts p)
  (path : CursorPath root h ref frames b a)
include hroot hp path

theorem CursorPath.descendReverse (hex : ∃ x ∈ flatten h ref.tree, p x) : ∃ cursor l x r,
      descendMatchingReverse accepts h ref (textLength b) b.length frames = .ok cursor
      ∧ IsLast p (flatten h ref.tree) l x r ∧ CursorAt root cursor (b ++ l) x (r ++ a) := by
  obtain ⟨cursor, l, x, r, hdesc, hlast, hat⟩ :=
    ((path.level hroot).descends hroot hp (d := 0) (e := 0) ⟨rfl, rfl⟩ (path.hasRoom hroot) hex).2
  exact ⟨cursor, l, x, r, hdesc, hlast, hat.exact⟩

theorem CursorPath.advance :
    (∃ cursor l x r, advanceMatching accepts frames = .ok (some cursor) ∧ IsFirst p a l x r
        ∧ CursorAt root cursor (b ++ flatten h ref.tree ++ l) x r)
      ∨ advanceMatching accepts frames = .ok none ∧ ∀ x ∈ a, ¬ p x := by
  refine ((path.level hroot).advance hroot hp).imp_left ?_
  rintro ⟨cursor, l, x, r, hadv, hfirst, hat⟩
  exact ⟨cursor, l, x, r, hadv, hfirst, hat.exact⟩

theorem CursorPath.retreat :
    (∃ cursor l x r, retreatMatching accepts frames = .ok (some cursor) ∧ IsLast p b l x r
        ∧ CursorAt root cursor l x (r ++ flatten h ref.tree ++ a))
      ∨ retreatMatching accepts frames = .ok none ∧ ∀ x ∈ b, ¬ p x := by
  refine ((path.level hroot).retreat hroot hp).imp_left ?_
  rintro ⟨cursor, l, x, r, hret, hlast, hat⟩
  exact ⟨cursor, l, x, r, hret, hlast, hat.exact⟩

end Beryl.Draft
