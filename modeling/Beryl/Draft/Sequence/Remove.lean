import Beryl.Draft.Sequence.Insert

/-!
# Draft/Sequence/Remove — editing one leaf of a sequence tree

A leaf is rewritten or taken out.  A node left without children disappears, a node left with one
child hands it to a sibling, and a root left with one child gives way to it.  **The leaves of the
result are the old ones with the leaf replaced by what the edit leaves of it**, and again only
disorder or want of room can stop the edit (`editLeaf_meets`).
-/

namespace Beryl.Draft

open Fallible Search List

/-! ## The edit -/

/-- `EditedSequence`: what an edit leaves of a tree of height `h`.  An underfull node is of the
tree's own height or, under a root with one child, of the height below. -/
inductive EditedSequence : ℕ → Type
  | empty {h : ℕ} : EditedSequence h
  | tree {h : ℕ} (ref : SequenceRef h) : EditedSequence h
  | underfull {h : ℕ} (children : Links h) : EditedSequence (h + 1)
  | lowered {h : ℕ} (children : Links h) : EditedSequence (h + 2)

/-- The position of `edit_leaf`: the child that holds the leaf of a rank. -/
def selectRank {h : ℕ} : Links h → ℕ → ℕ → Links h → Prepared (Selected h)
  | _, _, _, [] => .error .invalidRoot
  | passed, remaining, units, child :: rest =>
    if remaining < child.1.pieceCount then .ok ⟨passed, child, rest, remaining, units⟩
    else selectRank (passed ++ [child]) (remaining - child.1.pieceCount)
      (units + linkExtent child.1) rest

/-- The closing match of `edit_leaf` on the number of children left. -/
def closeNode {h : ℕ} (children : Links h) : Prepared (EditedSequence (h + 1)) :=
  match children with
  | [] => .ok .empty
  | [child] => .ok (.underfull [child])
  | children => do
    let ref ← newSequenceNode children
    return .tree ref

/-- The middle of `edit_leaf`: the edited child goes back among its siblings. -/
def absorb {h : ℕ} (selectedRoot : Bool) (passed rest : Links h) :
    EditedSequence h → Prepared (EditedSequence (h + 1))
  | .empty => closeNode (passed ++ rest)
  | .tree ref => closeNode (passed ++ ref.linked :: rest)
  | .underfull lone => do
    ensure (lone.length = 1) .invalidRoot
    match passed.getLast?, rest with
    | none, [] => if selectedRoot then return .lowered lone else .error .invalidRoot
    | none, sibling :: rest =>
      let theirs ← loadSequenceNode ⟨sibling.1, sibling.2, false⟩
      let refs ← packChildren newSequenceNode (lone ++ theirs)
      closeNode (refs.map SequenceRef.linked ++ rest)
    | some sibling, rest =>
      let theirs ← loadSequenceNode ⟨sibling.1, sibling.2, false⟩
      let refs ← packChildren newSequenceNode (theirs ++ lone)
      closeNode (passed.dropLast ++ refs.map SequenceRef.linked ++ rest)
  | .lowered _ => .error .invalidRoot

/-- `edit_leaf`, with what happens at the leaf as a parameter: the new value, if any is left. -/
def editLeaf (edit : DraftPieceLeafValue → ℕ → Prepared (Option DraftPieceLeafValue)) :
    (h : ℕ) → SequenceRef h → ℕ → ℕ → Prepared (EditedSequence h)
  | 0, tree, rank, prefixUnits => do
    ensure (rank = 0) .invalidRoot
    let leaf ← loadSequenceLeaf tree.link tree.tree.leaf
    match ← edit leaf prefixUnits with
    | none => return .empty
    | some value => return .tree (newSequenceLeaf value)
  | h + 1, tree, rank, prefixUnits => do
    let children ← loadSequenceNode tree
    let selected ← selectRank [] rank prefixUnits children
    let edited ← editLeaf edit h selected.ref selected.rank selected.units
    absorb tree.selectedRoot selected.passed selected.rest edited

/-- What `edit_leaf` does to a text: a slice is cut out. -/
def removeSlice (mapping : MappingStage) (start : ℕ) (stop : Option ℕ) :
    DraftPieceLeafValue → ℕ → Prepared (Option DraftPieceLeafValue)
  | .marker _, _ => .error .invalidRoot
  | .text text, prefixUnits => do
    let stop := stop.getD text.length
    ensure (start < stop ∧ stop ≤ text.length ∧ isCharBoundary text start = true
      ∧ isCharBoundary text stop = true) invalidUtf8Boundary
    if start = 0 ∧ stop = text.length then
      verifySplice mapping ⟨.textDelete, prefixUnits, stop - start, 0⟩
      return none
    else
      verifySplice mapping ⟨.textDelete, prefixUnits + start, stop - start, 0⟩
      return some (.text (text.take start ++ text.drop stop))

/-- `finish_edit`. -/
def finishEdit {h : ℕ} : EditedSequence h → Prepared WorkingSequence
  | .empty => .ok none
  | .tree ref => .ok (some ⟨h, ref⟩)
  | .underfull [child] => .ok (some ⟨_, ⟨child.1, child.2, true⟩⟩)
  | .lowered [child] => .ok (some ⟨_, ⟨child.1, child.2, true⟩⟩)
  | .underfull _ => .error .invalidRoot
  | .lowered _ => .error .invalidRoot

/-- The order of `Boundary`: rank first. -/
instance : LT Boundary := ⟨fun a b => a.rank < b.rank ∨ a.rank = b.rank ∧ a.inner < b.inner⟩

theorem Boundary.lt_iff {a b : Boundary} :
    a < b ↔ a.rank < b.rank ∨ a.rank = b.rank ∧ a.inner < b.inner := .rfl

instance (a b : Boundary) : Decidable (a < b) :=
  decidable_of_iff _ Boundary.lt_iff.symm

/-- The last slice of a range of text: its leaf, its ends in the leaf, and the range that is left.
-/
structure TailSlice where
  rank : ℕ
  first : ℕ
  last : Option ℕ
  nextStart : Boundary
  nextEnd : Boundary
  deriving DecidableEq

/-- The choice `remove_text_slice` makes between the ends of a range. -/
def tailSlice (start stop : Boundary) : Prepared TailSlice :=
  if 0 < stop.inner then
    if stop.rank = start.rank then .ok ⟨stop.rank, start.inner, some stop.inner, start, start⟩
    else .ok ⟨stop.rank, 0, some stop.inner, start, ⟨stop.rank, 0⟩⟩
  else do
    let rank ← checkedSub .invalidRoot stop.rank 1
    ensure (start.rank ≤ rank) .invalidRoot
    if rank = start.rank ∧ 0 < start.inner then
      return ⟨rank, start.inner, none, ⟨stop.rank, 0⟩, ⟨stop.rank, 0⟩⟩
    else return ⟨rank, 0, none, start, ⟨rank, 0⟩⟩

/-- `remove_text_slice`. -/
def removeTextSlice {h : ℕ} (mapping : MappingStage) (tree : SequenceRef h)
    (start stop : Boundary) : Prepared (WorkingSequence × Boundary × Boundary) := do
  ensure (start < stop) .invalidRoot
  let slice ← tailSlice start stop
  let edited ← editLeaf (removeSlice mapping slice.first slice.last) h tree slice.rank 0
  let sequence ← finishEdit edited
  return (sequence, slice.nextStart, slice.nextEnd)

/-- `compress_sequence_root`: a root with one child that is no leaf gives way to it. -/
def compressSequenceRoot : (h : ℕ) → SequenceRef h → Prepared (Σ h, SequenceRef h)
  | 0, ref => .ok ⟨0, ref⟩
  | 1, ref => .ok ⟨1, ref⟩
  | h + 2, ref => do
    match ← loadSequenceNode ref with
    | [child] => compressSequenceRoot (h + 1) ⟨child.1, child.2, true⟩
    | _ => return ⟨h + 2, ref⟩

/-- The sequence part of `build_roots`: compressed, and a lone leaf under a node. -/
def rootSequence : WorkingSequence → Prepared WorkingSequence
  | none => .ok none
  | some ⟨h, ref⟩ => do
    match ← compressSequenceRoot h ref with
    | ⟨0, leaf⟩ =>
      let root ← newSequenceNode [leaf.linked]
      return some ⟨1, root⟩
    | root => return some root

/-! ## What the edit does to the leaves -/

section

variable {h : ℕ} {x : DraftPieceLeafValue} {edited : EditedSequence h} {leaves : Leaves}

/-- The leaves an edit leaves, in the shape its result promises. -/
def EditedSequence.Over : {h : ℕ} → EditedSequence h → Leaves → Prop
  | _, .empty, leaves => leaves = []
  | h, .tree ref, leaves => flatten h ref.tree = leaves ∧ Standing ref.linked
      ∧ ref.selectedRoot = true
  | h + 1, .underfull children, leaves => ∃ c, children = [c] ∧ Standing c ∧ flatten h c.2 = leaves
  | h + 2, .lowered children, leaves => ∃ c, children = [c] ∧ Standing c ∧ flatten h c.2 = leaves

/-- Only a root is edited into a node two levels down. -/
def EditedSequence.Level : {h : ℕ} → EditedSequence h → Prop
  | _, .lowered _ => False
  | _, _ => True

/-- The position finds the leaf of a rank, with what stands in front of it. -/
theorem selectRank_eq_ok {base : ℕ} : ∀ {rest passed} {remaining units}
      {l r}, (∀ c ∈ rest, Summarizes c.1 (flatten h c.2)) →
      leavesOf rest = l ++ x :: r → l.length = remaining →
      units = base + (unitsOf (leavesOf passed)).length →
      ∃ selected, selectRank passed remaining units rest = .ok selected
        ∧ selected.passed ++ selected.child :: selected.rest = passed ++ rest
        ∧ selected.units = base + (unitsOf (leavesOf selected.passed)).length
        ∧ ∃ l' r', flatten h selected.child.2 = l' ++ x :: r' ∧ selected.rank = l'.length
          ∧ leavesOf passed ++ l = leavesOf selected.passed ++ l' ∧ r = r' ++ leavesOf selected.rest
  | [], _, _, _, _, _, _, hsplit, _, _ => by simp at hsplit
  | c :: cs, passed, remaining, units, l, r, hs, hsplit, hlen, hunits => by
    have hc := hs c (by simp)
    rw [leavesOf_cons] at hsplit
    by_cases hlt : remaining < (flatten h c.2).length
    · obtain ⟨mid, hmid, hrest⟩ := append_split hsplit.symm (by omega)
      cases mid with
      | nil =>
        rw [append_nil] at hmid
        rw [hmid] at hlt
        omega
      | cons y mid =>
        cases hrest
        exact ⟨⟨passed, c, cs, remaining, units⟩, by rw [selectRank, hc.pieces, if_pos hlt], rfl,
          hunits, l, mid, hmid, hlen.symm, rfl, rfl⟩
    · obtain ⟨mid, rfl, hrest⟩ := append_split hsplit (by omega)
      have hs' : ∀ d ∈ cs, Summarizes d.1 (flatten h d.2) := fun d hd => hs d (by simp [hd])
      have hlen' : mid.length = remaining - (flatten h c.2).length := by
        rw [length_append] at hlen
        omega
      have hunits' : units + linkExtent c.1
          = base + (unitsOf (leavesOf (passed ++ [c]))).length := by
        simp [hunits, hc.linkExtent_eq, add_assoc]
      obtain ⟨selected, hok, happ, hu, l', r', h1, h2, h3, h4⟩ :=
        selectRank_eq_ok hs' hrest hlen' hunits'
      refine ⟨selected, ?_, by simpa using happ, hu, l', r', h1, h2, by simpa using h3, h4⟩
      rw [selectRank, hc.pieces, if_neg hlt, hok]

theorem closeNode_meets {children : Links h} (hs : ∀ c ∈ children, Standing c) :
    Meets (closeNode children) ((h + 1 ≤ draftPieceMaxHeight
      ∧ children.length ≤ draftPieceMaxChildren) ∧ Admissible (leavesOf children))
      fun edited => edited.Over (leavesOf children) ∧ edited.Level := by
  match children, hs with
  | [], _ => exact meets_ok ⟨rfl, trivial⟩
  | [c], hs => exact meets_ok ⟨⟨c, rfl, hs c (by simp), by simp⟩, trivial⟩
  | a :: b :: cs, hs =>
    refine ((newSequenceNode_meets hs).mono (fun hc => ⟨⟨hc.1.1, by simp, hc.1.2⟩, hc.2⟩)
      fun _ => id).bind fun ref hn => meets_ok ?_
    exact ⟨⟨hn.flatten_eq, ⟨hn.filled (by simp), hn.wellFormed⟩, hn.selected⟩, trivial⟩

theorem Standing.load {c : Link (h + 1)} (hs : Standing c) :
    loadSequenceNode ⟨c.1, c.2, false⟩ = .ok c.2.children
      ∧ (∀ d ∈ c.2.children, Standing d) ∧ 2 ≤ c.2.children.length
      ∧ c.2.children.length ≤ draftPieceMaxChildren :=
  ⟨loadSequenceNode_ok hs.2 hs.1, fun d hd => hs.2.2 d hd, hs.1.1, hs.1.2⟩

/-- **The edited child goes back among its siblings.** -/
theorem absorb_meets {selectedRoot : Bool} {passed rest : Links h} (hp : ∀ c ∈ passed, Standing c)
    (hr : ∀ c ∈ rest, Standing c) (hover : edited.Over leaves) (hlevel : edited.Level)
    (hmin : (if selectedRoot then 1 else 2) ≤ passed.length + 1 + rest.length)
    (hmax : passed.length + 1 + rest.length ≤ draftPieceMaxChildren)
    (hh : h + 1 ≤ draftPieceMaxHeight) : Meets (absorb selectedRoot passed rest edited)
      (Admissible (leavesOf passed ++ leaves ++ leavesOf rest)) fun result =>
        result.Over (leavesOf passed ++ leaves ++ leavesOf rest)
          ∧ (selectedRoot = false → result.Level) := by
  have hclose : ∀ {children : Links h},
      (∀ c ∈ children, Standing c) → children.length ≤ draftPieceMaxChildren →
      leavesOf children = leavesOf passed ++ leaves ++ leavesOf rest →
      Meets (closeNode children) (Admissible (leavesOf passed ++ leaves ++ leavesOf rest))
        fun result => result.Over (leavesOf passed ++ leaves ++ leavesOf rest)
          ∧ (selectedRoot = false → result.Level) := by
    intro children hs hlen hl
    rw [← hl]
    exact (closeNode_meets hs).mono (fun ha => ⟨⟨hh, hlen⟩, ha⟩) fun _ h => ⟨h.1, fun _ => h.2⟩
  cases edited with
  | lowered => exact hlevel.elim
  | empty =>
    obtain rfl : leaves = [] := hover
    exact hclose (forall_mem_append.mpr ⟨hp, hr⟩) (by rw [length_append]; omega) (by simp)
  | tree ref =>
    obtain ⟨rfl, hstand, -⟩ := hover
    exact hclose (forall_mem_append.mpr ⟨hp, forall_mem_cons.mpr ⟨hstand, hr⟩⟩)
      (by rw [length_append, length_cons]; omega) (by simp)
  | @underfull k lone =>
    obtain ⟨c, rfl, hstand, rfl⟩ := hover
    -- the pack of the lone child with the children of a sibling
    have hpack : ∀ {combined : Links k}
        {a b : Leaves}, (∀ d ∈ combined, Standing d) → 3 ≤ combined.length →
        combined.length ≤ draftPieceMaxChildren + 1 →
        a ++ leavesOf combined ++ b = leavesOf passed ++ flatten k c.2 ++ leavesOf rest →
        Meets (packChildren newSequenceNode combined)
          (Admissible (leavesOf passed ++ flatten k c.2 ++ leavesOf rest))
          fun refs => Replaces 2 refs (leavesOf combined) ∧ refs.length ≤ 2 :=
      fun hs hlow hhigh hl => (packChildren_meets hs le_rfl (by omega)).mono
        (fun ha => ⟨⟨by omega, length_pos_iff.mp (by omega), by omega⟩, ha.part hl⟩)
        fun _ h => ⟨h.1, h.2.1⟩
    refine (meets_ensure fun _ => rfl).bind fun _ _ => ?_
    rcases passed.eq_nil_or_concat' with rfl | ⟨passed, sibling, rfl⟩
    · cases rest with
      | nil =>
        obtain rfl : selectedRoot = true := by
          cases selectedRoot
          · simp at hmin
          · rfl
        exact meets_ok ⟨⟨c, rfl, hstand, by simp⟩, by simp⟩
      | cons sibling rest =>
        obtain ⟨hload, hch, hlow, hhigh⟩ := (hr sibling (by simp)).load
        simp only [length_nil, length_cons] at hmax
        simp only [getLast?_nil, hload, ok_bind]
        refine (hpack (a := []) (b := leavesOf rest)
          (forall_mem_cons.mpr ⟨hstand, hch⟩) (by simp; omega) (by simp; omega)
          (by simp)).bind fun refs hrefs => ?_
        refine hclose (forall_mem_append.mpr
          ⟨hrefs.1.all_standing, fun d hd => hr d (by simp [hd])⟩)
          (by rw [length_append, length_map]; omega) ?_
        rw [leavesOf_append, hrefs.1.leaves_eq]
        simp
    · obtain ⟨hload, hch, hlow, hhigh⟩ := (hp sibling (by simp)).load
      rw [length_append, length_singleton] at hmax
      simp only [getLast?_concat, dropLast_concat, hload, ok_bind]
      refine (hpack (a := leavesOf passed) (b := leavesOf rest)
        (forall_mem_append.mpr ⟨hch, fun d hd => mem_singleton.mp hd ▸ hstand⟩)
        (by simp; omega) (by simp; omega) (by simp)).bind fun refs hrefs => ?_
      refine hclose (forall_mem_append.mpr ⟨forall_mem_append.mpr
        ⟨fun d hd => hp d (by simp [hd]), hrefs.1.all_standing⟩, hr⟩)
        (by rw [length_append, length_append, length_map]; omega) ?_
      rw [leavesOf_append, leavesOf_append, hrefs.1.leaves_eq]
      simp

variable {edit : DraftPieceLeafValue → ℕ → Prepared (Option DraftPieceLeafValue)}

theorem exists_selectRank {ref : SequenceRef (h + 1)} (units : ℕ)
    {l r : Leaves} (hw : WellFormed (h + 1) ref.link ref.tree)
    (hsplit : flatten (h + 1) ref.tree = l ++ x :: r) :
    ∃ selected, selectRank [] l.length units ref.tree.children = .ok selected
      ∧ ref.tree.children = selected.passed ++ selected.child :: selected.rest
      ∧ selected.units = units + (unitsOf (leavesOf selected.passed)).length
      ∧ ∃ l' r', flatten h selected.child.2 = l' ++ x :: r' ∧ selected.rank = l'.length
        ∧ l = leavesOf selected.passed ++ l' ∧ r = r' ++ leavesOf selected.rest := by
  have hsum : ∀ c ∈ ref.tree.children, Summarizes c.1 (flatten h c.2) := fun c hc =>
    (hw.2 c hc).2.summary
  have hunits : units
      = units + (unitsOf (leavesOf ([] : Links h))).length := rfl
  obtain ⟨selected, hok, happ, hu, l', r', h1, h2, h3, h4⟩ :=
    selectRank_eq_ok hsum hsplit rfl hunits
  exact ⟨selected, hok, by simpa using happ.symm, hu, l', r', h1, h2, by simpa using h3, h4⟩

/-- **The leaves after an edit of one leaf**, that turns it into `mid`.  Nothing but disorder or
want of room stops an edit that the leaf allows. -/
theorem editLeaf_meets {mid : Leaves} {c allowed : Prop}
    (hocc : ∀ y ∈ mid, y.Occupied) : ∀ {h} {ref} {units} {l r}, WellFormed h ref.link ref.tree →
    Filled (if ref.selectedRoot then 1 else 2) h ref.tree → h ≤ draftPieceMaxHeight →
    flatten h ref.tree = l ++ x :: r →
    Meets (edit x (units + (unitsOf l).length)) c (fun value => value.toList = mid ∧ allowed) →
    (c → Admissible (l ++ mid ++ r)) → Meets (editLeaf edit h ref l.length units) c fun edited =>
      (edited.Over (l ++ mid ++ r) ∧ (ref.selectedRoot = false → edited.Level)) ∧ allowed
  | 0, ref, units, l, r, hw, _, _, hsplit, hedit, _ => by
    obtain ⟨rfl, hleaf, rfl⟩ : l = [] ∧ ref.tree.leaf = x ∧ r = [] := by
      cases l with
      | nil => simpa using hsplit
      | cons y l => simp at hsplit
    rw [editLeaf, length_nil, ensure_bind rfl, loadSequenceLeaf_ok hw, ok_bind, hleaf]
    refine hedit.bind fun value hvalue => ?_
    cases value with
    | none =>
      obtain ⟨rfl, hallowed⟩ := hvalue
      exact meets_ok ⟨⟨rfl, fun _ => trivial⟩, hallowed⟩
    | some value =>
      obtain ⟨rfl, hallowed⟩ := hvalue
      exact meets_ok ⟨⟨⟨rfl, newSequenceLeaf_standing (hocc value (by simp)), rfl⟩,
        fun _ => trivial⟩, hallowed⟩
  | h + 1, ref, units, l, r, hw, hf, hh, hsplit, hedit, hadm => by
    obtain ⟨selected, hsel, hch, hu, l', r', hchild, hrank, rfl, rfl⟩ :=
      exists_selectRank units hw hsplit
    have hunits : units + (unitsOf (leavesOf selected.passed ++ l')).length
        = selected.units + (unitsOf l').length := by
      rw [hu, unitsOf_append, length_append, add_assoc]
    rw [hunits] at hedit
    have hstand : Standing selected.child := hw.2 _ (by rw [hch]; simp)
    have hassoc : leavesOf selected.passed ++ (l' ++ mid ++ r') ++ leavesOf selected.rest
        = leavesOf selected.passed ++ l' ++ mid ++ (r' ++ leavesOf selected.rest) := by simp
    obtain ⟨hlow, hhigh⟩ := id hf
    rw [hch, length_append, length_cons] at hlow hhigh
    rw [editLeaf, loadSequenceNode_ok hw hf, ok_bind, hsel, ok_bind, hrank, ← hassoc]
    refine (editLeaf_meets hocc (Selected.wellFormed hstand) (Selected.filled hstand) (by omega)
      hchild hedit fun hc => (hadm hc).part hassoc).bind fun below hbelow => ?_
    obtain ⟨⟨hover, hlevel⟩, hallowed⟩ := hbelow
    exact (absorb_meets (fun c hc => hw.2 c (by rw [hch]; simp [hc]))
      (fun c hc => hw.2 c (by rw [hch]; simp [hc])) hover (hlevel rfl) (by omega) (by omega)
      hh).mono (fun hc => hassoc ▸ hadm hc) fun _ hres => ⟨hres, hallowed⟩

/-- A finished edit is a tree to work on over the same leaves. -/
theorem finishEdit_eq_ok (hover : edited.Over leaves) (hh : h ≤ draftPieceMaxHeight) :
    ∃ sequence, finishEdit edited = .ok sequence ∧ workingLeaves sequence = leaves
      ∧ ∀ h ref, sequence = some ⟨h, ref⟩ → Workable ref := by
  cases edited with
  | empty => exact ⟨none, rfl, hover.symm, by simp⟩
  | tree ref =>
    obtain ⟨rfl, hstand, hsel⟩ := hover
    refine ⟨_, rfl, rfl, ?_⟩
    rintro _ _ ⟨⟩
    exact ⟨hstand.2, hstand.1.mono (by omega), hsel, hh⟩
  | underfull | lowered =>
    obtain ⟨c, rfl, hstand, rfl⟩ := hover
    refine ⟨_, rfl, rfl, ?_⟩
    rintro _ _ ⟨⟩
    exact ⟨hstand.2, hstand.1.mono (by omega), rfl, by omega⟩

/-- Compressing a root keeps its leaves. -/
theorem compressSequenceRoot_eq_ok : ∀ {h} {ref}, Workable ref →
    ∃ root, compressSequenceRoot h ref = .ok root ∧ flatten root.1 root.2.tree = flatten h ref.tree
      ∧ Workable root.2
  | 0, ref, hw => ⟨⟨0, ref⟩, rfl, rfl, hw⟩
  | 1, ref, hw => ⟨⟨1, ref⟩, rfl, rfl, hw⟩
  | h + 2, ref, hw => by
    have hload : loadSequenceNode ref = .ok ref.tree.children :=
      loadSequenceNode_ok hw.wellFormed (by simpa [hw.selected] using hw.filled)
    rw [compressSequenceRoot, hload, ok_bind]
    split
    · rename_i c hc
      have hstand := hw.wellFormed.2 c (by rw [hc]; simp)
      have hchild : Workable (⟨c.1, c.2, true⟩ : SequenceRef (h + 1)) :=
        ⟨hstand.2, hstand.1.mono (by omega), rfl, by have := hw.height; omega⟩
      obtain ⟨root, hok, hlvs, hwork⟩ := compressSequenceRoot_eq_ok hchild
      refine ⟨root, hok, ?_, hwork⟩
      rw [hlvs, flatten_succ (h := h + 1), hc]
      simp
    · exact ⟨_, rfl, rfl, hw⟩

/-- **The root of a draft under construction** holds the leaves it was made over. -/
theorem rootSequence_meets {sequence : WorkingSequence}
    (hwork : ∀ h ref, sequence = some ⟨h, ref⟩ → Workable ref) :
    Meets (rootSequence sequence) (Fits (workingLeaves sequence)) fun root =>
      workingLeaves root = workingLeaves sequence ∧ Rooted root := by
  match sequence, hwork with
  | none, _ => exact meets_ok ⟨rfl, by simp [Rooted]⟩
  | some ⟨h, ref⟩, hwork =>
    obtain ⟨⟨k, top⟩, hcomp, hlvs, htop⟩ := compressSequenceRoot_eq_ok (hwork h ref rfl)
    rw [rootSequence, hcomp, ok_bind, workingLeaves_some, ← hlvs]
    cases k with
    | zero =>
      have hstand : ∀ c ∈ [top.linked], Standing c := by simpa using ⟨trivial, htop.wellFormed⟩
      have hone : leavesOf [top.linked] = flatten 0 top.tree := by simp
      refine ((newSequenceNode_meets hstand).mono (fun hfits => ⟨⟨by decide, by simp,
        show 1 ≤ draftPieceMaxChildren by decide⟩, by
          rw [hone]; exact ⟨htop.wellFormed.ordered, hfits⟩⟩) fun _ => id).bind
        fun node hn => meets_ok ⟨hn.flatten_eq.trans hone, ?_⟩
      rintro _ _ ⟨⟩
      exact ⟨⟨hn.wellFormed, hn.filled (by simp), hn.selected, hn.height⟩, le_rfl⟩
    | succ k =>
      refine meets_ok ⟨rfl, ?_⟩
      rintro _ _ ⟨⟩
      exact ⟨htop, by omega⟩

end

end Beryl.Draft
