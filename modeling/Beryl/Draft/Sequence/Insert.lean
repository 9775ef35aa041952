import Beryl.Draft.Sequence.Node

/-!
# Draft/Sequence/Insert — putting a leaf into a sequence tree

A leaf goes in at a boundary, splitting a text leaf when the boundary lies inside one.  A node that
grows past 128 children splits in two halves, and a root that splits gets a new root above it.
**The leaves of the result are those left of the boundary, the new leaf, and those right of it**,
and nothing but disorder or want of room can stop the insertion (`insertSequenceLeaf_meets`).
-/

namespace Beryl.Draft

open Fallible List SequenceRef

/-! ## Splices -/

variable {leaves : Leaves} {splice : Splice}

/-- `DraftPieceMappingSpliceKindV1`. -/
inductive SpliceKind
  | textDelete | textInsert | markerDelete | markerInsert
  deriving DecidableEq

/-- What a sequence edit does to the units: at unit `a`, so many removed and so many inserted. -/
structure Splice where
  kind : SpliceKind
  a : ℕ
  removed : ℕ
  inserted : ℕ
  deriving DecidableEq

/-- The coordinate map of a build as an edit of the sequence sees it: there may be none, and a stage
other than `Ready` carries no splice. -/
abbrev MappingStage := Option (Option Splice)

/-- The edit at hand is the one the coordinate map was prepared for. -/
def Allows (mapping : MappingStage) (splice : Splice) : Prop :=
  ∀ ready ∈ mapping, ready = some splice

@[simp] theorem allows_some {ready : Option Splice} :
    Allows (some ready) splice ↔ ready = some splice := by simp [Allows]

/-- `verify_splice`. -/
def verifySplice (mapping : MappingStage) (splice : Splice) : Prepared Unit :=
  match mapping with
  | none => .ok ()
  | some ready => ensure (ready = some splice) .invalidRoot

theorem verifySplice_meets {mapping : MappingStage} :
    Meets (verifySplice mapping splice) (Allows mapping splice) fun _ => Allows mapping splice := by
  cases mapping with
  | none => exact meets_ok (by simp [Allows])
  | some ready => simpa only [verifySplice, allows_some] using meets_ensure id

/-- `sequence_units::extent` of a link: its bytes and its markers. -/
def linkExtent (link : DraftPieceChild) : ℕ := link.logicalUtf8Bytes + link.markerCount

theorem Summarizes.linkExtent_eq {link : DraftPieceChild} (h : Summarizes link leaves) :
    linkExtent link = (unitsOf leaves).length := by
  rw [linkExtent, h.bytes, h.markers, length_unitsOf]

/-! ## Packing -/

section

variable {α β : Type}

/-- `pack_children`: one node, or two halves of a list that is too long for one. -/
def packChildren (build : List α → Prepared β) (children : List α) : Prepared (List β) :=
  if children.length ≤ draftPieceMaxChildren then do
    let node ← build children
    return [node]
  else do
    let left ← build (children.take (children.length / 2))
    let right ← build (children.drop (children.length / 2))
    return [left, right]

end

variable {h : ℕ} {children : Links h}

/-- A reference as a link with its tree. -/
abbrev SequenceRef.linked {h : ℕ} (ref : SequenceRef h) : Link h :=
  (ref.link, ref.tree)

/-- The references that take the place of one tree of height `h`: over the given leaves, each filled
to `least`, and more than one only when all may stand below a node. -/
structure Replaces {h : ℕ} (least : ℕ) (refs : List (SequenceRef h)) (leaves : Leaves) : Prop where
  leaves_eq : leavesOf (refs.map SequenceRef.linked) = leaves
  wellFormed : ∀ ref ∈ refs, WellFormed h ref.link ref.tree
  filled : ∀ ref ∈ refs, Filled least h ref.tree
  nonempty : 1 ≤ refs.length
  standing : 1 < refs.length → ∀ ref ∈ refs, Filled 2 h ref.tree

theorem Filled.mono {least least' : ℕ} {tree : SequenceTree h} (hf : Filled least h tree)
    (hle : least' ≤ least) : Filled least' h tree := by
  cases h with
  | zero => trivial
  | succ h => exact ⟨hle.trans hf.1, hf.2⟩

theorem Replaces.all_standing {refs : List (SequenceRef h)} (hr : Replaces 2 refs leaves) :
    ∀ c ∈ refs.map linked, Standing c := by
  intro c hc
  obtain ⟨ref, href, rfl⟩ := mem_map.mp hc
  exact ⟨hr.filled ref href, hr.wellFormed ref href⟩

/-- **Packed nodes keep the leaves of their children.** -/
theorem packChildren_meets {least : ℕ} (hs : ∀ c ∈ children, Standing c) (hleast : least ≤ 2)
    (hlen : least ≤ children.length) :
    Meets (packChildren newSequenceNode children) ((h + 1 ≤ draftPieceMaxHeight ∧ children ≠ []
      ∧ children.length ≤ 2 * draftPieceMaxChildren) ∧ Admissible (leavesOf children))
      fun refs => Replaces least refs (leavesOf children) ∧ refs.length ≤ 2
        ∧ ∀ ref ∈ refs, ref.selectedRoot = true := by
  unfold packChildren
  split
  · rename_i hsmall
    refine ((newSequenceNode_meets hs).mono (fun hc => ⟨⟨hc.1.1, hc.1.2.1, hsmall⟩, hc.2⟩)
      fun _ => id).bind fun ref hn => meets_ok ?_
    exact ⟨⟨by simpa using hn.flatten_eq, by simpa using hn.wellFormed,
      by simpa using hn.filled hlen, by simp, by simp⟩, by simp, by simpa using hn.selected⟩
  · rename_i hbig
    have hmax : draftPieceMaxChildren = 128 := rfl
    have hhalf : ∀ {a part b}, a ++ part ++ b = children →
        0 < part.length → part.length ≤ (children.length + 1) / 2 →
        Meets (newSequenceNode part) ((h + 1 ≤ draftPieceMaxHeight ∧ children ≠ []
          ∧ children.length ≤ 2 * draftPieceMaxChildren) ∧ Admissible (leavesOf children))
          fun ref => NodeOver ref part := fun hsplit hpos hle =>
      (newSequenceNode_meets fun c hc => hs c (by rw [← hsplit]; simp [hc])).mono
        (fun hc => ⟨⟨hc.1.1, length_pos_iff.mp hpos, by omega⟩, hc.2.part (by
          rw [← leavesOf_append, ← leavesOf_append, hsplit])⟩) fun _ => id
    have happ := take_append_drop (children.length / 2) children
    have hl : (children.take (children.length / 2)).length = children.length / 2 := by
      rw [length_take]
      omega
    have hr : (children.drop (children.length / 2)).length =
        children.length - children.length / 2 :=
      length_drop
    refine (hhalf (a := []) happ (by omega) (by omega)).bind fun left hleft => ?_
    refine (hhalf (b := []) (by rw [append_nil, happ]) (by omega) (by omega)).bind
      fun right hright => meets_ok ?_
    have hf : Filled 2 (h + 1) left.tree := hleft.filled (by omega)
    have hf' : Filled 2 (h + 1) right.tree := hright.filled (by omega)
    refine ⟨⟨?_, by simpa using ⟨hleft.wellFormed, hright.wellFormed⟩,
      by simpa using ⟨hf.mono hleast, hf'.mono hleast⟩, by simp, fun _ => by simpa using ⟨hf, hf'⟩⟩,
      by simp, by simpa using ⟨hleft.selected, hright.selected⟩⟩
    simp only [map_cons, map_nil, leavesOf_cons, leavesOf_nil, append_nil,
      hleft.flatten_eq, hright.flatten_eq]
    rw [← leavesOf_append, happ]

/-! ## The insertion -/

/-- A child picked from a node: the children in front of it and behind it, the rank left to find
inside it, and the units in front. -/
structure Selected (h : ℕ) where
  passed : Links h
  child : Link h
  rest : Links h
  rank : ℕ
  units : ℕ

/-- The picked child as a reference below a node. -/
def Selected.ref {h : ℕ} (selected : Selected h) : SequenceRef h :=
  ⟨selected.child.1, selected.child.2, false⟩

variable {selected : Selected h}

theorem Selected.filled (hs : Standing selected.child) :
    Filled (if selected.ref.selectedRoot then 1 else 2) h selected.ref.tree := hs.1

theorem Selected.wellFormed (hs : Standing selected.child) :
    WellFormed h selected.ref.link selected.ref.tree := hs.2

/-- The loop of `insert_sequence_leaf_recursive`: the first child the boundary lies in or at. -/
def selectInsertion {h : ℕ} (boundary : Boundary) :
    Links h → ℕ → ℕ → Links h → Prepared (Selected h)
  | _, _, _, [] => .error .invalidRoot
  | passed, consumed, units, child :: rest => do
    let next ← checkedAdd aggregateOverflow consumed child.1.pieceCount
    if boundary.inner = 0 ∧ consumed ≤ boundary.rank ∧ boundary.rank ≤ next
        ∨ boundary.inner ≠ 0 ∧ consumed ≤ boundary.rank ∧ boundary.rank < next
    then return ⟨passed, child, rest, boundary.rank - consumed, units⟩
    else selectInsertion boundary (passed ++ [child]) next (units + linkExtent child.1) rest

/-- The insertion at a leaf: beside it, or into its text. -/
def insertAtLeaf (mapping : MappingStage) (inserted tree : SequenceRef 0) (boundary : Boundary)
    (prefixUnits : ℕ) : Prepared (List (SequenceRef 0)) := do
  let units :=
    if boundary.inner = 0 ∧ boundary.rank = 1 then prefixUnits + linkExtent tree.link
    else prefixUnits + boundary.inner
  let kind := if inserted.link.markerCount = 0 then SpliceKind.textInsert else .markerInsert
  verifySplice mapping ⟨kind, units, 0, linkExtent inserted.link⟩
  if boundary.inner = 0 ∧ boundary.rank = 0 then return [inserted, tree]
  else if boundary.inner = 0 ∧ boundary.rank = 1 then return [tree, inserted]
  else if boundary.rank ≠ 0 ∨ boundary.inner = 0 then .error .invalidRoot
  else
    match ← loadSequenceLeaf tree.link tree.tree.leaf with
    | .marker _ => .error .invalidRoot
    | .text text =>
      ensure (boundary.inner < text.length ∧ isCharBoundary text boundary.inner = true)
        invalidUtf8Boundary
      return [newSequenceLeaf (.text (text.take boundary.inner)), inserted,
        newSequenceLeaf (.text (text.drop boundary.inner))]

/-- `insert_sequence_leaf_recursive`. -/
def insertSequenceLeafRecursive (mapping : MappingStage) (inserted : SequenceRef 0) :
    (h : ℕ) → SequenceRef h → Boundary → ℕ → Prepared (List (SequenceRef h))
  | 0, tree, boundary, prefixUnits => insertAtLeaf mapping inserted tree boundary prefixUnits
  | h + 1, tree, boundary, prefixUnits => do
    let children ← loadSequenceNode tree
    let selected ← selectInsertion boundary [] 0 prefixUnits children
    let replacements ← insertSequenceLeafRecursive mapping inserted h selected.ref
      ⟨selected.rank, boundary.inner⟩ selected.units
    packChildren newSequenceNode
      (selected.passed ++ replacements.map SequenceRef.linked ++ selected.rest)

/-- The tree of a draft under construction: its height is not fixed, and there may be none. -/
abbrev WorkingSequence := Option (Σ h, SequenceRef h)

/-- `insert_sequence_leaf`. -/
def insertSequenceLeaf (mapping : MappingStage) (tree : WorkingSequence) (boundary : Boundary)
    (inserted : SequenceRef 0) : Prepared (Σ h, SequenceRef h) :=
  match tree with
  | none => do
    ensure (boundary.rank = 0 ∧ boundary.inner = 0) .invalidRoot
    let kind := if inserted.link.markerCount = 0 then SpliceKind.textInsert else .markerInsert
    verifySplice mapping ⟨kind, 0, 0, linkExtent inserted.link⟩
    return ⟨0, inserted⟩
  | some ⟨h, tree⟩ => do
    match ← insertSequenceLeafRecursive mapping inserted h tree boundary 0 with
    | [root] => return ⟨h, root⟩
    | [left, right] =>
      let root ← newSequenceNode [left.linked, right.linked]
      return ⟨h + 1, root⟩
    | _ => .error .invalidRoot

/-! ## What the insertion does to the leaves -/

section

variable {h : ℕ} {boundary : Boundary} {left right : Leaves}
  {x : DraftPieceLeafValue} {mapping : MappingStage}

variable {ref : SequenceRef 0} {units : ℕ}

/-- The loop finds the child the boundary falls in, with what stands in front of it. -/
theorem selectInsertion_eq_ok {base : ℕ} : ∀ {rest passed} {consumed units},
      (∀ c ∈ rest, Summarizes c.1 (flatten h c.2)) → consumed = (leavesOf passed).length →
      units = base + (unitsOf (leavesOf passed)).length → consumed ≤ boundary.rank → rest ≠ [] →
      (boundary.rank < consumed + (leavesOf rest).length
        ∨ boundary.inner = 0 ∧ boundary.rank = consumed + (leavesOf rest).length) →
      consumed + (leavesOf rest).length < u64Size →
      ∃ selected, selectInsertion boundary passed consumed units rest = .ok selected
        ∧ selected.passed ++ selected.child :: selected.rest = passed ++ rest
        ∧ boundary.rank = (leavesOf selected.passed).length + selected.rank
        ∧ selected.units = base + (unitsOf (leavesOf selected.passed)).length
        ∧ (selected.rank < (flatten h selected.child.2).length
          ∨ boundary.inner = 0 ∧ selected.rank = (flatten h selected.child.2).length)
  | [], _, _, _, _, _, _, _, hne, _, _ => absurd rfl hne
  | c :: cs, passed, consumed, units, hs, hcons, hunits, hlow, _, hhigh, hfit => by
    have hc := hs c (by simp)
    rw [leavesOf_cons, length_append] at hhigh hfit
    by_cases hsel : boundary.inner = 0 ∧ consumed ≤ boundary.rank
          ∧ boundary.rank ≤ consumed + (flatten h c.2).length
        ∨ boundary.inner ≠ 0 ∧ consumed ≤ boundary.rank
          ∧ boundary.rank < consumed + (flatten h c.2).length
    · refine ⟨⟨passed, c, cs, boundary.rank - consumed, units⟩, ?_, rfl, ?_, hunits, ?_⟩
      · rw [selectInsertion, hc.pieces, checkedAdd_bind (by omega), if_pos hsel]
        rfl
      · dsimp only
        omega
      · dsimp only
        omega
    · have hcs : cs ≠ [] := by
        rintro rfl
        simp only [leavesOf_nil, length_nil, add_zero] at hhigh
        omega
      have hnext : consumed + (flatten h c.2).length = (leavesOf (passed ++ [c])).length := by
        simp [hcons]
      have hnextUnits : units + linkExtent c.1
          = base + (unitsOf (leavesOf (passed ++ [c]))).length := by
        simp [hunits, hc.linkExtent_eq, add_assoc]
      have hs' : ∀ d ∈ cs, Summarizes d.1 (flatten h d.2) := fun d hd => hs d (by simp [hd])
      obtain ⟨selected, hok, happ, rest⟩ :=
        selectInsertion_eq_ok hs' hnext hnextUnits (by omega) hcs (by omega) (by omega)
      refine ⟨selected, ?_, by simpa using happ, rest⟩
      rw [selectInsertion, hc.pieces, checkedAdd_bind (by omega), if_neg hsel, hok]

theorem cutsAt_singleton {y : DraftPieceLeafValue} (h : CutsAt [y] boundary left right) :
    (boundary = ⟨0, 0⟩ ∧ left = [] ∧ right = [y]) ∨ (boundary = ⟨1, 0⟩ ∧ left = [y] ∧ right = [])
      ∨ ∃ t, y = .text t ∧ boundary.rank = 0 ∧ 0 < boundary.inner ∧ boundary.inner < t.length
        ∧ isCharBoundary t boundary.inner = true ∧ left = [.text (t.take boundary.inner)]
        ∧ right = [.text (t.drop boundary.inner)] := by
  rcases h with ⟨h0, hsplit, hlen⟩ | ⟨l, t, r, hsplit, hlen, h0, hlt, hchar, rfl, rfl⟩
  · cases left with
    | nil => exact .inl ⟨congrArg₂ Boundary.mk hlen.symm h0, rfl, hsplit.symm⟩
    | cons z left =>
      obtain ⟨rfl, hnil⟩ := List.cons.inj hsplit
      obtain ⟨rfl, rfl⟩ := append_eq_nil_iff.mp hnil.symm
      exact .inr (.inl ⟨congrArg₂ Boundary.mk hlen.symm h0, rfl, rfl⟩)
  · cases l with
    | nil =>
      cases hsplit
      exact .inr (.inr ⟨t, rfl, hlen.symm, h0, hlt, hchar, rfl, rfl⟩)
    | cons z l => simp at hsplit

/-- The splice an insertion announces. -/
def insertionSplice (x : DraftPieceLeafValue) (a : ℕ) : Splice :=
  ⟨if x.markers = 0 then .textInsert else .markerInsert, a, 0, x.units.length⟩

theorem insertionSplice_eq (x : DraftPieceLeafValue) (a : ℕ) :
    insertionSplice x a = ⟨if (newSequenceLeaf x).link.markerCount = 0 then .textInsert
      else .markerInsert, a, 0, linkExtent (newSequenceLeaf x).link⟩ := by
  have hs := childForLeaf_summarizes x
  rw [insertionSplice, newSequenceLeaf, hs.markers, hs.linkExtent_eq]
  simp

theorem insertAtLeaf_meets (hw : WellFormed 0 ref.link ref.tree) (hx : x.Occupied)
    (hcut : CutsAt (flatten 0 ref.tree) boundary left right) :
    Meets (insertAtLeaf mapping (newSequenceLeaf x) ref boundary units)
      (Allows mapping (insertionSplice x (units + (unitsOf left).length)))
      fun refs => Replaces 2 refs (left ++ x :: right) ∧ refs.length ≤ 3 := by
  have hxw := (newSequenceLeaf_standing hx).2
  have hleaf : linkExtent ref.link = ref.tree.leaf.units.length := by
    simpa using hw.summary.linkExtent_eq
  rw [insertionSplice_eq, insertAtLeaf]
  refine (verifySplice_meets.mono (fun hallows => ?_) fun _ => id).bind fun _ _ => ?_
  · rcases cutsAt_singleton hcut with ⟨rfl, rfl, rfl⟩ | ⟨rfl, rfl, rfl⟩
      | ⟨t, ht, hrank, h0, hlt, hchar, rfl, rfl⟩
    · simpa using hallows
    · simpa [hleaf] using hallows
    · simpa [h0.ne', Nat.min_eq_left hlt.le] using hallows
  rcases cutsAt_singleton hcut with ⟨rfl, rfl, rfl⟩ | ⟨rfl, rfl, rfl⟩
    | ⟨t, ht, hrank, h0, hlt, hchar, rfl, rfl⟩
  · exact meets_ok ⟨⟨rfl, by simpa using ⟨hxw, hw⟩, fun _ _ => trivial, by simp,
      fun _ _ _ => trivial⟩, by simp⟩
  · exact meets_ok ⟨⟨rfl, by simpa using ⟨hw, hxw⟩, fun _ _ => trivial, by simp,
      fun _ _ _ => trivial⟩, by simp⟩
  · obtain ⟨hl, hr⟩ : t.take boundary.inner ≠ [] ∧ t.drop boundary.inner ≠ [] := by
      rw [← length_pos_iff, ← length_pos_iff, length_take, length_drop]
      omega
    have hload := loadSequenceLeaf_ok hw
    rw [ht] at hload
    simp only [hrank, h0.ne', false_and, if_false, ne_eq, not_true, or_self, ht, hload, ok_bind,
      ensure_true (And.intro hlt hchar)]
    refine meets_ok ⟨⟨rfl, ?_, fun _ _ => trivial, by simp, fun _ _ _ => trivial⟩, by simp⟩
    simpa using ⟨(newSequenceLeaf_standing (x := .text _) hl).2, hxw,
      (newSequenceLeaf_standing (x := .text _) hr).2⟩

theorem CutsAt.range (hcut : CutsAt leaves boundary left right) :
    boundary.rank < leaves.length ∨ boundary.inner = 0 ∧ boundary.rank = leaves.length := by
  rcases hcut with ⟨h0, rfl, hlen⟩ | ⟨l, t, r, rfl, hlen, -⟩
  · rw [length_append]
    omega
  · rw [length_append, length_cons]
    omega

theorem exists_selectInsertion {ref : SequenceRef (h + 1)} (units : ℕ)
    (hw : WellFormed (h + 1) ref.link ref.tree)
    (hf : Filled (if ref.selectedRoot then 1 else 2) (h + 1) ref.tree)
    (hfit : (flatten (h + 1) ref.tree).length < u64Size)
    (hcut : CutsAt (flatten (h + 1) ref.tree) boundary left right) :
    ∃ selected, selectInsertion boundary [] 0 units ref.tree.children = .ok selected
      ∧ ref.tree.children = selected.passed ++ selected.child :: selected.rest
      ∧ selected.units = units + (unitsOf (leavesOf selected.passed)).length
      ∧ ∃ l r, CutsAt (flatten h selected.child.2) ⟨selected.rank, boundary.inner⟩ l r
        ∧ left = leavesOf selected.passed ++ l ∧ right = r ++ leavesOf selected.rest := by
  have hne : ref.tree.children ≠ [] := by
    rw [← length_pos_iff]
    have := hf.1
    split at this <;> omega
  have hsum : ∀ c ∈ ref.tree.children, Summarizes c.1 (flatten h c.2) := fun c hc =>
    (hw.2 c hc).2.summary
  have hcons : 0 = (leavesOf ([] : Links h)).length := rfl
  have hunits : units
      = units + (unitsOf (leavesOf ([] : Links h))).length := rfl
  obtain ⟨selected, hok, happ, hrank, hunits, hhigh⟩ := selectInsertion_eq_ok hsum hcons hunits
    (Nat.zero_le _) hne (by simpa using hcut.range) (by simpa using hfit)
  rw [nil_append] at happ
  rw [flatten_succ, ← happ, leavesOf_append, leavesOf_cons] at hcut
  obtain ⟨l, r, hlocal, hl, hr⟩ := hcut.within (by omega) (by omega)
  rw [hrank, Nat.add_sub_cancel_left] at hlocal
  exact ⟨selected, hok, happ.symm, hunits, l, r, hlocal, hl, hr⟩

/-- **An insertion below a node keeps everything left and right of the boundary.** -/
theorem insertSequenceLeafRecursive_meets (hx : x.Occupied) : ∀ {h} {ref} {boundary} {left right}
      {units}, WellFormed h ref.link ref.tree →
      Filled (if ref.selectedRoot then 1 else 2) h ref.tree →
      (flatten h ref.tree).length < u64Size → h ≤ draftPieceMaxHeight →
      CutsAt (flatten h ref.tree) boundary left right →
      Meets (insertSequenceLeafRecursive mapping (newSequenceLeaf x) h ref boundary units)
        (Allows mapping (insertionSplice x (units + (unitsOf left).length))
          ∧ Admissible (left ++ x :: right))
        fun refs => Replaces (if ref.selectedRoot then 1 else 2) refs (left ++ x :: right)
          ∧ refs.length ≤ 3 ∧ (0 < h → refs.length ≤ 2 ∧ ∀ r ∈ refs, r.selectedRoot = true)
  | 0, _, _, _, _, _, hw, _, _, _, hcut =>
    (insertAtLeaf_meets hw hx hcut).mono (·.1) fun _ ⟨hrep, hlen⟩ =>
      ⟨⟨hrep.leaves_eq, hrep.wellFormed, fun _ _ => trivial, hrep.nonempty, fun _ _ _ => trivial⟩,
        hlen, fun h0 => absurd h0 (lt_irrefl 0)⟩
  | h + 1, ref, boundary, left, right, units, hw, hf, hfit, hh, hcut => by
    obtain ⟨selected, hsel, hch, hunits, l, r, hlocal, rfl, rfl⟩ :=
      exists_selectInsertion units hw hf hfit hcut
    have hchild := hw.2 selected.child (by rw [hch]; simp)
    have hchildFit : (flatten h selected.child.2).length < u64Size := by
      rw [flatten_succ, hch, leavesOf_append, leavesOf_cons, length_append, length_append] at hfit
      omega
    have hassoc : leavesOf selected.passed ++ (l ++ x :: r) ++ leavesOf selected.rest
        = leavesOf selected.passed ++ l ++ x :: (r ++ leavesOf selected.rest) := by simp
    rw [insertSequenceLeafRecursive, loadSequenceNode_ok hw hf, ok_bind, hsel, ok_bind]
    refine ((insertSequenceLeafRecursive_meets hx (Selected.wellFormed hchild)
      (Selected.filled hchild) hchildFit (by omega) hlocal).mono (fun hc => ⟨?_, hc.2.part hassoc⟩)
      fun _ => id).bind fun reps hreps => ?_
    · rw [hunits, add_assoc, ← length_append, ← unitsOf_append]
      exact hc.1
    obtain ⟨hrep, hlen, -⟩ := hreps
    have hlvs : leavesOf (selected.passed ++ reps.map linked ++ selected.rest)
        = leavesOf selected.passed ++ l ++ x :: (r ++ leavesOf selected.rest) := by
      rw [leavesOf_append, leavesOf_append, hrep.leaves_eq]
      exact hassoc
    have h1 := hf.1
    have h2 := hf.2
    have h3 := hrep.nonempty
    have hcount : (selected.passed ++ reps.map linked ++ selected.rest).length
        = selected.passed.length + reps.length + selected.rest.length := by
      simp [add_assoc]
    rw [hch, length_append, length_cons] at h1 h2
    rw [← hlvs]
    refine (packChildren_meets (forall_mem_middle (fun c hc => hw.2 c (hch ▸ hc)) hrep.all_standing)
      (by split <;> omega) (by omega)).mono (fun hc => ⟨⟨hh, ?_, ?_⟩, hc.2⟩)
      fun refs hres => ⟨hres.1, by omega, fun _ => hres.2⟩
    · rw [← length_pos_iff]
      omega
    · have hmax : draftPieceMaxChildren = 128 := rfl
      omega

/-- The leaves of the tree of a draft under construction. -/
def workingLeaves : WorkingSequence → Leaves
  | none => []
  | some ⟨h, ref⟩ => flatten h ref.tree

@[simp] theorem workingLeaves_none : workingLeaves none = [] := rfl
@[simp] theorem workingLeaves_some (h : ℕ) (ref : SequenceRef h) :
    workingLeaves (some ⟨h, ref⟩) = flatten h ref.tree := rfl

/-- **A tree to work on**: well formed, of admissible height, with leaves that can be counted. -/
structure Workable {h : ℕ} (ref : SequenceRef h) : Prop where
  wellFormed : WellFormed h ref.link ref.tree
  filled : Filled 1 h ref.tree
  selected : ref.selectedRoot = true
  height : h ≤ draftPieceMaxHeight

/-- **A draft under construction**: no tree, or a tree to work on with a node at its root. -/
def Rooted (sequence : WorkingSequence) : Prop :=
  ∀ h ref, sequence = some ⟨h, ref⟩ → Workable ref ∧ 1 ≤ h

variable {sequence : WorkingSequence}

theorem Rooted.occupied (hs : Rooted sequence) : ∀ y ∈ workingLeaves sequence, y.Occupied := by
  match sequence, hs with
  | none, _ => simp
  | some ⟨h, ref⟩, hs => exact (hs h ref rfl).1.wellFormed.occupied

theorem Rooted.ordered (hs : Rooted sequence) : Ordered (unitsOf (workingLeaves sequence)) := by
  match sequence, hs with
  | none, _ => exact .nil
  | some ⟨h, ref⟩, hs => exact (hs h ref rfl).1.wellFormed.ordered

theorem Rooted.fits (hs : Rooted sequence) : Fits (workingLeaves sequence) := by
  match sequence, hs with
  | none, _ => exact ⟨by decide, by decide, by decide⟩
  | some ⟨h + 1, ref⟩, hs => exact (hs _ ref rfl).1.wellFormed.fits
  | some ⟨0, ref⟩, hs => exact absurd (hs 0 ref rfl).2 (by omega)

/-- **The leaves after an insertion**: those left of the boundary, the new one, those right of it.
Nothing but disorder or want of room stops it. -/
theorem insertSequenceLeaf_meets {tree : WorkingSequence} (hx : x.Occupied) (htree : Rooted tree)
    (hcut : CutsAt (workingLeaves tree) boundary left right) :
    Meets (insertSequenceLeaf mapping tree boundary (newSequenceLeaf x))
      (Allows mapping (insertionSplice x (unitsOf left).length) ∧ Admissible (left ++ x :: right))
      fun root => workingLeaves (some root) = left ++ x :: right ∧ Workable root.2 := by
  cases tree with
  | none =>
    obtain ⟨rfl, rfl, hb⟩ : left = [] ∧ right = [] ∧ boundary.rank = 0 ∧ boundary.inner = 0 := by
      rcases hcut with ⟨h0, hsplit, hlen⟩ | ⟨l, t, r, hsplit, -⟩
      · obtain ⟨rfl, rfl⟩ := append_eq_nil_iff.mp hsplit.symm
        exact ⟨rfl, rfl, hlen.symm, h0⟩
      · simp at hsplit
    rw [insertSequenceLeaf, ensure_bind hb]
    exact (verifySplice_meets.mono (fun hc => insertionSplice_eq x 0 ▸ hc.1) fun _ => id).bind
      fun _ _ => meets_ok ⟨rfl, (newSequenceLeaf_standing hx).2, trivial, rfl, Nat.zero_le _⟩
  | some root' =>
    obtain ⟨H, ref⟩ := root'
    obtain ⟨hwork, hpos⟩ := htree H ref rfl
    refine ((insertSequenceLeafRecursive_meets hx hwork.wellFormed
      (by simpa [hwork.selected] using hwork.filled) htree.fits.pieces hwork.height hcut).mono
      (fun hc => by rwa [zero_add]) fun _ => id).bind fun refs hrefs => ?_
    obtain ⟨hrep, -, hlen⟩ := hrefs
    obtain ⟨hlen, hsel⟩ := hlen hpos
    simp only [hwork.selected, if_true] at hrep
    match refs, hrep, hlen, hsel with
    | [], hrep, _, _ => exact absurd hrep.nonempty (by simp)
    | [root], hrep, _, hsel =>
      exact meets_ok ⟨by simpa using hrep.leaves_eq, hrep.wellFormed root (by simp),
        hrep.filled root (by simp), hsel root (by simp), hwork.height⟩
    | [a, b], hrep, _, _ =>
      have hstand : ∀ c ∈ [a.linked, b.linked], Standing c := by
        simpa using ⟨⟨hrep.standing (by simp) a (by simp), hrep.wellFormed a (by simp)⟩,
          ⟨hrep.standing (by simp) b (by simp), hrep.wellFormed b (by simp)⟩⟩
      have hlvs : leavesOf [a.linked, b.linked] = left ++ x :: right := hrep.leaves_eq
      -- two filled trees of height `H` hold `2 ^ (H + 1)` leaves, so `H` is below the limit
      have hht : Fits (left ++ x :: right) → H + 1 ≤ draftPieceMaxHeight := by
        intro hfits
        have h1 := two_pow_le_length (hstand a.linked (by simp))
        have h2 := two_pow_le_length (hstand b.linked (by simp))
        have h3 := hfits.pieces
        rw [← hlvs] at h3
        simp only [leavesOf_cons, leavesOf_nil, append_nil, length_append] at h3
        by_contra hcon
        have h4 : 2 ^ 64 ≤ 2 ^ H := Nat.pow_le_pow_right (by decide) (by
          have : draftPieceMaxHeight = 64 := rfl
          omega)
        have h5 : u64Size = 2 ^ 64 := rfl
        simp only at h1 h2
        omega
      refine ((newSequenceNode_meets hstand).mono (fun hc => ⟨⟨hht hc.2.fits, by simp,
        show 2 ≤ draftPieceMaxChildren by decide⟩, by rw [hlvs]; exact hc.2⟩) fun _ => id).bind
        fun root hn => meets_ok ?_
      exact ⟨by rw [workingLeaves_some, hn.flatten_eq, hlvs], hn.wellFormed, hn.filled (by simp),
        hn.selected, hn.height⟩
    | _ :: _ :: _ :: _, _, hlen, _ => simp at hlen

end

end Beryl.Draft
