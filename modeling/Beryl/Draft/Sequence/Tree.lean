import Beryl.Draft.Sequence.Key
import Mathlib.Algebra.BigOperators.Group.List.Basic

/-!
# Draft/Sequence/Tree — the persistent sequence tree of a draft and the list it flattens to

A draft is a balanced tree of immutable records.  A leaf holds a piece of text or one image marker;
an internal node holds a link to each child, and a link carries the aggregates of everything below
it (`childForLeaf`, `childForNode`).  Records are addressed by digest in the source; here a link is
paired with the record it addresses, so a tree of height `h + 1` is a list of linked trees of
height `h` and the uniform height is a matter of types.

What a draft *is* is the flat list of its leaves (`flatten`).  `WellFormed.summary` reads every
aggregate of a link off that list; no later proof looks inside `childForNode` again.
-/

namespace Beryl.Draft

open Fallible List

/-! ## Leaves -/

/-- An image marker of a draft.  Identities are opaque ordered values. -/
structure DraftPieceMarker where
  markerId : ℕ
  label : ℕ
  assetId : ℕ
  orderKey : ℕ
  deriving DecidableEq

/-- The UTF-8 bytes of a text. -/
abbrev Utf8 := List UInt8

/-- What a leaf record holds: a piece of text, or one marker of width zero. -/
inductive DraftPieceLeafValue
  | text (bytes : Utf8)
  | marker (marker : DraftPieceMarker)
  deriving DecidableEq

/-- The leaves of a document, in order. -/
abbrev Leaves := List DraftPieceLeafValue

namespace DraftPieceLeafValue

/-- The text bytes of a leaf. -/
def bytes : DraftPieceLeafValue → Utf8
  | text b => b
  | marker _ => []

/-- One for a marker, zero for a text. -/
def markers : DraftPieceLeafValue → ℕ
  | text _ => 0
  | marker _ => 1

/-- A leaf that takes up room: a marker, or a text of at least one byte. -/
def Occupied : DraftPieceLeafValue → Prop
  | text b => b ≠ []
  | marker _ => True

instance : DecidablePred Occupied
  | text b => inferInstanceAs (Decidable (b ≠ []))
  | marker _ => .isTrue trivial

@[simp] theorem bytes_text (b : Utf8) : (text b).bytes = b := rfl
@[simp] theorem bytes_marker (m : DraftPieceMarker) : (marker m).bytes = [] := rfl
@[simp] theorem markers_text (b : Utf8) : (text b).markers = 0 := rfl
@[simp] theorem markers_marker (m : DraftPieceMarker) : (marker m).markers = 1 := rfl
@[simp] theorem occupied_text {b : Utf8} : (text b).Occupied ↔ b ≠ [] := .rfl
@[simp] theorem occupied_marker {m : DraftPieceMarker} : (marker m).Occupied := trivial

end DraftPieceLeafValue

open DraftPieceLeafValue

/-! ## Links -/

/-- `DraftPieceChildV1`: the aggregates of the record a link addresses. -/
structure DraftPieceChild where
  logicalUtf8Bytes : ℕ
  newlineCount : ℕ
  logicalLineCount : ℕ
  pieceCount : ℕ
  markerCount : ℕ
  first : DraftCompositeSearchKey
  last : DraftCompositeSearchKey
  deriving DecidableEq

/-- `DraftPieceTextSummaryV1::is_canonical`. -/
def isCanonical (logicalUtf8Bytes newlineCount logicalLineCount : ℕ) : Prop :=
  if logicalUtf8Bytes = 0 then newlineCount = 0 ∧ logicalLineCount = 0
  else newlineCount + 1 < u64Size ∧ logicalLineCount = newlineCount + 1

instance (b n l : ℕ) : Decidable (isCanonical b n l) := by unfold isCanonical; infer_instance

/-- The newlines of a text. -/
def newlines (text : Utf8) : ℕ := text.count 10

/-- `child_for_leaf`. -/
def childForLeaf : DraftPieceLeafValue → DraftPieceChild
  | .text b =>
    { logicalUtf8Bytes := b.length
      newlineCount := newlines b
      logicalLineCount := if b = [] then 0 else newlines b + 1
      pieceCount := 1
      markerCount := 0
      first := .beforeMarkers 0
      last := .afterMarkers b.length }
  | .marker m =>
    { logicalUtf8Bytes := 0
      newlineCount := 0
      logicalLineCount := 0
      pieceCount := 1
      markerCount := 1
      first := .marker 0 m.orderKey m.markerId
      last := .marker 0 m.orderKey m.markerId }

/-- `same_marker_order_slot`. -/
def sameMarkerOrderSlot : DraftCompositeSearchKey → DraftCompositeSearchKey → Bool
  | .marker a o _, .marker a' o' _ => a = a' ∧ o = o'
  | _, _ => false

/-- The running totals of `aggregate_children`. -/
structure ChildAggregate where
  text : ℕ := 0
  newlines : ℕ := 0
  pieces : ℕ := 0
  markers : ℕ := 0
  previousLastMarker : Option DraftCompositeSearchKey := none
  deriving DecidableEq

/-- The shape a single link must have. -/
def childShape (child : DraftPieceChild) : Prop :=
  child.pieceCount ≠ 0 ∧ child.markerCount ≤ child.pieceCount ∧ child.first.anchor = 0
    ∧ child.last.anchor = child.logicalUtf8Bytes ∧ child.first ≤ child.last
    ∧ ¬ (child.logicalUtf8Bytes = 0 ∧ child.markerCount ≠ child.pieceCount)
    ∧ isCanonical child.logicalUtf8Bytes child.newlineCount child.logicalLineCount

instance (child : DraftPieceChild) : Decidable (childShape child) := by
  unfold childShape; infer_instance

/-- Two neighbouring children whose facing ends are markers at one anchor keep their order. -/
def markersMeetInOrder (previous : Option DraftCompositeSearchKey)
    (translatedFirst : DraftCompositeSearchKey) : Prop :=
  match previous, translatedFirst with
  | some previous, .marker a o i =>
    ¬ (previous.anchor = a
      ∧ (.marker a o i ≤ previous ∨ sameMarkerOrderSlot previous (.marker a o i) = true))
  | _, _ => True

instance (p : Option DraftCompositeSearchKey) (k : DraftCompositeSearchKey) :
    Decidable (markersMeetInOrder p k) := by
  unfold markersMeetInOrder; split <;> infer_instance

/-- A key, when it is that of a marker. -/
def markerKey? : DraftCompositeSearchKey → Option DraftCompositeSearchKey
  | k@(.marker ..) => some k
  | _ => none

/-- One round of the loop of `aggregate_children`; its `prefix` and `text` are one number. -/
def aggregateChild (acc : ChildAggregate) (child : DraftPieceChild) :
    Except DraftPieceRejectedReason ChildAggregate := do
  ensure (childShape child) .treeLimit
  let translatedFirst ← checkedOffsetKey child.first acc.text
  ensure (markersMeetInOrder acc.previousLastMarker translatedFirst) .treeLimit
  let translatedLast ← checkedOffsetKey child.last acc.text
  let text ← checkedAdd .aggregateOverflow acc.text child.logicalUtf8Bytes
  let newlines ← checkedAdd .aggregateOverflow acc.newlines child.newlineCount
  let pieces ← checkedAdd .aggregateOverflow acc.pieces child.pieceCount
  let markers ← checkedAdd .aggregateOverflow acc.markers child.markerCount
  return { text, newlines, pieces, markers, previousLastMarker := markerKey? translatedLast }

/-- `aggregate_children`, with the line count of the whole. -/
def aggregateChildren (children : List DraftPieceChild) :
    Except DraftPieceRejectedReason (ChildAggregate × ℕ) := do
  let acc ← children.foldlM aggregateChild {}
  if acc.text = 0 then
    ensure (acc.newlines = 0) .treeLimit
    return (acc, 0)
  else
    let lines ← checkedAdd .aggregateOverflow acc.newlines 1
    return (acc, lines)

/-- The loop of `child_for_node` that moves the last key of the last child into place. -/
def lastKeyOf (last : DraftCompositeSearchKey) (offset : ℕ) :
    List DraftPieceChild → Except DraftPieceRejectedReason DraftCompositeSearchKey
  | [] => .ok last
  | child :: children => do
    let last ← checkedOffsetKey child.last offset
    let offset ← checkedAdd .aggregateOverflow offset child.logicalUtf8Bytes
    lastKeyOf last offset children

/-- `child_for_node`. -/
def childForNode (children : List DraftPieceChild) :
    Except DraftPieceRejectedReason DraftPieceChild := do
  let (acc, lines) ← aggregateChildren children
  let head ← required .treeLimit children.head?
  let last ← lastKeyOf head.first 0 children
  return {
    logicalUtf8Bytes := acc.text
    newlineCount := acc.newlines
    logicalLineCount := lines
    pieceCount := acc.pieces
    markerCount := acc.markers
    first := head.first
    last := last }

/-! ## Trees -/

/-- The record a link of height `h` addresses: a leaf value, or the linked children of a node. -/
def SequenceTree : ℕ → Type
  | 0 => DraftPieceLeafValue
  | h + 1 => List (DraftPieceChild × SequenceTree h)

/-- A link with the record it addresses. -/
abbrev Link (h : ℕ) := DraftPieceChild × SequenceTree h

/-- Consecutive links. -/
abbrev Links (h : ℕ) := List (Link h)

/-- The value of a leaf record. -/
def SequenceTree.leaf (tree : SequenceTree 0) : DraftPieceLeafValue := tree

/-- The linked children of an internal record. -/
def SequenceTree.children {h : ℕ} (tree : SequenceTree (h + 1)) : Links h := tree

/-- **The leaves of a tree, in document order.** -/
def flatten : (h : ℕ) → SequenceTree h → Leaves
  | 0, tree => [tree.leaf]
  | h + 1, tree => tree.children.flatMap fun c => flatten h c.2

/-- The leaves below consecutive links. -/
def leavesOf {h : ℕ} (children : Links h) : Leaves :=
  children.flatMap fun c => flatten h c.2

variable {h : ℕ}

@[simp] theorem leavesOf_nil : leavesOf ([] : Links h) = [] := rfl

@[simp] theorem leavesOf_cons (c : Link h) (cs : Links h) :
    leavesOf (c :: cs) = flatten h c.2 ++ leavesOf cs := flatMap_cons

@[simp] theorem leavesOf_append (cs ds : Links h) :
    leavesOf (cs ++ ds) = leavesOf cs ++ leavesOf ds := flatMap_append

@[simp] theorem flatten_zero (tree : SequenceTree 0) : flatten 0 tree = [tree.leaf] := rfl

@[simp] theorem flatten_succ (tree : SequenceTree (h + 1)) :
    flatten (h + 1) tree = leavesOf tree.children := rfl

/-- `DRAFT_PIECE_MAX_CHILDREN`. -/
abbrev draftPieceMaxChildren : ℕ := 128

/-- `DRAFT_PIECE_MAX_HEIGHT`. -/
abbrev draftPieceMaxHeight : ℕ := 64

/-- `DRAFT_PIECE_PAGE_MAX_RECORDS`. -/
abbrev draftPiecePageMaxRecords : ℕ := 256

/-- `DRAFT_PIECE_PAGE_MAX_BYTES`. -/
abbrev draftPiecePageMaxBytes : ℕ := 65536

/-- An internal node has between `least` and 128 children; a leaf is never too small. -/
def Filled (least : ℕ) : (h : ℕ) → SequenceTree h → Prop
  | 0, _ => True
  | _ + 1, tree => least ≤ tree.children.length ∧ tree.children.length ≤ draftPieceMaxChildren

/-- Every link below is the one its record yields, every inner node below has at least two
children, and no text leaf is empty. -/
def WellFormed : (h : ℕ) → DraftPieceChild → SequenceTree h → Prop
  | 0, link, tree => link = childForLeaf tree.leaf ∧ tree.leaf.Occupied
  | h + 1, link, tree =>
    childForNode (tree.children.map Prod.fst) = .ok link
      ∧ ∀ c ∈ tree.children, Filled 2 h c.2 ∧ WellFormed h c.1 c.2

instance decidableFilled (least : ℕ) : (h : ℕ) → (tree : SequenceTree h) →
    Decidable (Filled least h tree)
  | 0, _ => .isTrue trivial
  | _ + 1, tree => inferInstanceAs (Decidable (least ≤ tree.children.length ∧ _))

instance decidableWellFormed : (h : ℕ) → (link : DraftPieceChild) → (tree : SequenceTree h) →
    Decidable (WellFormed h link tree)
  | 0, link, tree => inferInstanceAs (Decidable (link = childForLeaf tree.leaf ∧ _))
  | h + 1, link, tree =>
    have := decidableWellFormed h
    inferInstanceAs (Decidable (childForNode (tree.children.map Prod.fst) = .ok link
      ∧ ∀ c ∈ tree.children, Filled 2 h c.2 ∧ WellFormed h c.1 c.2))

/-- `SequenceRef`: a link, its record, and whether it may stand as a root. -/
structure SequenceRef (h : ℕ) where
  link : DraftPieceChild
  tree : SequenceTree h
  selectedRoot : Bool

/-- `load_sequence_node`: the children of an internal record, after the checks of
`validate_sequence_node` that do not concern digests. -/
def loadSequenceNode {h : ℕ} (ref : SequenceRef (h + 1)) : Prepared (Links h) :=
  let children := ref.tree.children
  if (if ref.selectedRoot then 1 else 2) ≤ children.length
      ∧ children.length ≤ draftPieceMaxChildren
      ∧ childForNode (children.map Prod.fst) = .ok ref.link
  then .ok children else .error .invalidRoot

/-- `load_sequence_leaf`. -/
def loadSequenceLeaf (link : DraftPieceChild) (leaf : DraftPieceLeafValue) :
    Prepared DraftPieceLeafValue :=
  if childForLeaf leaf = link then .ok leaf else .error .invalidRoot

/-! ## What a link knows about its leaves -/

/-- The text bytes of a run of leaves. -/
def textLength (leaves : Leaves) : ℕ := (leaves.map fun x => x.bytes.length).sum

/-- The markers of a run of leaves. -/
def markerTotal (leaves : Leaves) : ℕ := (leaves.map markers).sum

@[simp] theorem textLength_nil : textLength [] = 0 := rfl
variable (x : DraftPieceLeafValue)

@[simp] theorem textLength_cons (xs : Leaves) :
    textLength (x :: xs) = x.bytes.length + textLength xs := by simp [textLength]
@[simp] theorem textLength_append (xs ys : Leaves) :
    textLength (xs ++ ys) = textLength xs + textLength ys := by simp [textLength]

@[simp] theorem markerTotal_nil : markerTotal [] = 0 := rfl
@[simp] theorem markerTotal_cons (xs : Leaves) :
    markerTotal (x :: xs) = x.markers + markerTotal xs := by simp [markerTotal]
@[simp] theorem markerTotal_append (xs ys : Leaves) :
    markerTotal (xs ++ ys) = markerTotal xs + markerTotal ys := by simp [markerTotal]

theorem markerTotal_le_length : ∀ xs, markerTotal xs ≤ xs.length
  | [] => le_rfl
  | x :: xs => by
    have := markerTotal_le_length xs
    cases x <;> simp only [markerTotal_cons, DraftPieceLeafValue.markers_text,
      DraftPieceLeafValue.markers_marker, length_cons] <;> omega

/-- The key a run of leaves starting with `x` at `anchor` starts at. -/
def startKey (x : DraftPieceLeafValue) (anchor : ℕ) : DraftCompositeSearchKey :=
  match x with
  | .text _ => .beforeMarkers anchor
  | .marker m => .marker anchor m.orderKey m.markerId

/-- The key a run of leaves ending in `x` at `anchor` ends at. -/
def endKey (x : DraftPieceLeafValue) (anchor : ℕ) : DraftCompositeSearchKey :=
  match x with
  | .text _ => .afterMarkers anchor
  | .marker m => .marker anchor m.orderKey m.markerId

@[simp] theorem startKey_shift (a n : ℕ) :
    (startKey x a).shift n = startKey x (a + n) := by cases x <;> rfl
@[simp] theorem endKey_shift (a n : ℕ) :
    (endKey x a).shift n = endKey x (a + n) := by cases x <;> rfl
@[simp] theorem anchor_endKey (a : ℕ) : (endKey x a).anchor = a := by
  cases x <;> rfl
@[simp] theorem anchor_startKey (a : ℕ) : (startKey x a).anchor = a := by cases x <;> rfl

/-- **The aggregates of a link, read off the leaves below it.** -/
structure Summarizes (link : DraftPieceChild) (leaves : Leaves) : Prop where
  bytes : link.logicalUtf8Bytes = textLength leaves
  pieces : link.pieceCount = leaves.length
  markers : link.markerCount = markerTotal leaves
  first : ∃ x xs, leaves = x :: xs ∧ link.first = startKey x 0
  last : ∃ xs x, leaves = xs ++ [x] ∧ link.last = endKey x (textLength leaves)

variable {link : DraftPieceChild}

/-- The sums a successful run of the aggregation loop leaves behind. -/
theorem foldlM_aggregateChild_eq_ok {acc acc' : ChildAggregate} :
    ∀ {children : List DraftPieceChild}, children.foldlM aggregateChild acc = .ok acc' →
      acc'.text = acc.text + (children.map (·.logicalUtf8Bytes)).sum
        ∧ acc'.pieces = acc.pieces + (children.map (·.pieceCount)).sum
        ∧ acc'.markers = acc.markers + (children.map (·.markerCount)).sum
        ∧ (acc.text < u64Size → acc'.text < u64Size)
        ∧ (acc.pieces < u64Size → acc'.pieces < u64Size) := by
  intro children
  induction children generalizing acc with
  | nil => intro h; cases h; simp
  | cons c cs ih =>
    intro h
    rw [foldlM_cons, bind_eq_ok] at h
    obtain ⟨mid, hmid, hrest⟩ := h
    simp only [aggregateChild, bind_eq_ok, pure_eq_ok, checkedAdd_eq_ok, Except.ok.injEq] at hmid
    obtain ⟨-, -, -, -, -, -, _, -, t, ⟨rfl, ht⟩, n, ⟨rfl, -⟩, p, ⟨rfl, hp⟩, m, ⟨rfl, -⟩, rfl⟩ :=
      hmid
    obtain ⟨h1, h2, h3, h4, h5⟩ := ih hrest
    refine ⟨?_, ?_, ?_, fun _ => h4 ht, fun _ => h5 hp⟩
    · simp only [map_cons, sum_cons] at h1 ⊢; omega
    · simp only [map_cons, sum_cons] at h2 ⊢; omega
    · simp only [map_cons, sum_cons] at h3 ⊢; omega

variable {children : List DraftPieceChild}

/-- The key loop ends at the last key of the last child, moved behind the others. -/
theorem lastKeyOf_eq_ok {k k' : DraftCompositeSearchKey} {offset : ℕ} {c : DraftPieceChild}
    (h : lastKeyOf k offset (children ++ [c]) = .ok k') :
    k' = c.last.shift (offset + (children.map (·.logicalUtf8Bytes)).sum) := by
  induction children generalizing k offset with
  | nil =>
    simp only [nil_append, lastKeyOf, bind_eq_ok] at h
    obtain ⟨l, hl, -, -, hk⟩ := h
    cases hk
    simpa using (checkedOffsetKey_eq_ok hl).1
  | cons d ds ih =>
    simp only [cons_append, lastKeyOf, bind_eq_ok, checkedAdd_eq_ok] at h
    obtain ⟨_, -, n, ⟨rfl, -⟩, hrest⟩ := h
    rw [ih hrest, map_cons, sum_cons, add_assoc]

/-- What `child_for_node` computes, when it succeeds. -/
theorem childForNode_eq_ok (h : childForNode children = .ok link) :
    link.logicalUtf8Bytes = (children.map (·.logicalUtf8Bytes)).sum
      ∧ link.pieceCount = (children.map (·.pieceCount)).sum
      ∧ link.markerCount = (children.map (·.markerCount)).sum
      ∧ (∃ c cs, children = c :: cs ∧ link.first = c.first) ∧ (∃ cs c, children = cs ++ [c]
          ∧ link.last = c.last.shift ((cs.map (·.logicalUtf8Bytes)).sum))
      ∧ link.logicalUtf8Bytes < u64Size ∧ link.pieceCount < u64Size := by
  simp only [childForNode, aggregateChildren, bind_eq_ok, required_eq_ok, pure_eq_ok] at h
  obtain ⟨⟨acc, lines⟩, ⟨acc', hfold, hlines⟩, head, hhead, last, hlast, hlink⟩ := h
  have hacc : acc' = acc := by
    split at hlines
    · simp only [bind_eq_ok, Except.ok.injEq, Prod.mk.injEq] at hlines
      obtain ⟨-, -, h, -⟩ := hlines; exact h
    · simp only [bind_eq_ok, Except.ok.injEq, Prod.mk.injEq] at hlines
      obtain ⟨-, -, h, -⟩ := hlines; exact h
  subst hacc
  cases hlink
  obtain ⟨h1, h2, h3, h4, h5⟩ := foldlM_aggregateChild_eq_ok hfold
  refine ⟨by simpa using h1, by simpa using h2, by simpa using h3, ?_, ?_, h4 (by decide),
    h5 (by decide)⟩
  · obtain ⟨c, cs, rfl⟩ : ∃ c cs, children = c :: cs := by
      cases children with
      | nil => simp at hhead
      | cons c cs => exact ⟨c, cs, rfl⟩
    exact ⟨c, cs, rfl, by simp only [head?_cons, Option.some.injEq] at hhead; rw [hhead]⟩
  · obtain rfl | ⟨cs, c, rfl⟩ := children.eq_nil_or_concat'
    · simp at hhead
    · exact ⟨cs, c, rfl, by simpa using lastKeyOf_eq_ok hlast⟩

theorem childForLeaf_summarizes : Summarizes (childForLeaf x) [x] := by
  cases x <;>
    exact ⟨by simp [childForLeaf], rfl, by simp [childForLeaf], ⟨_, _, rfl, rfl⟩,
      ⟨[], _, rfl, by simp [childForLeaf, endKey]⟩⟩

theorem sum_map_links {children : Links h} (hs : ∀ c ∈ children, Summarizes c.1 (flatten h c.2)) :
    (children.map (·.1.logicalUtf8Bytes)).sum = textLength (leavesOf children)
      ∧ (children.map (·.1.pieceCount)).sum = (leavesOf children).length
      ∧ (children.map (·.1.markerCount)).sum = markerTotal (leavesOf children) := by
  induction children with
  | nil => simp
  | cons c cs ih =>
    obtain ⟨h1, h2, h3⟩ := ih fun d hd => hs d (mem_cons_of_mem _ hd)
    have hc := hs c (by simp)
    simp only [map_cons, sum_cons, leavesOf_cons, textLength_append,
      length_append, markerTotal_append]
    exact ⟨by rw [h1, hc.bytes], by rw [h2, hc.pieces], by rw [h3, hc.markers]⟩

/-- **Every link of a well-formed tree summarizes the leaves below it.** -/
theorem WellFormed.summary : ∀ {h} {link} {tree},
    WellFormed h link tree → Summarizes link (flatten h tree)
  | 0, _, tree, hw => by
    obtain ⟨rfl, -⟩ := hw
    exact childForLeaf_summarizes tree.leaf
  | h + 1, link, tree, hw => by
    obtain ⟨hnode, hch⟩ := hw
    have hs : ∀ c ∈ tree.children, Summarizes c.1 (flatten h c.2) := fun c hc =>
      (hch c hc).2.summary
    obtain ⟨h1, h2, h3, ⟨c, cs, hhead, hfirst⟩, ⟨ds, d, htail, hlast⟩, -, -⟩ :=
      childForNode_eq_ok hnode
    obtain ⟨s1, s2, s3⟩ := sum_map_links hs
    simp only [map_map, Function.comp_def] at h1 h2 h3
    refine ⟨h1.trans s1, h2.trans s2, h3.trans s3, ?_, ?_⟩
    · obtain ⟨e, es, hes, rfl, -⟩ := map_eq_cons_iff.mp hhead
      obtain ⟨x, xs, hx, hxf⟩ := (hs e (by rw [hes]; simp)).first
      refine ⟨x, xs ++ leavesOf es, ?_, hfirst.trans hxf⟩
      rw [flatten_succ, hes, leavesOf_cons, hx, cons_append]
    · obtain ⟨es, es', hes, hds, he'⟩ := map_eq_append_iff.mp htail
      obtain ⟨e, rfl, rfl⟩ := map_eq_singleton_iff.mp he'
      have hmem : e ∈ tree.children := by rw [hes]; simp
      obtain ⟨xs, x, hx, hxl⟩ := (hs e hmem).last
      have hsub : ∀ c ∈ es, Summarizes c.1 (flatten h c.2) := fun c hc =>
        hs c (by rw [hes]; simp [hc])
      have hfl : flatten (h + 1) tree = leavesOf es ++ flatten h e.2 := by
        rw [flatten_succ, hes, leavesOf_append, leavesOf_cons, leavesOf_nil, append_nil]
      refine ⟨leavesOf es ++ xs, x, by rw [hfl, hx, append_assoc], ?_⟩
      rw [hlast, hxl, ← hds, map_map, hfl, endKey_shift, textLength_append, add_comm]
      congr 2
      exact (sum_map_links hsub).1

theorem WellFormed.occupied : ∀ {h} {link} {tree},
    WellFormed h link tree → ∀ x ∈ flatten h tree, x.Occupied
  | 0, _, tree, hw, x, hx => by
    rw [flatten_zero, mem_singleton] at hx
    exact hx ▸ hw.2
  | h + 1, link, tree, hw, x, hx => by
    obtain ⟨c, hc, hxc⟩ := mem_flatMap.mp hx
    exact (hw.2 c hc).2.occupied x hxc

variable {tree : SequenceTree (h + 1)}

variable (hw : WellFormed (h + 1) link tree)
include hw

/-- The totals below a node stay under `u64::MAX`. -/
theorem WellFormed.bounded : link.logicalUtf8Bytes < u64Size ∧ link.pieceCount < u64Size := by
  obtain ⟨-, -, -, -, -, hb⟩ := childForNode_eq_ok hw.1
  exact hb

theorem WellFormed.child {c : Link h}
    (hc : c ∈ tree.children) : WellFormed h c.1 c.2 := (hw.2 c hc).2

theorem WellFormed.summaries : ∀ c ∈ tree.children, Summarizes c.1 (flatten h c.2) :=
  fun _ hc => (hw.child hc).summary

omit hw

/-! ## Loading a well-formed record -/

/-- The record of a well-formed reference that is filled enough for its place loads. -/
theorem loadSequenceNode_ok {ref : SequenceRef (h + 1)} (hw : WellFormed (h + 1) ref.link ref.tree)
    (hf : Filled (if ref.selectedRoot then 1 else 2) (h + 1) ref.tree) :
    loadSequenceNode ref = .ok ref.tree.children := if_pos ⟨hf.1, hf.2, hw.1⟩

theorem loadSequenceLeaf_ok {tree : SequenceTree 0}
    (hw : WellFormed 0 link tree) : loadSequenceLeaf link tree.leaf = .ok tree.leaf :=
  if_pos hw.1.symm

end Beryl.Draft
