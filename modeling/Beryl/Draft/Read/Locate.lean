import Beryl.Draft.Read.Guided

/-!
# Draft/Read/Locate — two searches by composite key

`locateSearchKey` and `locate` both descend to the leaf at a composite key, and were written
independently.  In front of the markers of an offset, and behind them, they test a child in one
way; for the key of a marker `locate` turns down a child that ends in text at the very offset
searched for, and `locateSearchKey` does not.  That guard is what keeps `locate` from being led
astray (`neverShadows_guarded`).
-/

namespace Beryl.Draft

open Fallible Search List DraftPieceLeafValue DraftCompositeSearchKey

/-! ## The two searches -/

/-- The test of `locate_search_key` on the translated keys of a child. -/
def keyTest (target : DraftCompositeSearchKey) (markerCount : ℕ)
    (first last : DraftCompositeSearchKey) : Bool :=
  match target with
  | .marker .. => markerCount ≠ 0 ∧ first ≤ target ∧ target ≤ last
  | .beforeMarkers targetAnchor => target < last ∧ last ≠ .afterMarkers targetAnchor
  | .afterMarkers _ => target < last

/-- The test of `locate` outside insertion order. -/
def guardedKeyTest (target : DraftCompositeSearchKey) (markerCount : ℕ)
    (first last : DraftCompositeSearchKey) : Bool :=
  match target with
  | .marker .. => markerCount ≠ 0 ∧ first ≤ target ∧ target ≤ last
      ∧ last ≠ .afterMarkers target.anchor
  | .beforeMarkers offset => target < last ∧ last ≠ .afterMarkers offset
  | .afterMarkers _ => target < last

/-- A test on the keys of a child, moved behind the text in front of it. -/
def checkedTest (test : ℕ → DraftCompositeSearchKey → DraftCompositeSearchKey → Bool)
    (childAnchor : ℕ) (child : DraftPieceChild) : Prepared Bool := do
  let first ← (checkedOffsetKey child.first childAnchor).mapError .rejected
  let last ← (checkedOffsetKey child.last childAnchor).mapError .rejected
  return test child.markerCount first last

/-- `locate_search_key`. -/
def locateSearchKey {H : ℕ} (tree : SequenceRef H) (target : DraftCompositeSearchKey) :
    Prepared (Option LocatedLeaf) := do
  let cursor ← guidedCursor aggregateOverflow (checkedTest (keyTest target)) H tree 0 0 []
  return cursor.map (·.leaf)

/-- `Fact`: a located leaf, its value and the number of markers in front of it. -/
structure Fact where
  located : LocatedLeaf
  markerOrdinal : ℕ
  leaf : DraftPieceLeafValue

/-- A child with its anchor, rank and marker ordinal. -/
structure Candidate (h : ℕ) where
  child : Link h
  anchor : ℕ
  rank : ℕ
  ordinal : ℕ

/-- The scan of `locate`.  In insertion order a child with text around the target is remembered in
case no child with markers is accepted. -/
def locateScan (target : DraftCompositeSearchKey) (insertionOrder : Bool) {h : ℕ} :
    Links h → ℕ → ℕ → ℕ → Option (Candidate h) → Prepared (Option (Candidate h))
  | [], _, _, _, textCandidate => .ok textCandidate
  | child :: children, childAnchor, childRank, childOrdinal, textCandidate => do
    let first ← (checkedOffsetKey child.1.first childAnchor).mapError .rejected
    let last ← (checkedOffsetKey child.1.last childAnchor).mapError .rejected
    let childEnd ← checkedAdd .invalidRoot childAnchor child.1.logicalUtf8Bytes
    let candidate : Candidate h := ⟨child, childAnchor, childRank, childOrdinal⟩
    let textCandidate :=
      if insertionOrder ∧ child.1.logicalUtf8Bytes ≠ 0 ∧ childAnchor ≤ target.anchor
          ∧ target.anchor ≤ childEnd ∧ (textCandidate.isNone ∨ childAnchor = target.anchor)
      then some candidate else textCandidate
    let accepts :=
      if insertionOrder then
        decide (child.1.markerCount ≠ 0 ∧ target ≤ last ∧ last ≠ .afterMarkers target.anchor)
      else guardedKeyTest target child.1.markerCount first last
    if accepts then return some candidate
    else
      let childRank ← checkedAdd .invalidRoot childRank child.1.pieceCount
      let childOrdinal ← checkedAdd .invalidRoot childOrdinal child.1.markerCount
      locateScan target insertionOrder children childEnd childRank childOrdinal textCandidate

/-- The descent of `locate`. -/
def locateFrom (target : DraftCompositeSearchKey) (insertionOrder : Bool) :
    (h : ℕ) → SequenceRef h → ℕ → ℕ → ℕ → Prepared (Option Fact)
  | 0, ref, anchor, rank, ordinal => do
    let leaf ← loadSequenceLeaf ref.link ref.tree.leaf
    return some ⟨⟨rank, anchor, ref.link, ref.tree.leaf⟩, ordinal, leaf⟩
  | h + 1, ref, anchor, rank, ordinal => do
    let node ← loadSequenceNode ref
    match ← locateScan target insertionOrder node anchor rank ordinal none with
    | none => return none
    | some next =>
      locateFrom target insertionOrder h ⟨next.child.1, next.child.2, false⟩ next.anchor next.rank
        next.ordinal

/-- `locate`. -/
def locate {H : ℕ} (tree : SequenceRef H) (target : DraftCompositeSearchKey)
    (insertionOrder : Bool) : Prepared (Option Fact) :=
  locateFrom target insertionOrder H tree 0 0 0

/-! ## The tests without their overflow checks -/

variable {base : ℕ} {link : DraftPieceChild} {leaves : Leaves}

/-- A test on translated keys, as a test on links. -/
def linkTest (test : ℕ → DraftCompositeSearchKey → DraftCompositeSearchKey → Bool) (base : ℕ)
    (child : DraftPieceChild) : Bool :=
  test child.markerCount (child.first.shift base) (child.last.shift base)

variable (hs : Summarizes link leaves) (hb : base + textLength leaves < u64Size)
include hs hb

theorem checkedOffsetKey_first :
    checkedOffsetKey link.first base = .ok (link.first.shift base) := by
  obtain ⟨x, xs, -, hfirst⟩ := hs.first
  refine checkedOffsetKey_of_lt ?_
  rw [hfirst, anchor_startKey]
  omega

theorem checkedOffsetKey_last : checkedOffsetKey link.last base = .ok (link.last.shift base) := by
  obtain ⟨xs, x, -, hlast⟩ := hs.last
  refine checkedOffsetKey_of_lt ?_
  rw [hlast, anchor_endKey]
  omega

omit hs hb

theorem computes_checkedTest (test : ℕ → DraftCompositeSearchKey → DraftCompositeSearchKey → Bool) :
    Computes (checkedTest test) (linkTest test) := by
  intro base link leaves hs hb
  simp [checkedTest, linkTest, checkedOffsetKey_first hs hb, checkedOffsetKey_last hs hb]

/-! ## What the tests look for -/

variable {xs : Leaves} {x : DraftPieceLeafValue} {m : DraftPieceMarkerAt}

/-- A text that reaches past the offset, or a marker not in front of it. -/
def PastBefore (offset base : ℕ) : DraftPieceLeafValue → Prop
  | .text t => offset < base + t.length
  | .marker _ => offset ≤ base

/-- A text that reaches past the offset, or a marker past it. -/
def PastAfter (offset base : ℕ) : DraftPieceLeafValue → Prop
  | .text t => offset < base + t.length
  | .marker _ => offset < base

/-- The marker of a key. -/
def HasKey (key : DraftCompositeSearchKey) (base : ℕ) (x : DraftPieceLeafValue) : Prop :=
  ∃ m, x = .marker m ∧ markerKey ⟨base, m⟩ = key

theorem Summarizes.last_shift (hs : Summarizes link (xs ++ [x])) (base : ℕ) :
    link.last.shift base = endKey x (base + textLength xs + x.bytes.length) := by
  obtain ⟨ys, y, heq, hlast⟩ := hs.last
  obtain ⟨-, hxy⟩ := append_inj' heq rfl
  cases hxy
  rw [hlast, endKey_shift]
  congr 1
  simp only [textLength_append, textLength_cons, textLength_nil]
  omega

/-- **In front of the markers of an offset**: the last leaf decides. -/
theorem guides_before (offset : ℕ) :
    Guides (linkTest (keyTest (.beforeMarkers offset))) (PastBefore offset)
      ∧ NeverShadows (linkTest (keyTest (.beforeMarkers offset))) (PastBefore offset) := by
  refine guides_of_last (fun base link xs x hs => ?_) fun base xs x hocc hin => ?_
  · simp only [linkTest, hs.last_shift base, keyTest, decide_eq_true_eq]
    cases x with
    | text t =>
      simp only [endKey, PastBefore, bytes_text, ne_eq, beforeMarkers_lt_afterMarkers,
        DraftCompositeSearchKey.afterMarkers.injEq]
      omega
    | marker m => simp [endKey, PastBefore]
  · obtain ⟨l, y, r, rfl, hy⟩ := hin
    have hle : textLength l + y.bytes.length ≤ textLength (l ++ y :: r) := by simp
    have hx : x.Occupied := hocc x (by simp)
    cases y <;> cases x <;> simp only [PastBefore, bytes_text,
      bytes_marker, length_nil, occupied_text,
      ← length_pos_iff] at hy hle hx ⊢ <;> omega

/-- **Behind the markers of an offset.** -/
theorem guides_after (offset : ℕ) :
    Guides (linkTest (keyTest (.afterMarkers offset))) (PastAfter offset)
      ∧ NeverShadows (linkTest (keyTest (.afterMarkers offset))) (PastAfter offset) := by
  refine guides_of_last (fun base link xs x hs => ?_) fun base xs x hocc hin => ?_
  · simp only [linkTest, hs.last_shift base, keyTest, decide_eq_true_eq]
    cases x <;> simp [endKey, PastAfter]
  · obtain ⟨l, y, r, rfl, hy⟩ := hin
    have hle : textLength l + y.bytes.length ≤ textLength (l ++ y :: r) := by simp
    cases y <;> cases x <;> simp only [PastAfter, bytes_text,
      bytes_marker, length_nil] at hy hle ⊢ <;> omega

theorem holdsIn_hasKey {key : DraftCompositeSearchKey} :
    HoldsIn (HasKey key) base xs ↔ ∃ m ∈ markersFrom base xs, markerKey m = key := by
  induction xs generalizing base with
  | nil => simp
  | cons x xs ih => cases x <;> simp [holdsIn_cons, ih, HasKey]

/-- No marker of a run of leaves stands in front of the key the run starts at. -/
theorem startKey_le_markerKey (hk : KeysSorted (markersFrom base (x :: xs)))
    (hm : m ∈ markersFrom base (x :: xs)) : startKey x base ≤ markerKey m := by
  cases x with
  | text t =>
    have := (anchor_of_mem_markersFrom hm).1
    simpa [startKey, markerKey] using this
  | marker n =>
    rcases mem_cons.mp hm with rfl | hm
    · exact le_rfl
    · exact ((pairwise_cons.mp hk).1 m hm).le

/-- A subtree that holds the marker of a key spans the key. -/
theorem keyTest_of_mem {a o i : ℕ} (hs : Summarizes link leaves)
    (hk : KeysSorted (markersFrom base leaves))
    (hm : m ∈ markersFrom base leaves) (hkey : markerKey m = .marker a o i) :
    link.markerCount ≠ 0 ∧ link.first.shift base ≤ .marker a o i
      ∧ .marker a o i ≤ link.last.shift base := by
  refine ⟨?_, ?_, ?_⟩
  · rw [hs.markers, ← length_markersFrom base]
    exact (length_pos_of_mem hm).ne'
  · obtain ⟨x, xs, rfl, hfirst⟩ := hs.first
    rw [hfirst, startKey_shift, zero_add, ← hkey]
    exact startKey_le_markerKey hk hm
  · obtain ⟨xs, x, rfl, hlast⟩ := hs.last
    rw [hlast, endKey_shift, add_comm, ← hkey]
    exact markerKey_le_endKey hk hm

theorem guides_keyTest (a o i : ℕ) :
    Guides (linkTest (keyTest (.marker a o i))) (HasKey (.marker a o i)) where
  leaf base x := by
    cases x with
    | text t => simp [linkTest, keyTest, childForLeaf, HasKey]
    | marker m =>
      simp only [linkTest, keyTest, childForLeaf, HasKey, shift_marker,
        zero_add, decide_eq_true_eq, ne_eq, Nat.one_ne_zero, not_false_eq_true, true_and,
        DraftPieceLeafValue.marker.injEq, exists_eq_left', markerKey]
      exact le_antisymm_iff.symm
  complete base link leaves hs _ hk hin := by
    obtain ⟨m, hm, hkey⟩ := holdsIn_hasKey.mp hin
    simpa [linkTest, keyTest] using keyTest_of_mem hs hk hm hkey

theorem guides_guardedKeyTest (a o i : ℕ) :
    Guides (linkTest (guardedKeyTest (.marker a o i))) (HasKey (.marker a o i)) where
  leaf base x := by
    cases x with
    | text t => simp [linkTest, guardedKeyTest, childForLeaf, HasKey]
    | marker m =>
      simp only [linkTest, guardedKeyTest, childForLeaf, HasKey, shift_marker, zero_add,
        decide_eq_true_eq, ne_eq, Nat.one_ne_zero, not_false_eq_true, true_and,
        DraftPieceLeafValue.marker.injEq, exists_eq_left', markerKey, reduceCtorEq, and_true]
      exact le_antisymm_iff.symm
  complete base link leaves hs hocc hk hin := by
    obtain ⟨m, hm, hkey⟩ := holdsIn_hasKey.mp hin
    obtain ⟨h1, h2, h3⟩ := keyTest_of_mem hs hk hm hkey
    have hne : link.last.shift base ≠ .afterMarkers a := by
      obtain ⟨xs, x, rfl, -⟩ := hs.last
      rw [hs.last_shift base]
      cases x with
      | marker n => simp [endKey]
      | text t =>
        have ht : 0 < t.length := length_pos_iff.mpr (hocc (.text t) (by simp))
        have hanch : m.anchor = a := by simpa using congrArg (·.anchor) hkey
        have hm' : m ∈ markersFrom base xs := by simpa using hm
        have := (anchor_of_mem_markersFrom hm').2
        simp only [endKey, bytes_text, ne_eq, DraftCompositeSearchKey.afterMarkers.injEq]
        omega
    simp [linkTest, guardedKeyTest, h1, h2, h3, hne]

/-- **The guard keeps the search from being led astray**: an earlier subtree that spans the key of
a later marker ends in text at the very anchor of that marker. -/
theorem neverShadows_guarded (a o i : ℕ) :
    NeverShadows (linkTest (guardedKeyTest (.marker a o i))) (HasKey (.marker a o i)) := by
  intro base link leaves rest hs _ hk hacc hin
  exfalso
  obtain ⟨m, hm, hkey⟩ := holdsIn_hasKey.mp hin
  simp only [linkTest, guardedKeyTest, decide_eq_true_eq] at hacc
  obtain ⟨-, -, hle, hne⟩ := hacc
  have hanch : m.anchor = a := by simpa using congrArg (·.anchor) hkey
  have hge := (anchor_of_mem_markersFrom hm).1
  obtain ⟨xs, x, rfl, -⟩ := hs.last
  rw [hs.last_shift base] at hle hne
  rw [markersFrom_append] at hk
  cases x with
  | text t =>
    simp only [endKey, marker_le_afterMarkers,
      anchor_marker, ne_eq, DraftCompositeSearchKey.afterMarkers.injEq,
      textLength_append, textLength_cons, textLength_nil, bytes_text] at *
    omega
  | marker n =>
    have hlt := hk.append.2.2 ⟨base + textLength xs, n⟩ (by simp) m hm
    rw [hkey] at hlt
    exact absurd hle (not_le.mpr (by simpa [endKey, markerKey] using hlt))

/-! ## What the searches return -/

section

variable {H : ℕ} {root : SequenceRef H} {P : ℕ → DraftPieceLeafValue → Prop}

/-- **What a search finds**: nothing, or the first leaf searched for with the leaves before it. -/
inductive Finds (P : ℕ → DraftPieceLeafValue → Prop) (leaves : Leaves) :
    Option (Leaves × DraftPieceLeafValue) → Prop
  | absent (hno : ¬ HoldsIn P 0 leaves) : Finds P leaves none
  | found {l r : Leaves} {x : DraftPieceLeafValue}
      (hfirst : FirstAt P leaves l x r) : Finds P leaves (some (l, x))

/-- The answer of `locate` for a place found. -/
def factAt (p : Leaves × DraftPieceLeafValue) : Fact :=
  ⟨locatedAt p.1 p.2, markerTotal p.1, p.2⟩

/-- The answer of `locate_search_key` for a place found. -/
def placeAt (p : Leaves × DraftPieceLeafValue) : LocatedLeaf :=
  locatedAt p.1 p.2

variable (hdoc : WellFormedDocument root) {target : DraftCompositeSearchKey}
include hdoc

/-- **`locate_search_key` finds the first leaf searched for**, unless it is shadowed. -/
theorem locateSearchKey_root (hG : Guides (linkTest (keyTest target)) P) :
    (Shadowed (linkTest (keyTest target)) P H root.tree 0 ∧ locateSearchKey root target = .ok none)
      ∨ ¬ Shadowed (linkTest (keyTest target)) P H root.tree 0
        ∧ ∃ p, Finds P (flatten H root.tree) p
        ∧ locateSearchKey root target = .ok (p.map placeAt) := by
  rcases guidedCursor_root hdoc aggregateOverflow (computes_checkedTest (keyTest target)) hG with
    ⟨hno, hnone⟩ | ⟨hsh, hnone⟩ | ⟨hsh, cursor, l, x, r, hsome, hfirst, hat⟩
  · exact .inr ⟨fun hsh => hno hsh.holdsIn, none, .absent hno, by simp [locateSearchKey, hnone]⟩
  · exact .inl ⟨hsh, by simp [locateSearchKey, hnone]⟩
  · refine .inr ⟨hsh, _, .found hfirst, ?_⟩
    simp [locateSearchKey, hsome, hat.leaf_eq hdoc.toWellFormedRoot, placeAt]

theorem locateSearchKey_finds
    (hG : Guides (linkTest (keyTest target)) P ∧ NeverShadows (linkTest (keyTest target)) P) :
    ∃ p, Finds P (flatten H root.tree) p ∧ locateSearchKey root target = .ok (p.map placeAt) := by
  rcases locateSearchKey_root hdoc hG.1 with ⟨hsh, -⟩ | ⟨-, hfinds⟩
  · exact absurd hsh (CursorPath.start.not_shadowed hdoc hG.2)
  · exact hfinds

omit hdoc

/-- The scan of `locate` passes over children that are turned down. -/
theorem locateScan_pass (target : DraftCompositeSearchKey) {h : ℕ} (rest : Links h) :
    ∀ {l} anchor rank ordinal, (∀ d ∈ l, Summarizes d.1 (flatten h d.2)) →
      anchor + textLength (leavesOf l) < u64Size →
      rank + (leavesOf l).length < u64Size → ordinal ≤ rank → (∀ l₁ d l₂, l = l₁ ++ d :: l₂ →
        ¬ linkTest (guardedKeyTest target) (anchor + textLength (leavesOf l₁)) d.1 = true) →
      locateScan target false (l ++ rest) anchor rank ordinal none
        = locateScan target false rest (anchor + textLength (leavesOf l))
            (rank + (leavesOf l).length) (ordinal + markerTotal (leavesOf l)) none
  | [], _, _, _, _, _, _, _, _ => by simp
  | d :: l, anchor, rank, ordinal, hs, ha, hr, ho, hl => by
    have hd := hs d (by simp)
    have hcount := markerTotal_le_length (flatten h d.2)
    have hb : anchor + textLength (flatten h d.2) < u64Size := by
      rw [leavesOf_cons, textLength_append] at ha
      omega
    simp only [leavesOf_cons, textLength_append, length_append, markerTotal_append, ← hd.bytes,
      ← hd.pieces, ← hd.markers, ← add_assoc] at ha hr hcount ⊢
    have hfalse := hl [] d l rfl
    simp only [leavesOf_nil, textLength_nil, add_zero, linkTest, Bool.not_eq_true] at hfalse
    rw [← locateScan_pass target rest _ _ _ (fun e he => hs e (mem_cons_of_mem _ he)) ha hr
      (by omega) fun l₁ e l₂ hle => by
        have := hl (d :: l₁) e l₂ (by rw [hle, cons_append])
        simpa [hd.bytes, add_assoc] using this]
    simp only [cons_append, locateScan, checkedOffsetKey_first hd hb, checkedOffsetKey_last hd hb,
      mapError_ok, ok_bind, Bool.false_eq_true, false_and, if_false, hfalse]
    rw [checkedAdd_bind (by omega), checkedAdd_bind (by omega), checkedAdd_bind (by omega)]

/-- The fact about the leaf a cursor rests on. -/
def factOf (root : SequenceRef H) (cursor : SequenceCursor) : Fact :=
  ⟨cursor.leaf, markerTotal ((flatten H root.tree).take cursor.leaf.rank), cursor.leaf.leaf⟩

/-- **`locate` is the guided descent under the guarded test**, with a count of the markers it
passes. -/
theorem locateFrom_eq (hroot : WellFormedRoot root) (target : DraftCompositeSearchKey) :
    ∀ {h} {ref} {frames} {b a}, CursorPath root h ref frames b a →
      locateFrom target false h ref (textLength b) b.length (markerTotal b)
        = (guidedCursor aggregateOverflow (checkedTest (guardedKeyTest target)) h ref
            (textLength b) b.length frames).map (Option.map (factOf root))
  | 0, ref, frames, b, a, path => by
    have htake : (flatten H root.tree).take b.length = b := by
      rw [path.flatten_eq, append_assoc, take_left]
    simp [locateFrom, guidedCursor, loadSequenceLeaf_ok (path.wellFormed hroot).1, factOf, htake,
      Except.map]
  | h + 1, ref, frames, b, a, path => by
    obtain ⟨hw, hf⟩ := path.wellFormed hroot
    obtain ⟨hb1, hb2⟩ := path.bounded hroot
    have hs : ∀ d ∈ ref.tree.children, Summarizes d.1 (flatten h d.2) := fun d hd =>
      (hw.child hd).summary
    have hcount := markerTotal_le_length b
    simp only [flatten_succ, textLength_append, length_append] at hb1 hb2
    have hcomp := computes_checkedTest (guardedKeyTest target)
    obtain ⟨l, c, r, hsplit, hc, hfirst⟩ | hno := first_split
      (fun l c => linkTest (guardedKeyTest target)
        (textLength b + textLength (leavesOf l)) c.1 = true) ref.tree.children
    · rw [path.guidedCursor_enter hroot aggregateOverflow hcomp hsplit hfirst hc,
        ← locateFrom_eq hroot target (path.enter hsplit)]
      have hsc := hs c (by simp [hsplit])
      simp only [hsplit, leavesOf_append, leavesOf_cons, textLength_append, length_append]
        at hb1 hb2
      have hb : textLength b + textLength (leavesOf l) + textLength (flatten h c.2) < u64Size := by
        omega
      have hend : textLength b + textLength (leavesOf l) + c.1.logicalUtf8Bytes < u64Size := by
        rwa [hsc.bytes]
      have hpass := locateScan_pass target (c :: r) (textLength b) b.length _
        (fun d hd => hs d (by simp [hsplit, hd])) (by omega) (by omega) hcount hfirst
      simp only [linkTest] at hc
      simp only [locateFrom, loadSequenceNode_ok hw hf, ok_bind]
      simp [hsplit, hpass, locateScan, checkedOffsetKey_first hsc hb, checkedOffsetKey_last hsc hb,
        checkedAdd_of_lt hend, hc]
    · have hpass := locateScan_pass target [] _ _ _ hs hb1 hb2 hcount hno
      rw [append_nil] at hpass
      rw [path.guidedCursor_stop hroot aggregateOverflow hcomp hno]
      simp only [locateFrom, loadSequenceNode_ok hw hf, ok_bind, hpass]
      rfl

/-- **`locate` finds the first leaf searched for**, for a test that never shadows. -/
theorem locate_finds (hdoc : WellFormedDocument root) (target : DraftCompositeSearchKey)
    (hG : Guides (linkTest (guardedKeyTest target)) P
      ∧ NeverShadows (linkTest (guardedKeyTest target)) P) :
    ∃ p, Finds P (flatten H root.tree) p ∧ locate root target false = .ok (p.map factAt) := by
  have hroot := hdoc.toWellFormedRoot
  have heq : locate root target false = _ := locateFrom_eq hroot target .start
  have hclear : ¬ Shadowed (linkTest (guardedKeyTest target)) P H root.tree 0 :=
    CursorPath.start.not_shadowed hdoc hG.2
  rcases guidedCursor_root hdoc aggregateOverflow
    (computes_checkedTest (guardedKeyTest target)) hG.1 with
    ⟨hno, hnone⟩ | ⟨hsh, -⟩ | ⟨-, cursor, l, x, r, hsome, hfirst, hat⟩
  · refine ⟨none, .absent hno, ?_⟩
    rw [heq]
    exact congrArg (Except.map _) hnone
  · exact absurd hsh hclear
  · refine ⟨_, .found hfirst, ?_⟩
    have hfact : factOf root cursor = factAt (l, x) := by
      rw [factOf, hat.leaf_eq hroot, hfirst.1]
      simp [factAt, locatedAt]
    rw [heq, Option.map_some, ← hfact]
    exact congrArg (Except.map _) hsome

end

end Beryl.Draft
