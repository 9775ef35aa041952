import Beryl.Draft.Read.RankCursor
import Beryl.Draft.Sequence.Units
import Beryl.Machinery.Excerpt

/-!
# Draft/Read/TextDemand — the three text demands on a draft

A forward demand reads text from a coordinate on, a backward demand up to one, and a validation the
character around one.  A page crosses leaves, skips markers, and stops at its byte limit, at 256
leaves, or at the end of the document, never inside a character.

The walks move text cursors, whose frames have lost count (`Draft.Read.RankCursor`).  The pages do
not look at the positions a moved cursor shows, so the walks go right **as long as the counters do
not overflow** (`Steady`).
-/

namespace Beryl.Draft

open Fallible Search Utf8 List Text
open String (utf8Len utf8Len_append utf8Len_cons utf8Len_nil utf8Len_eq_zero)

/-! ## Demands and results -/

/-- `DraftPieceTextDemandV1`. -/
inductive TextDemand
  | forward (start : ℕ)
  | backward (stop : ℕ)
  | validate (candidate : ℕ)
  deriving DecidableEq

/-- `DraftPieceTextEdgeFactV1`. -/
inductive TextEdge
  | documentStart | documentEnd
  | continuation (coordinate : ℕ)
  deriving DecidableEq

/-- `DraftPieceTextDemandResultV1`, without the root it was read from and the count of records. -/
structure TextPage where
  demand : TextDemand
  start : ℕ
  stop : ℕ
  bytes : Utf8
  preceding : TextEdge
  following : TextEdge
  deriving DecidableEq

/-- The edge in front of a page. -/
def precedingEdge (start : ℕ) : TextEdge :=
  if start = 0 then .documentStart else .continuation start

/-- The edge behind a page of a document of `extent` bytes. -/
def followingEdge (extent stop : ℕ) : TextEdge :=
  if stop = extent then .documentEnd else .continuation stop

/-! ## Reading -/

/-- The leaf under a cursor, which must be a text. -/
def loadText (cursor : SequenceCursor) : Prepared Utf8 := do
  let leaf ← loadSequenceLeaf cursor.leaf.link cursor.leaf.leaf
  match leaf with
  | .text text => .ok text
  | .marker _ => .error .invalidRoot

/-- The loop that shortens a forward cut to the last boundary. -/
def shortenTake (text : Utf8) (inner : ℕ) : ℕ → ℕ
  | 0 => 0
  | take + 1 => if isCharBoundary text (inner + (take + 1)) then take + 1
    else shortenTake text inner take

/-- The loop of `read_forward_text_demand`.  `more` is the number of leaves the page may still read
after this one. -/
def forwardWalk (maxBytes : ℕ) : ℕ → SequenceCursor → ℕ → Utf8 → Prepared Utf8
  | more, cursor, inner, bytes => do
    let text ← loadText cursor
    ensure (isCharBoundary text inner = true) invalidUtf8Boundary
    let take := shortenTake text inner (min (maxBytes - bytes.length) (text.length - inner))
    let read := bytes ++ (text.drop inner).take take
    if take < text.length - inner ∨ read.length = maxBytes then return read
    else
      match more with
      | 0 => return read
      | more + 1 =>
        match ← advanceMatching hasText cursor.frames with
        | none => return read
        | some next => forwardWalk maxBytes more next 0 read

/-- `read_forward_text_demand`. -/
def readForwardTextDemand {H : ℕ} (sequence : Option (SequenceRef H)) (start maxBytes : ℕ) :
    Prepared TextPage := do
  ensure (start ≤ extent sequence) invalidUtf8Boundary
  match sequence with
  | none => return ⟨.forward start, start, start, [], .documentStart, .documentEnd⟩
  | some tree =>
    match ← textCursor tree start with
    | none => return ⟨.forward start, start, start, [], precedingEdge start, .documentEnd⟩
    | some (cursor, inner) => do
      let bytes ← forwardWalk maxBytes (draftPiecePageMaxRecords - 1) cursor inner []
      let stop := start + bytes.length
      return ⟨.forward start, start, stop, bytes, precedingEdge start,
        followingEdge (extent sequence) stop⟩

/-- The loop that raises the start of a backward cut to the next boundary; `take` is the length of
the cut. -/
def raiseStart (text : Utf8) (leafEnd : ℕ) : ℕ → ℕ
  | 0 => leafEnd
  | take + 1 => if isCharBoundary text (leafEnd - (take + 1)) then leafEnd - (take + 1)
    else raiseStart text leafEnd take

/-- The loop of the backward arm of `read_text_demand`; the chunks are kept joined, in document
order. -/
def backwardWalk (maxBytes : ℕ) : ℕ → SequenceCursor → ℕ → Utf8 → Prepared Utf8
  | more, cursor, leafEnd, bytes => do
    let text ← loadText cursor
    let start := raiseStart text leafEnd (min (maxBytes - bytes.length) leafEnd)
    if start = leafEnd ∧ bytes.length ≠ 0 then return bytes
    else
      let read := (text.drop start).take (leafEnd - start) ++ bytes
      if start ≠ 0 ∨ read.length = maxBytes then return read
      else
        match more with
        | 0 => return read
        | more + 1 =>
          match ← retreatMatching hasText cursor.frames with
          | none => return read
          | some next => do
            let text ← loadText next
            backwardWalk maxBytes more next text.length read

/-- The backward arm of `read_text_demand` behind the start of the document. -/
def readBackwardTextDemand {H : ℕ} (tree : SequenceRef H) (stop maxBytes : ℕ) :
    Prepared TextPage := do
  let (cursor, inner) ← required .invalidRoot (← textCursor tree (stop - 1))
  let text ← loadText cursor
  ensure (isCharBoundary text (inner + 1) = true) invalidUtf8Boundary
  let bytes ← backwardWalk maxBytes (draftPiecePageMaxRecords - 1) cursor (inner + 1) []
  let start ← checkedSub .invalidRoot stop bytes.length
  return ⟨.backward stop, start, stop, bytes, precedingEdge start,
    followingEdge tree.link.logicalUtf8Bytes stop⟩

/-- The loop that raises the end of a character; `left` is what the text has behind it. -/
def raiseToBoundary (text : Utf8) : ℕ → ℕ
  | 0 => text.length
  | left + 1 => if isCharBoundary text (text.length - (left + 1)) then text.length - (left + 1)
    else raiseToBoundary text left

/-- The validation arm of `read_text_demand` on a document with text. -/
def readValidateTextDemand {H : ℕ} (tree : SequenceRef H) (candidate maxBytes : ℕ) :
    Prepared TextPage := do
  let extent := tree.link.logicalUtf8Bytes
  let probe := if candidate = extent then candidate - 1 else candidate
  let (cursor, inner) ← required .invalidRoot (← textCursor tree probe)
  let text ← loadText cursor
  let localStart := floorCharBoundary text inner
  let first := if candidate = extent then inner + 1 else max inner localStart + 1
  let localEnd := if first < text.length then raiseToBoundary text (text.length - first) else first
  ensure (localEnd ≤ text.length ∧ localEnd - localStart ≤ maxBytes) .invalidRoot
  let start ← checkedAdd .invalidRoot cursor.leaf.anchor localStart
  let stop ← checkedAdd .invalidRoot cursor.leaf.anchor localEnd
  return ⟨.validate candidate, start, stop, (text.drop localStart).take (localEnd - localStart),
    precedingEdge start, followingEdge extent stop⟩

/-- The coordinate of a demand. -/
def TextDemand.coordinate : TextDemand → ℕ
  | forward n | backward n | validate n => n

/-- `read_text_demand`. -/
def readTextDemand {H : ℕ} (sequence : Option (SequenceRef H)) (demand : TextDemand)
    (maxBytes : ℕ) : Prepared TextPage := do
  ensure (demand.coordinate ≤ extent sequence) invalidUtf8Boundary
  match demand, sequence with
  | .forward start, sequence => readForwardTextDemand sequence start maxBytes
  | demand, none => return ⟨demand, 0, 0, [], .documentStart, .documentEnd⟩
  | .backward stop, some tree =>
    if stop = 0 then
      return ⟨.backward 0, 0, 0, [], .documentStart, followingEdge tree.link.logicalUtf8Bytes 0⟩
    else readBackwardTextDemand tree stop maxBytes
  | .validate candidate, some tree =>
    if tree.link.logicalUtf8Bytes = 0 then
      return ⟨.validate candidate, 0, 0, [], .documentStart, .documentEnd⟩
    else readValidateTextDemand tree candidate maxBytes

/-- `DraftPieceMalformedRangeRequestV1`, as far as these reads reach it. -/
inductive MalformedRangeRequest
  | limit | utf8Boundary | cursor
  deriving DecidableEq

/-- `DraftPieceRangeSourceErrorV1`, as far as these reads reach it. -/
inductive RangeSourceError
  | malformed (request : MalformedRangeRequest)
  | limit | invariant
  deriving DecidableEq

/-- `range_error`. -/
def rangeError : DraftPiecePrepareError → RangeSourceError
  | .rejected .invalidUtf8Boundary => .malformed .utf8Boundary
  | .rejected .invalidGapWitness => .malformed .cursor
  | .rejected .treeLimit => .limit
  | .rejected _ => .invariant
  | .invalidRoot => .invariant

/-- `draft_piece_text_demand_with_access`. -/
def draftPieceTextDemand {H : ℕ} (sequence : Option (SequenceRef H)) (demand : TextDemand)
    (maxBytes : ℕ) : Except RangeSourceError TextPage := do
  ensure (4 ≤ maxBytes ∧ maxBytes ≤ draftPiecePageMaxBytes) (.malformed .limit)
  (readTextDemand sequence demand maxBytes).mapError rangeError

/-! ## Cuts of one text -/

/-- A forward cut is shortened to whole characters. -/
theorem shortenTake_utf8 (p q : Chars) (n : ℕ) :
    shortenTake (utf8 (p ++ q)) (utf8 p).length n = utf8Len (takeBytes n q) := by
  rw [← boundaryBefore_eq]
  induction n with
  | zero => rfl
  | succ n ih =>
    rw [shortenTake, boundaryBefore, ih, isCharBoundary_utf8, length_utf8,
      isCharBoundary_append_add]

/-- **A backward cut is raised to whole characters**, as many as fit. -/
theorem raiseStart_utf8 {p q : Chars} : ∀ {n}, n ≤ utf8Len p →
    ∃ p' s, p = p' ++ s ∧ raiseStart (utf8 (p ++ q)) (utf8 p).length n = (utf8 p').length
      ∧ utf8Len s ≤ n ∧ ∀ r c, p' = r ++ [c] → n < c.utf8Size + utf8Len s
  | 0, _ => ⟨p, [], by simp, rfl, by simp, fun _ c _ => by simp [c.utf8Size_pos]⟩
  | n + 1, hle => by
    have hcut : isCharBoundary (utf8 (p ++ q)) ((utf8 p).length - (n + 1))
        = Text.isCharBoundary p (utf8Len p - (n + 1)) := by
      rw [isCharBoundary_utf8, length_utf8, isCharBoundary_append_of_le q (by omega)]
    rw [raiseStart, hcut]
    split
    · next hb =>
      have hlen := Text.isCharBoundary_iff.mp hb
      have hadd := utf8Len_takeBytes_add (utf8Len p - (n + 1)) p
      refine ⟨_, _, (takeBytes_append_dropBytes (utf8Len p - (n + 1)) p).symm, ?_, by omega,
        fun _ c _ => by have := c.utf8Size_pos; omega⟩
      rw [length_utf8, length_utf8, hlen]
    · next hb =>
      obtain ⟨p', s, rfl, hraise, hs, hmax⟩ := raiseStart_utf8 (p := p) (q := q) (n := n) (by omega)
      refine ⟨p', s, rfl, hraise, by omega, fun r c hr => ?_⟩
      have hlt := hmax r c hr
      by_contra hge
      -- the character in front would start exactly at the cut
      subst hr
      refine hb ?_
      have hlen : utf8Len (r ++ [c] ++ s) - (n + 1) = utf8Len r := by
        simp only [utf8Len_append, utf8Len_cons, utf8Len_nil]
        omega
      rw [hlen, append_assoc]
      exact isCharBoundary_append r _

/-- **The start of a character** is found from each of its bytes. -/
theorem floorCharBoundary_inside {p q : Chars} {c : Char} {n : ℕ} (hle : utf8Len p ≤ n)
    (hlt : n < utf8Len p + c.utf8Size) :
    floorCharBoundary (utf8 (p ++ c :: q)) n = (utf8 p).length := by
  obtain ⟨k, rfl⟩ := Nat.exists_eq_add_of_le hle
  rw [floorCharBoundary_utf8, takeBytes_append, takeBytes, if_neg (by omega), append_nil,
    length_utf8]

/-- **The end of a character** is found from each of its bytes. -/
theorem raiseToBoundary_utf8 {p q : Chars} {c : Char} : ∀ {left j},
    (utf8 (p ++ c :: q)).length + j = utf8Len p + c.utf8Size + left → j < c.utf8Size →
    raiseToBoundary (utf8 (p ++ c :: q)) left = utf8Len p + c.utf8Size
  | 0, j, hj, _ => by
    have hlen : (utf8 (p ++ c :: q)).length = utf8Len q + c.utf8Size + utf8Len p := by
      rw [length_utf8, utf8Len_append, utf8Len_cons, add_comm]
    rw [raiseToBoundary]
    omega
  | left + 1, j, hj, hlt => by
    rw [raiseToBoundary, isCharBoundary_utf8]
    cases j with
    | zero =>
      have hcut : (utf8 (p ++ c :: q)).length - (left + 1) = utf8Len (p ++ [c]) := by
        rw [utf8Len_append, utf8Len_cons, utf8Len_nil]
        omega
      rw [hcut, if_pos, utf8Len_append, utf8Len_cons, utf8Len_nil, zero_add]
      have happ := Text.isCharBoundary_append (p ++ [c]) q
      rwa [append_assoc, singleton_append] at happ
    | succ j =>
      have hcut : (utf8 (p ++ c :: q)).length - (left + 1) =
          utf8Len p + (c.utf8Size - (j + 1)) := by
        omega
      rw [hcut, isCharBoundary_append_add,
        isCharBoundary_inside (by omega) (by omega), if_neg (by simp)]
      exact raiseToBoundary_utf8 (j := j) (by omega) (by omega)

/-! ## Room for the counters of a walk -/

variable {cursor : SequenceCursor}

/-- **The counters of a text walk have room**: a frame made by `textCursor` counts the children in
front of the one it enters twice, and even so no sum passes `u64::MAX`. -/
def Steady : (h : ℕ) → SequenceTree h → ℕ → ℕ → Prop
  | 0, _, _, _ => True
  | h + 1, tree, anchor, rank => ∀ l c r, tree.children = l ++ c :: r →
      ((∃ x ∈ flatten h c.2, HasBytes x) →
        anchor + textLength (leavesOf l) + textLength (leavesOf (l ++ [c])) < u64Size
          ∧ rank + (leavesOf l).length + (leavesOf (l ++ [c])).length < u64Size)
      ∧ Steady h c.2 (anchor + textLength (leavesOf l)) (rank + (leavesOf l).length)

/-- A document of less than half the range of the counters is steady. -/
theorem steady_of_lt : ∀ {h} {tree} {anchor rank},
    anchor + 2 * textLength (flatten h tree) < u64Size →
    rank + 2 * (flatten h tree).length < u64Size → Steady h tree anchor rank
  | 0, _, _, _, _, _ => trivial
  | h + 1, tree, anchor, rank, hbytes, hpcs => by
    intro l c r hsplit
    rw [flatten_succ, hsplit] at hbytes hpcs
    simp only [leavesOf_append, leavesOf_cons, leavesOf_nil, append_nil, textLength_append,
      length_append] at hbytes hpcs ⊢
    exact ⟨fun _ => ⟨by omega, by omega⟩, steady_of_lt (by omega) (by omega)⟩

/-- Frames that are ahead by any amount. -/
def Adrift (_ _ : ℕ) : Prop := True

variable {H h : ℕ} {root : SequenceRef H} {b a : Leaves} {frames : List CursorFrame}
  {x : DraftPieceLeafValue}

theorem RankPath.steady (hsteady : Steady H root.tree 0 0) {ref : SequenceRef h}
    (path : RankPath root h ref frames b a) : Steady h ref.tree (textLength b) b.length := by
  induction path with
  | start => exact hsteady
  | enter path split ih =>
    rw [textLength_append, length_append]
    exact (ih _ _ _ split).2

/-- The frames of a text cursor on a steady document can be walked. -/
theorem RankPath.adrift (hroot : WellFormedRoot root) (hsteady : Steady H root.tree 0 0)
    {ref : SequenceRef h}
    (path : RankPath root h ref frames b a) (hex : ∃ x ∈ flatten h ref.tree, HasBytes x) :
    DriftPath Adrift HasBytes root h ref frames b a := by
  induction path with
  | start => exact .start
  | @enter h ref frames b a l r c path split ih =>
    have hs : ∀ d ∈ ref.tree.children, Summarizes d.1 (flatten h d.2) := fun d hd => by
      obtain ⟨_, hplaced⟩ := path.placed
      exact ((hplaced.wellFormed hroot).1.child hd).summary
    have hc : c ∈ ref.tree.children := by rw [split]; simp
    obtain ⟨x, hx, hbytes⟩ := hex
    have hroom : Covered HasBytes ref.tree.children l.length
        (textLength b + textLength (leavesOf l)) (b.length + (leavesOf l).length) := by
      -- the last child with text needs the most room
      obtain ⟨i, d, hpos⟩ := exists_rposition_eq_some
        (⟨c, hc, (reads_hasText _ _ (hs c hc)).mpr ⟨x, hx, hbytes⟩⟩ :
          ∃ d ∈ ref.tree.children, hasText d.1 = true) 0
      obtain ⟨m, v, hsplit, -, hd, hv⟩ := rposition_eq_some hpos
      have hfree := reads_hasText.leavesOf_free (fun e he => hs e (by rw [hsplit]; simp [he])) hv
      have hle : l.length ≤ m.length := by
        by_contra hgt
        obtain ⟨w, hl, hw⟩ := append_split (hsplit.symm.trans split) (by omega)
        cases w with
        | nil => simp [hl] at hgt
        | cons e w =>
          cases hw
          exact hfree x (by simp [hx]) hbytes
      obtain ⟨w, rfl, -⟩ := append_split (split.symm.trans hsplit) hle
      obtain ⟨h1, h2⟩ := (path.steady hsteady _ _ _ hsplit).1
        ((reads_hasText _ _ (hs d (by rw [hsplit]; simp))).mp hd)
      simp only [leavesOf_append, textLength_append, length_append] at h1 h2
      refine ⟨(l ++ w) ++ [d], v, by simp [hsplit], ?_, hfree, ?_, ?_⟩
      · simp only [length_append, length_singleton]; omega
      · simp only [leavesOf_append, textLength_append]; omega
      · simp only [leavesOf_append, length_append]; omega
    have hup : ∃ y ∈ flatten (h + 1) ref.tree, HasBytes y :=
      ⟨x, by rw [flatten_succ, split]; simp [hx], hbytes⟩
    have hframe := (ih hup).enter split (show Adrift _ _ from trivial) hroom
    rwa [← textLength_append, ← length_append] at hframe

/-- A text cursor on a steady document rests on its leaf, and can be walked from there. -/
theorem RankAt.adrift (hroot : WellFormedRoot root) (hsteady : Steady H root.tree 0 0)
    (hat : RankAt root cursor b x a)
    (hx : HasBytes x) : DriftAt Adrift HasBytes root cursor b x a := by
  obtain ⟨ref, path, rfl, hleaf⟩ := hat
  exact ⟨ref, 0, 0, path.adrift hroot hsteady ⟨_, by simp, hx⟩, rfl, trivial, hleaf⟩

/-! ## The text of a document -/

variable {t : Utf8}

/-- The bytes of a run of leaves. -/
def documentText (leaves : Leaves) : Utf8 := leaves.flatMap (·.bytes)

@[simp] theorem documentText_nil : documentText [] = [] := rfl
@[simp] theorem documentText_append (xs ys : Leaves) :
    documentText (xs ++ ys) = documentText xs ++ documentText ys := flatMap_append
@[simp] theorem documentText_cons (x : DraftPieceLeafValue) (xs : Leaves) :
    documentText (x :: xs) = x.bytes ++ documentText xs := flatMap_cons

theorem length_documentText (leaves : Leaves) :
    (documentText leaves).length = textLength leaves := by
  induction leaves with
  | nil => rfl
  | cons x xs ih => rw [documentText_cons, length_append, ih, textLength_cons]

/-- The text leaves are texts: each holds whole characters, as a `String` does. -/
def Textual (leaves : Leaves) : Prop := ∀ x ∈ leaves, ∃ s, x.bytes = utf8 s

theorem Textual.of_append {xs ys : Leaves} (h : Textual (xs ++ ys)) : Textual xs ∧ Textual ys :=
  ⟨fun x hx => h x (mem_append_left _ hx), fun x hx => h x (mem_append_right _ hx)⟩

theorem Textual.spells : ∀ {leaves}, Textual leaves → ∃ s, documentText leaves = utf8 s
  | [], _ => ⟨[], rfl⟩
  | x :: xs, h => by
    obtain ⟨s, hs⟩ := h x (by simp)
    obtain ⟨t, ht⟩ := Textual.spells fun y hy => h y (mem_cons_of_mem x hy)
    exact ⟨s ++ t, by rw [documentText_cons, hs, ht, utf8_append]⟩

theorem documentText_of_free {leaves : Leaves}
    (h : ∀ x ∈ leaves, ¬ HasBytes x) : documentText leaves = [] := by
  refine flatMap_eq_nil_iff.mpr fun x hx => ?_
  simpa [HasBytes] using h x hx

/-- **A coordinate of the document inside one of its leaves**, in characters. -/
theorem Textual.cut {text : Chars}
    (htxt : Textual (b ++ .text t :: a)) (htext : documentText (b ++ .text t :: a) = utf8 text) :
    ∃ B S R, documentText b = utf8 B ∧ t = utf8 S ∧ documentText a = utf8 R
      ∧ text = B ++ (S ++ R) := by
  obtain ⟨hb, ha⟩ := htxt.of_append
  obtain ⟨B, hB⟩ := hb.spells
  obtain ⟨S, hS⟩ := ha (.text t) (by simp)
  obtain ⟨R, hR⟩ := Textual.spells fun x hx => ha x (mem_cons_of_mem _ hx)
  refine ⟨B, S, R, hB, hS, hR, utf8_injective ?_⟩
  rw [← htext, documentText_append, documentText_cons, hB, hS, hR, utf8_append, utf8_append]

/-! ## The forward walk -/

variable {maxBytes more : ℕ} {bytes : Utf8}

theorem hasBytes_iff : HasBytes x ↔ ∃ t, x = .text t ∧ t ≠ [] := by
  cases x <;> simp [HasBytes]

/-- A cut of at least four bytes, or of all there is, takes a character. -/
theorem takeBytes_ne_nil {q : Chars} {n : ℕ} (hq : q ≠ [])
    (hn : 4 ≤ n ∨ utf8Len q ≤ n) : takeBytes n q ≠ [] := by
  intro hnil
  obtain ⟨c, cs, rfl⟩ := exists_cons_of_ne_nil hq
  have hlt := takeBytes_eq_nil_iff.mp hnil c (by simp)
  have hle := c.utf8Size_le_four
  rw [utf8Len_cons] at hn
  omega

theorem takeBytes_min (n : ℕ) (q : Chars) :
    takeBytes (min n (utf8Len q)) q = takeBytes n q := by
  rcases le_total n (utf8Len q) with h | h
  · rw [min_eq_left h]
  · rw [min_eq_right h, takeBytes_of_le le_rfl, takeBytes_of_le h]

theorem take_drop_utf8 (p q : Chars) (n : ℕ) :
    ((utf8 (p ++ q)).drop (utf8 p).length).take (utf8Len (takeBytes n q))
      = utf8 (takeBytes n q) := by
  rw [utf8_append, drop_left, ← length_utf8]
  nth_rewrite 2 [← takeBytes_append_dropBytes n q]
  rw [utf8_append, take_left]

theorem forward_cut {q : Chars} (hq : q ≠ []) (R : Chars) (hlt : bytes.length < maxBytes) :
    ∃ P Q, (.ok (bytes ++ utf8 (takeBytes (maxBytes - bytes.length) q)) : Prepared Utf8)
        = .ok (bytes ++ utf8 P) ∧ q ++ R = P ++ Q ∧ bytes.length + (utf8 P).length ≤ maxBytes
      ∧ (4 ≤ maxBytes - bytes.length → P ≠ []) := by
  have hle := utf8Len_takeBytes_le (maxBytes - bytes.length) q
  refine ⟨_, dropBytes (maxBytes - bytes.length) q ++ R, rfl, ?_, ?_, fun h =>
    takeBytes_ne_nil hq (.inl h)⟩
  · rw [← append_assoc, takeBytes_append_dropBytes]
  · rw [length_utf8]
    omega

/-- How a forward page goes on behind a leaf that it took whole. -/
def forwardMore (maxBytes : ℕ) (cursor : SequenceCursor) (read : Utf8) : ℕ → Prepared Utf8
  | 0 => .ok read
  | more + 1 => do
    match ← advanceMatching hasText cursor.frames with
    | none => return read
    | some next => forwardWalk maxBytes more next 0 read

variable (hroot : WellFormedRoot root)
include hroot

theorem DriftAt.loadText {D : ℕ → ℕ → Prop} {p : DraftPieceLeafValue → Prop}
    (hat : DriftAt D p root cursor b (.text t) a) : loadText cursor = .ok t := by
  rw [Draft.loadText, hat.loadSequenceLeaf hroot]
  rfl

/-- **One leaf of a forward page**, in characters. -/
theorem forwardWalk_leaf {p q : Chars}
    (hat : DriftAt Adrift HasBytes root cursor b (.text (utf8 (p ++ q))) a) :
    forwardWalk maxBytes more cursor (utf8 p).length bytes
      = if utf8Len (takeBytes (maxBytes - bytes.length) q) < utf8Len q
            ∨ (bytes ++ utf8 (takeBytes (maxBytes - bytes.length) q)).length = maxBytes
          then .ok (bytes ++ utf8 (takeBytes (maxBytes - bytes.length) q))
          else forwardMore maxBytes cursor
            (bytes ++ utf8 (takeBytes (maxBytes - bytes.length) q)) more := by
  have hbdry : isCharBoundary (utf8 (p ++ q)) (utf8 p).length = true := by
    rw [isCharBoundary_utf8, length_utf8]
    exact isCharBoundary_append p q
  have hleft : (utf8 (p ++ q)).length - (utf8 p).length = utf8Len q := by
    rw [utf8_append, length_append, Nat.add_sub_cancel_left, length_utf8]
  cases more <;>
  · rw [forwardWalk]
    simp only [hat.loadText hroot, ensure_true hbdry, ok_bind, hleft, shortenTake_utf8,
      takeBytes_min, take_drop_utf8]
    rfl

/-- **A forward page does not start inside a character.** -/
theorem forwardWalk_refused {inner : ℕ} (hat : DriftAt Adrift HasBytes root cursor b (.text t) a)
    (hcut : ¬ isCharBoundary t inner = true) :
    forwardWalk maxBytes more cursor inner bytes = .error invalidUtf8Boundary := by
  cases more <;> rw [forwardWalk, hat.loadText hroot, ok_bind, ensure_false hcut] <;> rfl

/-- **A forward page is a piece of the text ahead**: whole characters, within the limit, and at
least one where four bytes are allowed. -/
theorem forwardWalk_ok : ∀ more {cursor} {b a} {p q R} {bytes},
    DriftAt Adrift HasBytes root cursor b (.text (utf8 (p ++ q))) a → q ≠ [] → Textual a →
    documentText a = utf8 R → bytes.length < maxBytes →
    ∃ P Q, forwardWalk maxBytes more cursor (utf8 p).length bytes = .ok (bytes ++ utf8 P)
      ∧ q ++ R = P ++ Q ∧ bytes.length + (utf8 P).length ≤ maxBytes
      ∧ (4 ≤ maxBytes - bytes.length → P ≠ []) := by
  intro more
  induction more with
  | zero =>
    intro cursor b a p q R bytes hat hq htxt hR hlt
    rw [forwardWalk_leaf hroot hat]
    split <;> exact forward_cut hq R hlt
  | succ more ih =>
    intro cursor b a p q R bytes hat hq htxt hR hlt
    have hle := utf8Len_takeBytes_le (maxBytes - bytes.length) q
    rw [forwardWalk_leaf hroot hat]
    split
    · exact forward_cut hq R hlt
    · next hgo =>
      -- the leaf was taken whole, and the page still has room
      rw [not_or, not_lt] at hgo
      have hwhole : takeBytes (maxBytes - bytes.length) q = q := by
        have hadd := utf8Len_takeBytes_add (maxBytes - bytes.length) q
        have hdrop : dropBytes (maxBytes - bytes.length) q = [] := utf8Len_eq_zero.mp (by omega)
        simpa [hdrop] using takeBytes_append_dropBytes (maxBytes - bytes.length) q
      rw [hwhole] at hgo hle ⊢
      have hroom : (bytes ++ utf8 q).length < maxBytes := by
        rw [length_append, length_utf8] at hgo ⊢
        omega
      obtain ⟨ref, d, e, path, -⟩ := hat
      obtain ⟨next, l, x, r, hadv, ⟨rfl, hx, hl⟩, hnext⟩ | ⟨hadv, -⟩ :=
        path.advance hroot reads_hasText
      · obtain ⟨t, rfl, ht⟩ := hasBytes_iff.mp hx
        obtain ⟨L, s, R', hL, rfl, hR', rfl⟩ := htxt.cut hR
        obtain rfl : L = [] := utf8_injective (hL.symm.trans (documentText_of_free hl))
        have hsne : s ≠ [] := fun hnil => ht (by rw [hnil]; rfl)
        obtain ⟨P, Q, hwalk, hPQ, hlen, -⟩ := ih (p := []) hnext hsne
          (fun y hy => htxt y (by simp [hy])) hR' hroom
        refine ⟨q ++ P, Q, ?_, ?_, ?_, fun _ => by simp [hq]⟩
        · rw [forwardMore, hadv, utf8_append, ← append_assoc]
          exact hwalk
        · rw [nil_append, append_assoc, hPQ]
        · rw [utf8_append, length_append]
          rw [length_append] at hlen
          omega
      · refine ⟨q, R, ?_, rfl, ?_, fun _ => hq⟩
        · rw [forwardMore, hadv]
          rfl
        · rw [length_append] at hroom
          omega

/-! ## The backward walk -/

/-- How a backward page goes on in front of a leaf that it took whole. -/
def backwardMore (maxBytes : ℕ) (cursor : SequenceCursor) (read : Utf8) : ℕ → Prepared Utf8
  | 0 => .ok read
  | more + 1 => do
    match ← retreatMatching hasText cursor.frames with
    | none => return read
    | some next => do
      let text ← loadText next
      backwardWalk maxBytes more next text.length read

omit hroot in
theorem backward_cut {p s : Chars} (B : Chars) (hlt : bytes.length < maxBytes)
    (hlen : (utf8 s).length ≤ maxBytes - bytes.length)
    (hfour : 4 ≤ maxBytes - bytes.length → s ≠ []) :
    ∃ P Q, (if s = [] ∧ bytes ≠ [] then .ok bytes else .ok (utf8 s ++ bytes) : Prepared Utf8)
        = .ok (utf8 P ++ bytes) ∧ B ++ (p ++ s) = Q ++ P ∧ bytes.length + (utf8 P).length ≤ maxBytes
      ∧ (4 ≤ maxBytes - bytes.length → P ≠ []) := by
  refine ⟨s, B ++ p, ?_, by simp, by omega, hfour⟩
  split
  · next h => rw [h.1]; rfl
  · rfl

/-- **One leaf of a backward page**, in characters: `s` is what the page takes of the part `p` of
the leaf. -/
theorem backwardWalk_leaf {p q : Chars}
    (hat : DriftAt Adrift HasBytes root cursor b (.text (utf8 (p ++ q))) a)
    (hp : p ≠ []) : ∃ p' s, p = p' ++ s ∧ (utf8 s).length ≤ maxBytes - bytes.length
      ∧ (4 ≤ maxBytes - bytes.length → s ≠ [])
      ∧ backwardWalk maxBytes more cursor (utf8 p).length bytes
        = if s = [] ∧ bytes ≠ [] then .ok bytes
          else if p' ≠ [] ∨ (utf8 s ++ bytes).length = maxBytes then .ok (utf8 s ++ bytes)
          else backwardMore maxBytes cursor (utf8 s ++ bytes) more := by
  have hmin : min (maxBytes - bytes.length) (utf8 p).length ≤ utf8Len p := by
    rw [length_utf8]
    exact Nat.min_le_right _ _
  obtain ⟨p', s, rfl, hraise, hs, hmax⟩ := raiseStart_utf8 (p := p) (q := q) hmin
  have hnil : ∀ {u}, (utf8 u).length = 0 ↔ u = [] := fun {u} => by
    rw [length_utf8, utf8Len_eq_zero]
  refine ⟨p', s, rfl, ?_, ?_, ?_⟩
  · rw [length_utf8]
    omega
  · rintro hfour rfl
    -- the character in front of the cut would have fitted
    obtain ⟨r, c, rfl⟩ : ∃ r c, p' = r ++ [c] := by
      rcases p'.eq_nil_or_concat with rfl | ⟨r, c, rfl⟩
      · simp at hp
      · exact ⟨r, c, by simp⟩
    have hlt := hmax r c rfl
    have hc := c.utf8Size_le_four
    simp only [append_nil, length_utf8, utf8Len_append, utf8Len_cons, utf8Len_nil] at hlt
    omega
  · have hstart : (utf8 p').length = (utf8 (p' ++ s)).length ↔ s = [] := by
      rw [utf8_append, length_append, ← hnil]
      omega
    have hread : ((utf8 (p' ++ s ++ q)).drop (utf8 p').length).take
        ((utf8 (p' ++ s)).length - (utf8 p').length) = utf8 s := by
      simp only [append_assoc, utf8_append, drop_left, length_append,
        Nat.add_sub_cancel_left, take_left]
    have hbytes : bytes.length ≠ 0 ↔ bytes ≠ [] := by simp
    cases more <;>
    · rw [backwardWalk]
      simp only [hat.loadText hroot, ok_bind, hraise, hstart, hread, hbytes, ne_eq, hnil]
      rfl

/-- **A backward page is a piece of the text behind**: whole characters, within the limit, and at
least one where four bytes are allowed. -/
theorem backwardWalk_ok : ∀ more {cursor} {b a} {p q B} {bytes},
    DriftAt Adrift HasBytes root cursor b (.text (utf8 (p ++ q))) a → p ≠ [] → Textual b →
    documentText b = utf8 B → bytes.length < maxBytes →
    ∃ P Q, backwardWalk maxBytes more cursor (utf8 p).length bytes = .ok (utf8 P ++ bytes)
      ∧ B ++ p = Q ++ P ∧ bytes.length + (utf8 P).length ≤ maxBytes
      ∧ (4 ≤ maxBytes - bytes.length → P ≠ []) := by
  intro more
  induction more with
  | zero =>
    intro cursor b a p q B bytes hat hp htxt hB hlt
    obtain ⟨p', s, rfl, hlen, hfour, hwalk⟩ := backwardWalk_leaf hroot hat hp
    rw [hwalk, backwardMore, ite_self]
    exact backward_cut B hlt hlen hfour
  | succ more ih =>
    intro cursor b a p q B bytes hat hp htxt hB hlt
    obtain ⟨p', s, rfl, hlen, hfour, hwalk⟩ := backwardWalk_leaf hroot hat hp
    by_cases hstop : (s = [] ∧ bytes ≠ []) ∨ p' ≠ [] ∨ (utf8 s ++ bytes).length = maxBytes
    · obtain hcut := backward_cut B hlt hlen hfour (p := p')
      rw [hwalk]
      by_cases hnone : s = [] ∧ bytes ≠ []
      · simpa only [if_pos hnone] using hcut
      · rw [if_neg hnone, if_pos (hstop.resolve_left hnone)]
        simpa only [if_neg hnone] using hcut
    · -- the leaf was taken whole, and the page still has room
      simp only [not_or, not_not] at hstop
      obtain ⟨hnone, rfl, hfull⟩ := hstop
      rw [hwalk, if_neg hnone, if_neg (not_or.mpr ⟨not_not.mpr rfl, hfull⟩)]
      have hroom : (utf8 s ++ bytes).length < maxBytes := by
        rw [length_append] at hfull ⊢
        omega
      obtain ⟨ref, d, e, path, -⟩ := hat
      obtain ⟨next, l, x, r, hret, ⟨rfl, hx, hr⟩, hnext⟩ | ⟨hret, -⟩ :=
        path.retreat hroot reads_hasText
      · obtain ⟨t, rfl, ht⟩ := hasBytes_iff.mp hx
        obtain ⟨B', u, L, hB', rfl, hL, rfl⟩ := htxt.cut hB
        obtain rfl : L = [] := utf8_injective (hL.symm.trans (documentText_of_free hr))
        have hune : u ≠ [] := fun hnil => ht (by rw [hnil]; rfl)
        rw [show utf8 u = utf8 (u ++ []) by simp] at hnext
        obtain ⟨P, Q, hwalk', hPQ, hlen', -⟩ := ih hnext hune htxt.of_append.1 hB' hroom
        refine ⟨P ++ s, Q, ?_, ?_, ?_, fun _ => append_ne_nil_of_right_ne_nil P hp⟩
        · rw [backwardMore, hret, utf8_append, append_assoc, ← hwalk', ok_bind]
          simp only [hnext.loadText hroot, ok_bind, append_nil]
        · rw [nil_append, append_nil, ← append_assoc, ← hPQ]
        · rw [utf8_append, length_append]
          rw [length_append] at hlen'
          omega
      · refine ⟨s, B, ?_, rfl, ?_, fun _ => by simpa using hp⟩
        · rw [backwardMore, hret]
          rfl
        · rw [length_append] at hroom
          omega

end Beryl.Draft
