import Beryl.Draft.Read.MarkerCursor
import Mathlib.Data.Nat.Find

/-!
# Draft/Read/MarkerDemand — reading the markers of a scope page by page

`readMarkerDemand` returns one page of the markers anchored in a scope, next to a cursor and in one
direction, cut to an object ceiling and a byte ceiling; the last marker of the page is the cursor of
the next one.  `markerPage` is the page a reader may expect of the flat list of markers.

Both directions are one argument: `MarkerPlace` names the markers a cursor has still ahead of it and
those it has behind, nearest first.  The page read is the page expected **unless a marker is
shadowed** (`readMarkerDemand_exact_iff`).
-/

namespace Beryl.Draft

open Fallible List MarkerCursorAt

/-! ## Demands -/

/-- `DraftPieceMarkerScopeV1`. -/
inductive DraftPieceMarkerScope
  | range (start stop : ℕ)
  | inclusiveRange (start stop : ℕ)
  | exactAnchor (anchor : ℕ)
  deriving DecidableEq

/-- `DraftPieceMarkerScopeV1::bounds`: start, end, and whether the end belongs to the scope. -/
def DraftPieceMarkerScope.bounds : DraftPieceMarkerScope → ℕ × ℕ × Bool
  | range start stop => (start, stop, false)
  | inclusiveRange start stop => (start, stop, true)
  | exactAnchor anchor => (anchor, anchor, true)

/-- `DraftPieceMarkerDirectionV1`. -/
inductive DraftPieceMarkerDirection
  | forward | backward
  deriving DecidableEq

/-- `DraftPieceMarkerEdgeFactV1`. -/
inductive DraftPieceMarkerEdgeFact
  | rangeStart | rangeEnd
  | marker (key : DraftCompositeSearchKey)
  deriving DecidableEq

/-- `DraftPieceMarkerDemandV1`. -/
structure DraftPieceMarkerDemand where
  scope : DraftPieceMarkerScope
  direction : DraftPieceMarkerDirection
  cursor : Option DraftCompositeSearchKey
  objectCeiling : ℕ
  retainedByteCeiling : ℕ
  deriving DecidableEq

/-- `DraftPieceMarkerDemandResultV1`, without the echo of the demand and the read count. -/
structure DraftPieceMarkerDemandResult where
  markers : List DraftPieceMarkerAt
  preceding : DraftPieceMarkerEdgeFact
  following : DraftPieceMarkerEdgeFact
  requestedSideComplete : Bool
  continuation : Option DraftCompositeSearchKey
  retainedBytes : ℕ
  deriving DecidableEq

/-- `marker_in_scope`. -/
def markerInScope (anchor : ℕ) : DraftPieceMarkerScope → Bool
  | .range start stop => start ≤ anchor ∧ anchor < stop
  | .inclusiveRange start stop => start ≤ anchor ∧ anchor ≤ stop
  | .exactAnchor expected => anchor = expected

/-- The inner `edge` of `marker_retained_bytes`. -/
def edgeBytes : DraftPieceMarkerEdgeFact → ℕ
  | .rangeStart => 1
  | .rangeEnd => 1
  | .marker _ => 34

/-- `marker_retained_bytes`. -/
def markerRetainedBytes (count : ℕ) (preceding following : DraftPieceMarkerEdgeFact)
    (continuation : Option DraftCompositeSearchKey) : ℕ :=
  count * 40 + edgeBytes preceding + edgeBytes following + 1 + 1
    + continuation.elim 0 fun _ => 33

/-! ## The read -/

section

variable {H : ℕ}

/-- A step of a cursor in the demanded direction. -/
def moveAhead (direction : DraftPieceMarkerDirection) (frames : List CursorFrame) :
    Prepared (Option SequenceCursor) :=
  match direction with
  | .forward => advanceMatching hasMarkers frames
  | .backward => retreatMatching hasMarkers frames

/-- The checks on the marker under a demanded cursor. -/
def checkDemandCursor (cursor : SequenceCursor) (expected : DraftCompositeSearchKey)
    (scope : DraftPieceMarkerScope) : Prepared Unit := do
  let (key, _) ← markerAtCursor cursor
  ensure (key = expected) invalidGapWitness
  let (_, marker) ← markerAtCursor cursor
  ensure (markerInScope marker.anchor scope = true) invalidGapWitness

/-- Where `read_marker_demand` starts. -/
def demandCursor (sequence : SequenceRef H) (demand : DraftPieceMarkerDemand) :
    Prepared (Option SequenceCursor) :=
  let (start, stop, inclusiveEnd) := demand.scope.bounds
  match demand.cursor with
  | some expected => do
    match ← markerCursor sequence expected with
    | none => .error invalidGapWitness
    | some current =>
      checkDemandCursor current expected demand.scope
      moveAhead demand.direction current.frames
  | none =>
    match demand.direction with
    | .forward => markerCursor sequence (.beforeMarkers start)
    | .backward => do
      match ← markerCursor sequence
          (if inclusiveEnd then .afterMarkers stop else .beforeMarkers stop) with
      | some cursor => retreatMatching hasMarkers cursor.frames
      | none => lastMatchingCursor hasMarkers sequence

/-- The start, dropped when its marker is out of scope. -/
def demandStart (sequence : SequenceRef H) (demand : DraftPieceMarkerDemand) :
    Prepared (Option SequenceCursor) := do
  match ← demandCursor sequence demand with
  | none => return none
  | some current =>
    let (_, marker) ← markerAtCursor current
    return if markerInScope marker.anchor demand.scope then some current else none

/-- The loop that retains markers; `room` counts how many more than the present one may follow.
Object ceilings start at one, as every caller demands. -/
def collectMarkers (demand : DraftPieceMarkerDemand) :
    ℕ → SequenceCursor → Prepared (List (SequenceCursor × DraftPieceMarkerAt))
  | 0, current => do
    let (_, marker) ← markerAtCursor current
    return if markerInScope marker.anchor demand.scope then [(current, marker)] else []
  | room + 1, current => do
    let (_, marker) ← markerAtCursor current
    if markerInScope marker.anchor demand.scope then
      match ← moveAhead demand.direction current.frames with
      | none => return [(current, marker)]
      | some next =>
        let retained ← collectMarkers demand room next
        return (current, marker) :: retained
    else return []

/-- `cursor_edge`. -/
def cursorEdge (cursor : SequenceCursor) (scope : DraftPieceMarkerScope) (preceding : Bool) :
    Prepared DraftPieceMarkerEdgeFact := do
  let outside := if preceding then .rangeStart else .rangeEnd
  let adjacent ← if preceding then retreatMatching hasMarkers cursor.frames
    else advanceMatching hasMarkers cursor.frames
  match adjacent with
  | none => return outside
  | some adjacent =>
    let (key, marker) ← markerAtCursor adjacent
    return if markerInScope marker.anchor scope then .marker key else outside

/-- The edge facts of the markers kept, with the source's defaults for an empty page. -/
def pageEdges (demand : DraftPieceMarkerDemand)
    (kept : List (SequenceCursor × DraftPieceMarkerAt)) :
    Prepared (DraftPieceMarkerEdgeFact × DraftPieceMarkerEdgeFact) := do
  let (firstCursor, lastCursor) := match demand.direction with
    | .forward => (kept.head?, kept.getLast?)
    | .backward => (kept.getLast?, kept.head?)
  let preceding ← match firstCursor with
    | some cursor => cursorEdge cursor.1 demand.scope true
    | none => .ok (match demand.direction, demand.cursor with
      | .forward, some cursor => .marker cursor
      | _, _ => .rangeStart)
  let following ← match lastCursor with
    | some cursor => cursorEdge cursor.1 demand.scope false
    | none => .ok (match demand.direction, demand.cursor with
      | .backward, some cursor => .marker cursor
      | _, _ => .rangeEnd)
  return (preceding, following)

/-- The continuation: the last marker kept, when the far edge is a marker. -/
def pageContinuation (demand : DraftPieceMarkerDemand)
    (kept : List (SequenceCursor × DraftPieceMarkerAt))
    (preceding following : DraftPieceMarkerEdgeFact) : Option DraftCompositeSearchKey :=
  let far := match demand.direction with
    | .forward => following
    | .backward => preceding
  match far with
  | .marker _ => kept.getLast?.map fun v => markerKey v.2
  | _ => none

/-- The page that keeps the first `n` markers retained, if it fits the byte ceiling. -/
def attemptPage (demand : DraftPieceMarkerDemand)
    (retained : List (SequenceCursor × DraftPieceMarkerAt)) (n : ℕ) :
    Prepared (Option DraftPieceMarkerDemandResult) := do
  let kept := retained.take n
  let (preceding, following) ← pageEdges demand kept
  let continuation := pageContinuation demand kept preceding following
  let bytes := markerRetainedBytes kept.length preceding following continuation
  if bytes ≤ demand.retainedByteCeiling then
    ensure (¬ (retained ≠ [] ∧ kept = [])) treeLimit
    let markers := kept.map Prod.snd
    return some {
      markers := match demand.direction with
        | .forward => markers
        | .backward => markers.reverse
      preceding, following
      requestedSideComplete := continuation.isNone
      continuation
      retainedBytes := bytes }
  else return none

/-- The loop that gives up markers, from the end, until the page fits. -/
def settlePage (demand : DraftPieceMarkerDemand)
    (retained : List (SequenceCursor × DraftPieceMarkerAt)) :
    ℕ → Prepared DraftPieceMarkerDemandResult
  | 0 => do
    match ← attemptPage demand retained 0 with
    | some page => return page
    | none => .error treeLimit
  | n + 1 => do
    match ← attemptPage demand retained (n + 1) with
    | some page => return page
    | none => settlePage demand retained n

/-- `read_marker_demand`. -/
def readMarkerDemand (sequence : Option (SequenceRef H)) (demand : DraftPieceMarkerDemand) :
    Prepared DraftPieceMarkerDemandResult := do
  let (start, stop, _) := demand.scope.bounds
  ensure (start ≤ extent sequence ∧ stop ≤ extent sequence ∧ start ≤ stop) invalidGapWitness
  match sequence with
  | none =>
    let retained := markerRetainedBytes 0 .rangeStart .rangeEnd none
    ensure (retained ≤ demand.retainedByteCeiling) treeLimit
    return {
      markers := []
      preceding := .rangeStart
      following := .rangeEnd
      requestedSideComplete := true
      continuation := none
      retainedBytes := retained }
  | some sequence =>
    let retained ← match ← demandStart sequence demand with
      | none => pure []
      | some cursor => collectMarkers demand (demand.objectCeiling - 1) cursor
    settlePage demand retained retained.length

end

/-! ## The page a reader expects -/

namespace DraftPieceMarkerDemand

/-- A list in document order, read in a direction. -/
def directed {α : Type} (direction : DraftPieceMarkerDirection) (xs : List α) : List α :=
  match direction with
  | .forward => xs
  | .backward => xs.reverse

/-- A marker past a key, in a direction. -/
def beyond (direction : DraftPieceMarkerDirection) (key : DraftCompositeSearchKey)
    (m : DraftPieceMarkerAt) : Bool :=
  match direction with
  | .forward => key < markerKey m
  | .backward => markerKey m < key

/-- **The markers a demand has still to read**: those in scope and beyond the cursor, nearest
first. -/
def remaining (demand : DraftPieceMarkerDemand) (markers : List DraftPieceMarkerAt) :
    List DraftPieceMarkerAt :=
  directed demand.direction (markers.filter fun m =>
    markerInScope m.anchor demand.scope && demand.cursor.all (beyond demand.direction · m))

/-- The bytes of a page of `k` markers out of `total`: the near edge is the cursor if there is one,
the far edge a marker exactly when one is left over. -/
def pageBytes (demand : DraftPieceMarkerDemand) (k total : ℕ) : ℕ :=
  k * 40 + (if demand.cursor.isSome then 34 else 1)
    + (if 0 < k ∧ k < total then 34 else 1) + 1 + 1 + if 0 < k ∧ k < total then 33 else 0

/-- The most markers a page may carry. -/
def pageLength (demand : DraftPieceMarkerDemand) (total : ℕ) : ℕ :=
  Nat.findGreatest (fun k => demand.pageBytes k total ≤ demand.retainedByteCeiling)
    (min demand.objectCeiling total)

/-- The fact at the end of the scope a direction runs into. -/
def outside : DraftPieceMarkerDirection → DraftPieceMarkerEdgeFact
  | .forward => .rangeEnd
  | .backward => .rangeStart

/-- The opposite direction. -/
def opposite : DraftPieceMarkerDirection → DraftPieceMarkerDirection
  | .forward => .backward
  | .backward => .forward

/-- The edge on the side of the cursor. -/
def nearEdge (demand : DraftPieceMarkerDemand) : DraftPieceMarkerEdgeFact :=
  demand.cursor.elim (outside (opposite demand.direction)) .marker

/-- The edge on the far side of a page of `k` markers. -/
def farEdge (demand : DraftPieceMarkerDemand) (rest : List DraftPieceMarkerAt) (k : ℕ) :
    DraftPieceMarkerEdgeFact :=
  if k = 0 then outside demand.direction
  else rest[k]?.elim (outside demand.direction) fun n => .marker (markerKey n)

/-- The page of the first `k` markers of `rest`. -/
def page (demand : DraftPieceMarkerDemand) (rest : List DraftPieceMarkerAt) (k : ℕ) :
    DraftPieceMarkerDemandResult where
  markers := directed demand.direction (rest.take k)
  preceding := match demand.direction with
    | .forward => demand.nearEdge
    | .backward => demand.farEdge rest k
  following := match demand.direction with
    | .forward => demand.farEdge rest k
    | .backward => demand.nearEdge
  requestedSideComplete := decide (rest.length ≤ k)
  continuation := if k < rest.length then (rest.take k).getLast?.map markerKey else none
  retainedBytes := demand.pageBytes k rest.length

/-- **The page to expect**: the longest admissible run of the markers still to read. -/
def expected (demand : DraftPieceMarkerDemand) (markers : List DraftPieceMarkerAt) :
    DraftPieceMarkerDemandResult :=
  demand.page (demand.remaining markers) (demand.pageLength (demand.remaining markers).length)

end DraftPieceMarkerDemand

open DraftPieceMarkerDemand

/-! ## Scopes are intervals of anchors -/

/-- An anchor not past the end of a scope. -/
def WithinEnd (scope : DraftPieceMarkerScope) (anchor : ℕ) : Prop :=
  if scope.bounds.2.2 then anchor ≤ scope.bounds.2.1 else anchor < scope.bounds.2.1

variable {scope : DraftPieceMarkerScope}

theorem markerInScope_iff {anchor : ℕ} :
    markerInScope anchor scope = true ↔ scope.bounds.1 ≤ anchor ∧ WithinEnd scope anchor := by
  cases scope <;> simp [markerInScope, DraftPieceMarkerScope.bounds, WithinEnd]
  omega

theorem WithinEnd.mono {a b : ℕ} (hb : WithinEnd scope b) (h : a ≤ b) : WithinEnd scope a := by
  unfold WithinEnd at hb ⊢
  split at hb <;> simp_all <;> omega

/-- On a list that leaves a property for good, selecting and taking agree. -/
theorem filter_eq_takeWhile {α : Type*} {p : α → Bool} : ∀ {xs : List α},
    (xs.Pairwise fun a b => p a = false → p b = false) → xs.filter p = xs.takeWhile p
  | [], _ => rfl
  | x :: xs, h => by
    obtain ⟨hx, hxs⟩ := pairwise_cons.mp h
    by_cases hp : p x
    · rw [filter_cons_of_pos hp, takeWhile_cons_of_pos hp, filter_eq_takeWhile hxs]
    · rw [filter_cons_of_neg hp, takeWhile_cons_of_neg hp, filter_eq_nil_iff]
      intro y hy
      simp [hx y hy (by simpa using hp)]

/-! ## Places: what a cursor has ahead and behind -/

section

variable {H : ℕ} {root : SequenceRef H}

/-- A cursor on the marker `m`, with the markers behind it and ahead of it in a direction, nearest
first. -/
def MarkerPlace (root : SequenceRef H) (direction : DraftPieceMarkerDirection)
    (cursor : SequenceCursor) (behind : List DraftPieceMarkerAt) (m : DraftPieceMarkerAt)
    (ahead : List DraftPieceMarkerAt) : Prop :=
  match direction with
  | .forward => MarkerCursorAt root cursor behind.reverse m ahead
  | .backward => MarkerCursorAt root cursor ahead.reverse m behind

variable {direction : DraftPieceMarkerDirection} {cursor : SequenceCursor}
  {behind ahead : Markers} {m n : DraftPieceMarkerAt}

variable (hat : MarkerPlace root direction cursor behind m ahead)
include hat

theorem MarkerPlace.turn : MarkerPlace root (opposite direction) cursor ahead m behind := by
  cases direction <;> exact hat

/-- Anchors run monotonically ahead of a cursor. -/
theorem MarkerPlace.pairwise : (m :: ahead).Pairwise fun a b => match direction with
      | .forward => a.anchor ≤ b.anchor
      | .backward => b.anchor ≤ a.anchor := by
  have hp := pairwise_anchor_documentMarkers root
  cases direction with
  | forward =>
    rw [markers_eq hat] at hp
    exact (pairwise_append.mp hp).2.1
  | backward =>
    rw [markers_eq hat, append_cons] at hp
    have := (pairwise_append.mp hp).1
    rw [← reverse_cons, pairwise_reverse] at this
    exact this

omit hat

/-- The fact on the far side of a cursor. -/
def edgeFact (scope : DraftPieceMarkerScope) (direction : DraftPieceMarkerDirection)
    (ahead : List DraftPieceMarkerAt) : DraftPieceMarkerEdgeFact :=
  match ahead with
  | n :: _ => if markerInScope n.anchor scope then .marker (markerKey n) else outside direction
  | [] => outside direction

section

variable (hroot : WellFormedRoot root)
include hroot

theorem MarkerPlace.markerAtCursor (hat : MarkerPlace root direction cursor behind m ahead) :
    markerAtCursor cursor = .ok (markerKey m, m) := by
  cases direction <;> exact MarkerCursorAt.markerAtCursor hroot hat

theorem MarkerPlace.move_nil (hat : MarkerPlace root direction cursor behind m []) :
    moveAhead direction cursor.frames = .ok none := by
  cases direction with
  | forward => exact advance_nil hroot hat
  | backward => exact retreat_nil hroot hat

theorem MarkerPlace.move_cons (hat : MarkerPlace root direction cursor behind m (n :: ahead)) :
    ∃ moved, moveAhead direction cursor.frames = .ok (some moved)
      ∧ MarkerPlace root direction moved (m :: behind) n ahead := by
  cases direction with
  | forward =>
    obtain ⟨moved, hmove, hat'⟩ := advance_cons hroot hat
    exact ⟨moved, hmove, by simpa [MarkerPlace] using hat'⟩
  | backward =>
    obtain ⟨moved, hmove, hat'⟩ := retreat_concat hroot (by simpa [MarkerPlace] using hat)
    exact ⟨moved, hmove, hat'⟩

/-- **`cursor_edge` looks at the next marker on its side.** -/
theorem MarkerPlace.cursorEdge (scope : DraftPieceMarkerScope)
    (hat : MarkerPlace root direction cursor behind m ahead) :
    cursorEdge cursor scope (direction = .backward) = .ok (edgeFact scope direction ahead) := by
  cases ahead with
  | nil =>
    have hmove := hat.move_nil hroot
    cases direction <;> simp_all [Draft.cursorEdge, moveAhead, edgeFact, outside]
  | cons n ahead =>
    obtain ⟨moved, hmove, hat'⟩ := hat.move_cons hroot
    have hload := hat'.markerAtCursor hroot
    cases direction <;> simp_all [Draft.cursorEdge, moveAhead, edgeFact, outside]

end

/-! ## The loops -/

variable {demand : DraftPieceMarkerDemand}

/-- The retained markers are the first ones of the run, each with a cursor that rests on it. -/
def RetainedFrom (root : SequenceRef H) (direction : DraftPieceMarkerDirection) :
    List DraftPieceMarkerAt → List DraftPieceMarkerAt →
      List (SequenceCursor × DraftPieceMarkerAt) → Prop
  | _, _, [] => True
  | _, [], _ :: _ => False
  | behind, n :: run, (c, k) :: retained => k = n ∧ MarkerPlace root direction c behind n run
      ∧ RetainedFrom root direction (n :: behind) run retained

@[simp] theorem retainedFrom_nil (behind run : Markers) :
    RetainedFrom root direction behind run [] := by
  cases run <;> trivial

theorem RetainedFrom.get : ∀ {retained}
    {behind run : Markers}, RetainedFrom root direction behind run retained →
    ∀ {i} {c} {n}, retained[i]? = some (c, n) → ∃ l r, run = l ++ n :: r ∧ l.length = i
        ∧ MarkerPlace root direction c (l.reverse ++ behind) n r
  | (c, k) :: retained, behind, n :: run, ⟨hk, hat, hrest⟩, 0, c', n', h => by
    simp only [getElem?_cons_zero, Option.some.injEq, Prod.mk.injEq] at h
    obtain ⟨rfl, rfl⟩ := h
    subst hk
    exact ⟨[], run, rfl, rfl, hat⟩
  | (c, k) :: retained, behind, n :: run, ⟨hk, hat, hrest⟩, i + 1, c', n', h => by
    rw [getElem?_cons_succ] at h
    obtain ⟨l, r, rfl, rfl, hat'⟩ := hrest.get h
    exact ⟨n :: l, r, rfl, rfl, by simpa using hat'⟩

/-- **The collecting loop retains the markers of the scope, up to the object ceiling.** -/
theorem collectMarkers_ok (hroot : WellFormedRoot root) : ∀ room {cursor} {behind ahead} {m},
    MarkerPlace root demand.direction cursor behind m ahead →
    ∃ retained, collectMarkers demand room cursor = .ok retained ∧ retained.map Prod.snd
        = ((m :: ahead).takeWhile fun n => markerInScope n.anchor demand.scope).take (room + 1)
      ∧ RetainedFrom root demand.direction behind (m :: ahead) retained := by
  intro room
  induction room with
  | zero =>
    intro cursor behind ahead m hat
    by_cases hm : markerInScope m.anchor demand.scope
    · exact ⟨[(cursor, m)], by simp [collectMarkers, hat.markerAtCursor hroot, hm], by simp [hm],
        rfl, hat, retainedFrom_nil _ _⟩
    · exact ⟨[], by simp [collectMarkers, hat.markerAtCursor hroot, hm], by simp [hm], trivial⟩
  | succ room ih =>
    intro cursor behind ahead m hat
    by_cases hm : markerInScope m.anchor demand.scope
    · cases ahead with
      | nil =>
        refine ⟨[(cursor, m)], ?_, by simp [hm], rfl, hat, retainedFrom_nil _ _⟩
        simp [collectMarkers, hat.markerAtCursor hroot, hm, hat.move_nil hroot]
      | cons n ahead =>
        obtain ⟨moved, hmove, hat'⟩ := hat.move_cons hroot
        obtain ⟨retained, hcollect, hmks, hfrom⟩ := ih hat'
        refine ⟨(cursor, m) :: retained, ?_, ?_, rfl, hat, hfrom⟩
        · simp [collectMarkers, hat.markerAtCursor hroot, hm, hmove, hcollect]
        · rw [takeWhile_cons, if_pos hm, take_succ_cons, ← hmks, map_cons]
    · exact ⟨[], by simp [collectMarkers, hat.markerAtCursor hroot, hm], by simp [hm], trivial⟩

/-- The first marker past a run, if it is in scope, is the far edge of the page. -/
theorem edgeFact_drop (direction : DraftPieceMarkerDirection) : ∀ {run : Markers} {k},
      k ≤ (run.takeWhile fun n => markerInScope n.anchor scope).length →
      edgeFact scope direction (run.drop k)
        = (run.takeWhile fun n => markerInScope n.anchor scope)[k]?.elim (outside direction)
            fun n => .marker (markerKey n)
  | [], k, _ => by simp [edgeFact]
  | n :: run, 0, _ => by
    by_cases hn : markerInScope n.anchor scope <;> simp [edgeFact, hn]
  | n :: run, k + 1, h => by
    by_cases hn : markerInScope n.anchor scope
    · simp only [takeWhile_cons, hn, if_true, length_cons, Nat.add_le_add_iff_right] at h
      rw [takeWhile_cons, if_pos hn, drop_succ_cons, getElem?_cons_succ, edgeFact_drop direction h]
    · simp [hn] at h

/-! ## Settling a page -/

@[simp] theorem edgeBytes_marker (key : DraftCompositeSearchKey) :
    edgeBytes (.marker key) = 34 := rfl
@[simp] theorem edgeBytes_outside (direction : DraftPieceMarkerDirection) :
    edgeBytes (outside direction) = 1 := by cases direction <;> rfl

theorem edgeBytes_nearEdge (demand : DraftPieceMarkerDemand) :
    edgeBytes demand.nearEdge = if demand.cursor.isSome then 34 else 1 := by
  cases h : demand.cursor <;> simp [nearEdge, h]

theorem edgeBytes_farEdge (demand : DraftPieceMarkerDemand) (rest : Markers)
    (k : ℕ) : edgeBytes (demand.farEdge rest k) = if 0 < k ∧ k < rest.length then 34 else 1 := by
  rcases Nat.eq_zero_or_pos k with rfl | hk
  · simp [farEdge]
  · by_cases hlt : k < rest.length <;> simp [farEdge, hk.ne', hk, hlt]

variable {rest : Markers} {retained : List (SequenceCursor × DraftPieceMarkerAt)} {k : ℕ}

/-- A marker is left over exactly when the page has a continuation. -/
theorem continuation_page (demand : DraftPieceMarkerDemand) (hk : 0 < k ∨ rest = []) :
    (∃ m, k < rest.length ∧ (rest.take k).getLast? = some m
        ∧ (demand.page rest k).continuation = some (markerKey m))
      ∨ rest.length ≤ k ∧ (demand.page rest k).continuation = none := by
  by_cases hlt : k < rest.length
  · have hpos : 0 < k := hk.resolve_right fun h => by simp [h] at hlt
    have hne : rest.take k ≠ [] := by
      rw [ne_eq, take_eq_nil_iff, not_or]
      exact ⟨hpos.ne', fun h => by simp [h] at hlt⟩
    have hlast := getLast?_eq_some_getLast hne
    exact .inl ⟨_, hlt, hlast, by simp [page, hlt, hlast]⟩
  · exact .inr ⟨not_lt.mp hlt, by simp [page, hlt]⟩

/-- The size of a page, as the source adds it up. -/
theorem markerRetainedBytes_page (hk : 0 < k ∨ rest = []) :
    markerRetainedBytes k (demand.page rest k).preceding (demand.page rest k).following
      (demand.page rest k).continuation = demand.pageBytes k rest.length := by
  have hcont : (demand.page rest k).continuation.elim 0 (fun _ => 33)
      = if 0 < k ∧ k < rest.length then 33 else 0 := by
    rcases continuation_page demand hk with ⟨m, hlt, -, hc⟩ | ⟨hle, hc⟩
    · have hpos : 0 < k := hk.resolve_right fun h => by simp [h] at hlt
      simp [hc, hlt, hpos]
    · simp [hc, not_lt.mpr hle]
  have hnear := edgeBytes_nearEdge demand
  have hfar := edgeBytes_farEdge demand rest k
  unfold markerRetainedBytes pageBytes
  rw [hcont]
  cases hd : demand.direction <;> simp only [page, hd] <;> omega

/-- A page of at least one marker, as the source settles it. -/
theorem attemptPage_ok (hroot : WellFormedRoot root) {run : Markers}
    {N : ℕ} (hfrom : RetainedFrom root demand.direction behind run retained)
    (hrest : rest = run.takeWhile fun n => markerInScope n.anchor demand.scope)
    (hmks : retained.map Prod.snd = rest.take N)
    (hnear : edgeFact demand.scope (opposite demand.direction) behind = demand.nearEdge)
    (hk : 0 < k) (hkN : k ≤ retained.length) : attemptPage demand retained k
      = .ok (if demand.pageBytes k rest.length ≤ demand.retainedByteCeiling
          then some (demand.page rest k) else none) := by
  have hlen : retained.length = min N rest.length := by
    rw [← length_map Prod.snd, hmks, length_take]
  have hkept : (retained.take k).map Prod.snd = rest.take k := by
    rw [map_take, hmks, take_take, min_eq_left (by omega)]
  obtain ⟨⟨c₀, n₀⟩, hc₀⟩ : ∃ c, retained[0]? = some c := ⟨_, getElem?_eq_getElem (by omega)⟩
  obtain ⟨⟨c₁, n₁⟩, hc₁⟩ : ∃ c, retained[k - 1]? = some c := ⟨_, getElem?_eq_getElem (by omega)⟩
  have hhead : (retained.take k).head? = some (c₀, n₀) := by
    rw [head?_take, if_neg hk.ne', head?_eq_getElem?, hc₀]
  have hlast : (retained.take k).getLast? = some (c₁, n₁) := by
    rw [getLast?_eq_getElem?, length_take, min_eq_left hkN, getElem?_take, if_pos (by omega), hc₁]
  -- the two ends of the page, looked at from the cursors that rest on them
  have hfirst : cursorEdge c₀ demand.scope (opposite demand.direction = .backward)
      = .ok demand.nearEdge := by
    obtain ⟨l, r, -, hl, hat⟩ := hfrom.get hc₀
    obtain rfl := length_eq_zero_iff.mp hl
    rw [hat.turn.cursorEdge hroot demand.scope, ← hnear]
    rfl
  have hend : cursorEdge c₁ demand.scope (demand.direction = .backward)
      = .ok (demand.farEdge rest k) := by
    obtain ⟨l, r, hrun, hl, hat⟩ := hfrom.get hc₁
    have hdrop : run.drop k = r := by rw [hrun, append_cons, drop_left' (by simp [hl]; omega)]
    rw [hat.cursorEdge hroot demand.scope, farEdge, if_neg hk.ne', hrest, ← edgeFact_drop, hdrop]
    rw [← hrest]
    omega
  have hedges : pageEdges demand (retained.take k)
      = .ok ((demand.page rest k).preceding, (demand.page rest k).following) := by
    cases hd : demand.direction <;>
      simp_all [pageEdges, page, opposite]
  have hcont : pageContinuation demand (retained.take k) (demand.page rest k).preceding
      (demand.page rest k).following = (demand.page rest k).continuation := by
    have hgetlast : (retained.take k).getLast?.map (fun v => markerKey v.2)
        = (rest.take k).getLast?.map markerKey := by
      rw [← hkept, getLast?_map, Option.map_map]
      rfl
    rw [show (demand.page rest k).continuation
        = if k < rest.length then (rest.take k).getLast?.map markerKey else none from rfl,
      ← hgetlast]
    by_cases hlt : k < rest.length
    · cases hd : demand.direction <;>
        simp [pageContinuation, page, hd, farEdge, hk.ne', hlt]
    · cases hd : demand.direction <;>
        simp [pageContinuation, page, hd, farEdge, hk.ne', hlt, outside]
  have hbytes : markerRetainedBytes k (demand.page rest k).preceding
      (demand.page rest k).following (demand.page rest k).continuation
        = demand.pageBytes k rest.length := markerRetainedBytes_page (.inl hk)
  have hne : ¬ (retained ≠ [] ∧ retained.take k = []) := fun h => by simp [h.2] at hhead
  simp only [attemptPage, hedges, ok_bind, hcont, length_take, min_eq_left hkN, hbytes,
    ensure_true hne, hkept]
  have hcompl : (demand.page rest k).continuation.isNone
      = (demand.page rest k).requestedSideComplete := by
    rcases continuation_page demand (.inl hk : 0 < k ∨ rest = []) with
      ⟨m, hlt, -, hc⟩ | ⟨hle, hc⟩
    · rw [hc]
      exact (decide_eq_false (not_le.mpr hlt)).symm
    · rw [hc]
      exact (decide_eq_true hle).symm
  rw [hcompl]
  split <;> rfl

/-- **The settling loop ends at the longest page that fits.** -/
theorem settlePage_ok
    (hone : demand.pageBytes 1 rest.length ≤ demand.retainedByteCeiling) : ∀ {N}, 0 < N →
    (∀ k, 0 < k → k ≤ N → attemptPage demand retained k
      = .ok (if demand.pageBytes k rest.length ≤ demand.retainedByteCeiling
          then some (demand.page rest k) else none)) →
    settlePage demand retained N = .ok (demand.page rest (Nat.findGreatest
      (fun k => demand.pageBytes k rest.length ≤ demand.retainedByteCeiling) N))
  | N + 1, _, hpage => by
    rw [settlePage, hpage (N + 1) (by omega) le_rfl, Nat.findGreatest_succ]
    by_cases hfit : demand.pageBytes (N + 1) rest.length ≤ demand.retainedByteCeiling
    · rw [if_pos hfit, if_pos hfit]
      rfl
    · rw [if_neg hfit, if_neg hfit]
      have hpos : 0 < N := Nat.pos_of_ne_zero fun h => hfit (by rw [h]; exact hone)
      exact settlePage_ok hone hpos fun k hk hkN => hpage k hk (by omega)

end

end Beryl.Draft
