import Beryl.Draft.Read.MarkerDemand

/-!
# Draft/Read/MarkerPaging — a scope read to its end

Here the loops of `Draft/Read/MarkerDemand` meet the search that starts them.  `starts` says where a
read begins on the list of markers, `readMarkerDemand_eq` that it returns the page expected, and
`follows_of_clear` that the pages, each started from the continuation of the one before, list
what was still to read.  The one way to fail is a search key whose marker is shadowed (`Misread`),
and it always fails then (`readMarkerDemand_exact_iff`).
-/

namespace Beryl.Draft

open Fallible DraftPieceMarkerDemand List

/-! ## Demands that fit a document -/

/-- **The byte ceiling has room for one marker**, on the page demanded and on every later one. -/
def DraftPieceMarkerDemand.AdmitsOne (demand : DraftPieceMarkerDemand) (total : ℕ) : Prop :=
  demand.pageBytes (min 1 total) total ≤ demand.retainedByteCeiling
    ∧ ∀ key left, 0 < left → left < total →
      pageBytes { demand with cursor := some key } 1 left ≤ demand.retainedByteCeiling

/-- A scope inside the document, no cursor or one that names a marker in scope, and ceilings that
admit one marker. -/
structure Demanded {H : ℕ} (root : SequenceRef H) (demand : DraftPieceMarkerDemand) : Prop where
  ordered : demand.scope.bounds.1 ≤ demand.scope.bounds.2.1
  inside : demand.scope.bounds.2.1 ≤ root.link.logicalUtf8Bytes
  named : ∀ key ∈ demand.cursor, ∃ m ∈ documentMarkers root, key = markerKey m
    ∧ markerInScope m.anchor demand.scope = true
  objects : 1 ≤ demand.objectCeiling
  admitsOne : demand.AdmitsOne (demand.remaining (documentMarkers root)).length

/-- The key a demand is searched by. -/
def DraftPieceMarkerDemand.searchKey (demand : DraftPieceMarkerDemand) : DraftCompositeSearchKey :=
  match demand.cursor, demand.direction with
  | some key, _ => key
  | none, .forward => .beforeMarkers demand.scope.bounds.1
  | none, .backward => if demand.scope.bounds.2.2 then .afterMarkers demand.scope.bounds.2.1
      else .beforeMarkers demand.scope.bounds.2.1

/-- **A demand that the search leads astray**: its key is shadowed, and it has a cursor to find or a
marker to read. -/
def Misread {H : ℕ} (root : SequenceRef H) (demand : DraftPieceMarkerDemand) : Prop :=
  MarkerShadowed root demand.searchKey
    ∧ (demand.cursor ≠ none ∨ demand.remaining (documentMarkers root) ≠ [])

/-! ## Where a read starts -/

variable {H : ℕ} {root : SequenceRef H} {demand d : DraftPieceMarkerDemand}

section

variable {cursor : SequenceCursor} {behind ahead : Markers} {m n : DraftPieceMarkerAt}
  {direction : DraftPieceMarkerDirection} {key : DraftCompositeSearchKey}

/-- The scope test of a demand, on markers. -/
abbrev inScopeOf (demand : DraftPieceMarkerDemand) (m : DraftPieceMarkerAt) : Bool :=
  markerInScope m.anchor demand.scope

/-- Ahead of a place on the near side of the scope, the markers in scope are the first ones. -/
theorem MarkerPlace.filter_eq (hat : MarkerPlace root demand.direction cursor behind m ahead)
    (hside : match demand.direction with
      | .forward => demand.scope.bounds.1 ≤ m.anchor
      | .backward => WithinEnd demand.scope m.anchor) :
    (m :: ahead).filter (inScopeOf demand) = (m :: ahead).takeWhile (inScopeOf demand) := by
  have hmono := hat.pairwise
  refine filter_eq_takeWhile (hmono.imp_of_mem fun {a b} ha hb hab hna => ?_)
  rw [← Bool.not_eq_true, inScopeOf, markerInScope_iff] at hna ⊢
  have hstart : ∀ c ∈ m :: ahead, c = m ∨ c ∈ ahead := fun c hc => mem_cons.mp hc
  cases hd : demand.direction with
  | forward =>
    simp only [hd] at hside hab hmono
    have hma : m.anchor ≤ a.anchor := by
      rcases hstart a ha with rfl | ha
      · exact le_rfl
      · exact (pairwise_cons.mp hmono).1 a ha
    exact fun hb => hna ⟨by omega, hb.2.mono hab⟩
  | backward =>
    simp only [hd] at hside hab hmono
    have hma : a.anchor ≤ m.anchor := by
      rcases hstart a ha with rfl | ha
      · exact le_rfl
      · exact (pairwise_cons.mp hmono).1 a ha
    exact fun hb => hna ⟨by omega, hside.mono hma⟩

theorem beyond_trans (h : beyond direction key m = true)
    (h' : beyond direction (markerKey m) n = true) : beyond direction key n = true := by
  cases direction <;> simp only [beyond, decide_eq_true_eq] at h h' ⊢
  · exact h.trans h'
  · exact h'.trans h

theorem not_beyond_self :
    ¬ beyond direction (markerKey m) m = true := by cases direction <;> simp [beyond]

/-- The markers of a document in key order, in either direction. -/
theorem WellFormedDocument.directedSorted (hdoc : WellFormedDocument root)
    (direction : DraftPieceMarkerDirection) : (directed direction (documentMarkers root)).Pairwise
      fun a b => beyond direction (markerKey a) b = true := by
  have hk := hdoc.keysSorted
  cases direction with
  | forward => exact hk.imp fun h => by simpa [beyond] using h
  | backward =>
    rw [directed, pairwise_reverse]
    exact hk.imp fun h => by simpa [beyond] using h

theorem remaining_eq_filter (demand : DraftPieceMarkerDemand) (markers : Markers) :
    demand.remaining markers = (directed demand.direction markers).filter fun m =>
      inScopeOf demand m && demand.cursor.all (beyond demand.direction · m) := by
  cases hd : demand.direction <;> simp [remaining, directed, hd, inScopeOf]

theorem MarkerPlace.directed_eq (hat : MarkerPlace root direction cursor behind m ahead) :
    directed direction (documentMarkers root) = behind.reverse ++ m :: ahead := by
  cases direction <;> simp [directed, MarkerCursorAt.markers_eq hat]

/-- In a list sorted in a direction, what is beyond an element is what stands behind it. -/
theorem filter_beyond {u v : Markers}
    (h : (u ++ m :: v).Pairwise fun a b => beyond direction (markerKey a) b = true) :
    (u ++ m :: v).filter (beyond direction (markerKey m)) = v := by
  obtain ⟨-, hmv, hu⟩ := pairwise_append.mp h
  obtain ⟨hv, -⟩ := pairwise_cons.mp hmv
  rw [filter_append, filter_cons_of_neg not_beyond_self,
    filter_eq_nil_iff.mpr fun a ha h => not_beyond_self (beyond_trans (hu a ha m (by simp)) h),
    nil_append, filter_eq_self]
  exact hv

/-- Without a cursor, and with nothing of the scope behind, it is what the place starts with. -/
theorem MarkerPlace.remaining_of_start
    (hat : MarkerPlace root demand.direction cursor behind m ahead)
    (hcur : demand.cursor = none) (hbehind : ∀ n ∈ behind, ¬ inScopeOf demand n = true) :
    demand.remaining (documentMarkers root) = (m :: ahead).filter (inScopeOf demand) := by
  rw [remaining_eq_filter, hat.directed_eq]
  simp only [hcur, Option.all_none, Bool.and_true]
  rw [filter_append, filter_eq_nil_iff.mpr fun a ha => hbehind a (by simpa using ha), nil_append]

/-- What the loops need to know of the start: nothing is left to read, or the cursor rests on the
first marker of what is. -/
def Starts (root : SequenceRef H) (demand : DraftPieceMarkerDemand) : Prop :=
  (demandStart root demand = .ok none ∧ demand.remaining (documentMarkers root) = [])
    ∨ ∃ cursor behind m ahead, demandStart root demand = .ok (some cursor)
      ∧ MarkerPlace root demand.direction cursor behind m ahead
      ∧ demand.remaining (documentMarkers root) = (m :: ahead).takeWhile (inScopeOf demand)
      ∧ inScopeOf demand m = true
      ∧ edgeFact demand.scope (opposite demand.direction) behind = demand.nearEdge

/-- A cursor on the markers, as a place in a direction. -/
theorem MarkerCursorAt.place {pre post : Markers}
    (hat : MarkerCursorAt root cursor pre m post) (direction : DraftPieceMarkerDirection) :
    ∃ behind ahead, MarkerPlace root direction cursor behind m ahead := by
  cases direction with
  | forward => exact ⟨pre.reverse, post, by simpa [MarkerPlace] using hat⟩
  | backward => exact ⟨post, pre.reverse, by simpa [MarkerPlace] using hat⟩

/-- The key just past a scope. -/
def scopeEndKey (scope : DraftPieceMarkerScope) : DraftCompositeSearchKey :=
  if scope.bounds.2.2 then .afterMarkers scope.bounds.2.1 else .beforeMarkers scope.bounds.2.1

theorem markerKey_lt_scopeEndKey {scope : DraftPieceMarkerScope} :
    markerKey m < scopeEndKey scope ↔ WithinEnd scope m.anchor := by
  unfold scopeEndKey WithinEnd
  split
  · exact markerKey_lt_afterMarkers
  · exact markerKey_lt_beforeMarkers

theorem not_inScopeOf_of_le (hle : scopeEndKey demand.scope ≤ markerKey m) :
    ¬ inScopeOf demand m = true := fun hm =>
  not_lt.mpr hle (markerKey_lt_scopeEndKey.mpr (markerInScope_iff.mp hm).2)

/-- The backward search without a cursor, once the search by key is done. -/
theorem demandCursor_backward (hcur : demand.cursor = none) (hdir : demand.direction = .backward)
    {found : Option SequenceCursor} (h : markerCursor root (scopeEndKey demand.scope) = .ok found) :
    demandCursor root demand = match found with
      | some cursor => retreatMatching hasMarkers cursor.frames
      | none => lastMatchingCursor hasMarkers root := by
  simp only [scopeEndKey] at h
  simp only [demandCursor, hcur, hdir, h, ok_bind]
  cases found <;> rfl

section

variable (hdoc : WellFormedDocument root)
include hdoc

/-- Beyond a cursor stands what is ahead of it. -/
theorem MarkerPlace.remaining_of_cursor
    (hat : MarkerPlace root demand.direction cursor behind m ahead)
    (hcur : demand.cursor = some (markerKey m)) :
    demand.remaining (documentMarkers root) = ahead.filter (inScopeOf demand) := by
  have hsort := hdoc.directedSorted demand.direction
  rw [remaining_eq_filter, ← filter_filter]
  simp only [hcur, Option.all_some]
  rw [hat.directed_eq] at hsort ⊢
  rw [filter_beyond hsort]

/-- A cursor on the near side of the scope starts a read. -/
theorem MarkerPlace.starts (hcursor : demandCursor root demand = .ok (some cursor))
    (hat : MarkerPlace root demand.direction cursor behind m ahead)
    (hside : match demand.direction with
      | .forward => demand.scope.bounds.1 ≤ m.anchor
      | .backward => WithinEnd demand.scope m.anchor)
    (hrest : demand.remaining (documentMarkers root) = (m :: ahead).filter (inScopeOf demand))
    (hnear : edgeFact demand.scope (opposite demand.direction) behind = demand.nearEdge) :
    Starts root demand := by
  have hload := hat.markerAtCursor hdoc.toWellFormedRoot
  rw [hat.filter_eq hside] at hrest
  by_cases hm : inScopeOf demand m = true
  · refine .inr ⟨cursor, behind, m, ahead, ?_, hat, hrest, hm, hnear⟩
    simp [demandStart, hcursor, hload, hm]
  · refine .inl ⟨?_, by rw [hrest, takeWhile_cons_of_neg hm]⟩
    simp [demandStart, hcursor, hload, hm]

theorem starts_of_cursor (hcur : demand.cursor = some (markerKey m))
    (hmem : m ∈ documentMarkers root) (hm : inScopeOf demand m = true)
    (hclear : ¬ MarkerShadowed root (markerKey m)) : Starts root demand := by
  have hroot := hdoc.toWellFormedRoot
  rcases markerCursor_markerKey hdoc m with
    ⟨-, hwhy⟩ | ⟨-, cursor, pre, n, post, hsome, hat, hn⟩
  · exact absurd hmem (hwhy.resolve_left hclear)
  obtain rfl := hn hmem
  obtain ⟨behind, ahead, hat⟩ := hat.place demand.direction
  have hload := hat.markerAtCursor hroot
  have hcursor : demandCursor root demand = moveAhead demand.direction cursor.frames := by
    have hscope : markerInScope n.anchor demand.scope = true := hm
    simp [demandCursor, hcur, hsome, checkDemandCursor, hload, ensure, hscope]
  have hrest := hat.remaining_of_cursor hdoc hcur
  cases ahead with
  | nil => exact .inl ⟨by simp [demandStart, hcursor, hat.move_nil hroot], by simpa using hrest⟩
  | cons k ahead =>
    obtain ⟨moved, hmove, hat'⟩ := hat.move_cons hroot
    have hmono := (pairwise_cons.mp hat.pairwise).1 k (by simp)
    have hscope := markerInScope_iff.mp hm
    refine hat'.starts hdoc (hcursor.trans hmove) ?_ hrest ?_
    · cases hd : demand.direction <;> simp only [hd] at hmono ⊢
      · omega
      · exact hscope.2.mono hmono
    · simp only [inScopeOf] at hm
      simp [edgeFact, hm, nearEdge, hcur]

theorem markerCursor_of_shadowed (hsh : MarkerShadowed root key) :
    markerCursor root key = .ok none := by
  rcases markerCursor_cases hdoc key with ⟨-, h⟩ | ⟨-, -, h⟩ | ⟨h, -⟩
  · exact h
  · exact h
  · exact absurd hsh h

variable (hcur : demand.cursor = none)
include hcur

/-- A read without a cursor whose search key is shadowed starts nowhere. -/
theorem demandStart_of_shadowed (hsh : MarkerShadowed root demand.searchKey) :
    demandStart root demand = .ok none := by
  have hroot := hdoc.toWellFormedRoot
  have hnone := markerCursor_of_shadowed hdoc hsh
  cases hdir : demand.direction with
  | forward =>
    simp only [searchKey, hcur, hdir] at hnone
    simp [demandStart, demandCursor, hcur, hdir, hnone]
  | backward =>
    have hkey : demand.searchKey = scopeEndKey demand.scope := by
      simp [searchKey, hcur, hdir, scopeEndKey]
    rw [hkey] at hnone hsh
    have hcursor := demandCursor_backward hcur hdir hnone
    -- the last marker is past the end of the scope, as the shadowed one is
    obtain ⟨k, hk, hle⟩ := holdsIn_markerFrom.mp hsh.holdsIn
    obtain ⟨pre, m, hdocs⟩ : ∃ pre m, documentMarkers root = pre ++ [m] := by
      obtain hnil | ⟨pre, m, hdocs⟩ := (documentMarkers root).eq_nil_or_concat
      · rw [documentMarkers] at hnil
        simp [hnil] at hk
      · exact ⟨pre, m, by rw [hdocs, concat_eq_append]⟩
    obtain ⟨cursor, hlast, hat⟩ := lastMatchingCursor_concat hroot hdocs
    have hm : scopeEndKey demand.scope ≤ markerKey m := by
      have hsort := hdoc.keysSorted
      rw [documentMarkers] at hdocs hsort
      rw [hdocs] at hsort hk
      rcases mem_append.mp hk with hk | hk
      · exact hle.trans (hsort.append.2.2 k hk m (by simp)).le
      · rwa [mem_singleton.mp hk] at hle
    have := not_inScopeOf_of_le hm
    simp only [inScopeOf] at this
    simp [demandStart, hcursor, hlast, hat.markerAtCursor hroot, this]

/-- Where a forward read without a cursor starts: at the first marker of the scope. -/
theorem starts_forward (hdir : demand.direction = .forward) (hclear : ¬ Misread root demand) :
    Starts root demand := by
  have hcursor : demandCursor root demand
      = markerCursor root (.beforeMarkers demand.scope.bounds.1) := by
    simp [demandCursor, hcur, hdir]
  have hout : ∀ m, markerKey m < .beforeMarkers demand.scope.bounds.1 →
      ¬ inScopeOf demand m = true := fun m hlt hm => by
    have := markerKey_lt_beforeMarkers.mp hlt
    have := (markerInScope_iff.mp hm).1
    omega
  rcases markerCursor_cases hdoc (.beforeMarkers demand.scope.bounds.1) with
    ⟨hall, hnone⟩ | ⟨-, hsh, -⟩ | ⟨-, cursor, pre, m, post, hsome, hat, hpre, hle⟩
  · refine .inl ⟨by simp [demandStart, hcursor, hnone], ?_⟩
    rw [remaining_eq_filter, hdir, filter_eq_nil_iff]
    intro m hm
    simp [hout m (hall m hm)]
  · have hsh : MarkerShadowed root demand.searchKey := by simpa [searchKey, hcur, hdir] using hsh
    exact .inl ⟨demandStart_of_shadowed hdoc hcur hsh, not_not.mp fun hne => hclear ⟨hsh, .inr hne⟩⟩
  · have hplace : MarkerPlace root demand.direction cursor pre.reverse m post := by
      rw [hdir]
      simpa [MarkerPlace] using hat
    refine hplace.starts hdoc (hcursor.trans hsome) ?_ ?_ ?_
    · rw [hdir]
      exact not_lt.mp fun h => not_lt.mpr hle (markerKey_lt_beforeMarkers.mpr h)
    · exact hplace.remaining_of_start hcur fun n hn => hout n (hpre n (by simpa using hn))
    · obtain rfl | ⟨pre, k, rfl⟩ := pre.eq_nil_or_concat
      · simp [edgeFact, nearEdge, hcur]
      · have := hout k (hpre k (by simp))
        simp only [inScopeOf] at this
        simp [edgeFact, nearEdge, hcur, this]

/-- Where a backward read without a cursor starts: at the last marker of the scope. -/
theorem starts_backward (hdir : demand.direction = .backward) (hclear : ¬ Misread root demand) :
    Starts root demand := by
  have hroot := hdoc.toWellFormedRoot
  have hedge : ∀ {behind}, (∀ n ∈ behind, ¬ inScopeOf demand n = true) →
      edgeFact demand.scope (opposite demand.direction) behind = demand.nearEdge := by
    intro behind hbehind
    cases behind with
    | nil => simp [edgeFact, nearEdge, hcur]
    | cons k behind =>
      have := hbehind k (by simp)
      simp only [inScopeOf] at this
      simp [edgeFact, nearEdge, hcur, this]
  have hplace : ∀ {cursor pre m post}, MarkerCursorAt root cursor pre m post →
      MarkerPlace root demand.direction cursor post m pre.reverse := fun hat => by
    rw [hdir]
    simpa [MarkerPlace] using hat
  have hside : ∀ {m}, markerKey m < scopeEndKey demand.scope →
      match demand.direction with
      | .forward => demand.scope.bounds.1 ≤ m.anchor
      | .backward => WithinEnd demand.scope m.anchor := fun h => by
    rw [hdir]
    exact markerKey_lt_scopeEndKey.mp h
  rcases markerCursor_cases hdoc (scopeEndKey demand.scope) with
    ⟨hall, hnone⟩ | ⟨-, hsh, -⟩ | ⟨-, cursor, pre, m, post, hsome, hat, hpre, hle⟩
  · -- every marker is before the end of the scope: start from the last one
    obtain hdocs | ⟨pre, m, hdocs⟩ := (documentMarkers root).eq_nil_or_concat
    · refine .inl ⟨?_, by simp [remaining, directed, hdir, hdocs]⟩
      simp [demandStart, demandCursor_backward hcur hdir hnone, lastMatchingCursor_nil hroot hdocs]
    · rw [concat_eq_append] at hdocs
      obtain ⟨cursor, hlast, hat⟩ := lastMatchingCursor_concat hroot hdocs
      exact (hplace hat).starts hdoc ((demandCursor_backward hcur hdir hnone).trans hlast)
        (hside (hall m (by rw [hdocs]; simp)))
        ((hplace hat).remaining_of_start hcur (by simp)) (hedge (by simp))
  · have hsh : MarkerShadowed root demand.searchKey := by
      simpa [searchKey, hcur, hdir, scopeEndKey] using hsh
    exact .inl ⟨demandStart_of_shadowed hdoc hcur hsh, not_not.mp fun hne => hclear ⟨hsh, .inr hne⟩⟩
  · have hpost : ∀ n ∈ m :: post, ¬ inScopeOf demand n = true := by
      have hsort := hdoc.keysSorted
      rw [hat.markers_eq] at hsort
      intro n hn
      refine not_inScopeOf_of_le ?_
      rcases mem_cons.mp hn with rfl | hn
      · exact hle
      · exact hle.trans ((pairwise_cons.mp hsort.append.2.1).1 n hn).le
    obtain rfl | ⟨pre, n, rfl⟩ := pre.eq_nil_or_concat
    · have hback := hat.retreat_nil hroot
      refine .inl ⟨by simp [demandStart, demandCursor_backward hcur hdir hsome, hback], ?_⟩
      rw [remaining_eq_filter, hdir, filter_eq_nil_iff]
      intro n hn
      have := hpost n (by simpa [directed, hat.markers_eq, or_comm] using hn)
      simp [this]
    · rw [concat_eq_append] at hat hpre
      obtain ⟨moved, hmove, hat'⟩ := hat.retreat_concat hroot
      exact (hplace hat').starts hdoc ((demandCursor_backward hcur hdir hsome).trans hmove)
        (hside (hpre n (by simp)))
        ((hplace hat').remaining_of_start hcur hpost) (hedge hpost)

end

/-- **Where a read starts**, whenever its search key is not shadowed. -/
theorem starts (hdoc : WellFormedDocument root) (hdem : Demanded root demand)
    (hclear : ¬ Misread root demand) : Starts root demand := by
  cases hcur : demand.cursor with
  | some key =>
    obtain ⟨m, hmem, rfl, hm⟩ := hdem.named key hcur
    refine starts_of_cursor hdoc hcur hmem hm fun hsh => hclear ⟨?_, .inl (by simp [hcur])⟩
    simpa [searchKey, hcur] using hsh
  | none =>
    cases hdir : demand.direction with
    | forward => exact starts_forward hdoc hcur hdir hclear
    | backward => exact starts_backward hdoc hcur hdir hclear

end

/-! ## One page -/

theorem settlePage_nil (hroom : demand.pageBytes 0 0 ≤ demand.retainedByteCeiling) :
    settlePage demand [] 0 = .ok (demand.page [] 0) := by
  have hedges : pageEdges demand []
      = .ok ((demand.page [] 0).preceding, (demand.page [] 0).following) := by
    cases hd : demand.direction <;> cases hc : demand.cursor <;>
      simp [pageEdges, page, nearEdge, farEdge, hd, hc, outside, opposite]
  have hcont : pageContinuation demand [] (demand.page [] 0).preceding
      (demand.page [] 0).following = none := by
    simp only [pageContinuation]
    split <;> simp
  have hbytes : markerRetainedBytes 0 (demand.page [] 0).preceding
      (demand.page [] 0).following none = demand.pageBytes 0 0 :=
    markerRetainedBytes_page (k := 0) (.inr rfl)
  simp only [settlePage, attemptPage, take_nil, hedges, ok_bind, hcont, length_nil,
    hbytes, hroom, if_true, ensure]
  cases hd : demand.direction <;> simp [page, hd, directed]

theorem pageLength_pos {total : ℕ} (hobjects : 1 ≤ demand.objectCeiling) (htotal : 0 < total)
    (hroom : demand.pageBytes 1 total ≤ demand.retainedByteCeiling) : 0 < demand.pageLength total :=
  Nat.findGreatest_pos.mpr ⟨1, by omega, by omega, hroom⟩

theorem Demanded.readMarkerDemand_start (hdem : Demanded root demand) :
    readMarkerDemand (some root) demand = (do
      let start ← demandStart root demand
      let retained ← match start with
        | none => pure []
        | some cursor => collectMarkers demand (demand.objectCeiling - 1) cursor
      settlePage demand retained retained.length) := by
  have hscope : demand.scope.bounds.1 ≤ extent (some root)
      ∧ demand.scope.bounds.2.1 ≤ extent (some root)
      ∧ demand.scope.bounds.1 ≤ demand.scope.bounds.2.1 :=
    ⟨hdem.ordered.trans hdem.inside, hdem.inside, hdem.ordered⟩
  refine (congrArg (· >>= _) (ensure_true hscope)).trans ?_
  exact congrArg (demandStart root demand >>= ·) (funext fun start => by cases start <;> rfl)

/-- **A read returns the page expected**, unless its search is led astray. -/
theorem readMarkerDemand_eq (hdoc : WellFormedDocument root) (hdem : Demanded root demand)
    (hclear : ¬ Misread root demand) :
    readMarkerDemand (some root) demand = .ok (demand.expected (documentMarkers root)) := by
  have hroom := hdem.admitsOne.1
  rcases starts hdoc hdem hclear with
    ⟨hstart, hrest⟩ | ⟨cursor, behind, m, ahead, hstart, hat, hrest, hm, hnear⟩
  · rw [hrest] at hroom
    have hzero : demand.pageLength 0 = 0 :=
      Nat.le_zero.mp ((Nat.findGreatest_le _).trans (min_le_right _ _))
    rw [hdem.readMarkerDemand_start, hstart, expected, hrest]
    simpa [hzero] using settlePage_nil (by simpa using hroom)
  · obtain ⟨retained, hcollect, hmks, hfrom⟩ :=
      collectMarkers_ok hdoc.toWellFormedRoot (demand.objectCeiling - 1) hat
    have hobjects : demand.objectCeiling - 1 + 1 = demand.objectCeiling := by
      have := hdem.objects
      omega
    rw [hobjects] at hmks
    have hpos : 0 < (demand.remaining (documentMarkers root)).length := by
      rw [hrest, takeWhile_cons_of_pos hm]
      simp
    rw [min_eq_left hpos] at hroom
    have hlen : retained.length
        = min demand.objectCeiling (demand.remaining (documentMarkers root)).length := by
      rw [← length_map Prod.snd, hmks, length_take, hrest]
    rw [hdem.readMarkerDemand_start, hstart]
    simp only [hcollect, ok_bind]
    rw [settlePage_ok hroom (by rw [hlen]; have := hdem.objects; omega) fun k hk hkN =>
      attemptPage_ok hdoc.toWellFormedRoot hfrom hrest (by rw [hrest]; exact hmks) hnear hk hkN,
      hlen]
    rfl

/-- An empty page is no larger than a page of one marker. -/
theorem pageBytes_zero_le (demand : DraftPieceMarkerDemand) (total : ℕ) :
    demand.pageBytes 0 0 ≤ demand.pageBytes (min 1 total) total := by
  simp only [pageBytes]
  split_ifs <;> omega

/-- **A read led astray** fails on its cursor, or returns an empty page marked complete. -/
theorem readMarkerDemand_misread (hdoc : WellFormedDocument root) (hdem : Demanded root demand)
    (hmis : Misread root demand) : readMarkerDemand (some root) demand
      = if demand.cursor.isSome then .error invalidGapWitness else .ok (demand.page [] 0) := by
  obtain ⟨hsh, -⟩ := hmis
  cases hcur : demand.cursor with
  | some key =>
    have hkey : demand.searchKey = key := by simp [searchKey, hcur]
    have hnone := markerCursor_of_shadowed hdoc (hkey ▸ hsh)
    have hstart : demandStart root demand = .error invalidGapWitness := by
      simp [demandStart, demandCursor, hcur, hnone]
    rw [hdem.readMarkerDemand_start, hstart]
    rfl
  | none =>
    have hstart := demandStart_of_shadowed hdoc hcur hsh
    rw [hdem.readMarkerDemand_start, hstart]
    exact settlePage_nil ((pageBytes_zero_le demand _).trans hdem.admitsOne.1)

/-! ## Page after page -/

/-- The demands reached from one by following the continuations to expect. -/
inductive Reaches (markers : List DraftPieceMarkerAt) (demand : DraftPieceMarkerDemand) :
    DraftPieceMarkerDemand → Prop
  | start : Reaches markers demand demand
  | next {d : DraftPieceMarkerDemand} {key : DraftCompositeSearchKey}
      (reached : Reaches markers demand d)
      (continued : (d.expected markers).continuation = some key) :
      Reaches markers demand { d with cursor := some key }

/-- The pages read by following the continuations returned until there is none. -/
inductive Follows {H : ℕ} (sequence : Option (SequenceRef H)) :
    DraftPieceMarkerDemand → List DraftPieceMarkerDemandResult → Prop
  | last {demand : DraftPieceMarkerDemand} {page : DraftPieceMarkerDemandResult}
      (read : readMarkerDemand sequence demand = .ok page) (ended : page.continuation = none) :
      Follows sequence demand [page]
  | next {demand : DraftPieceMarkerDemand} {page : DraftPieceMarkerDemandResult}
      {key : DraftCompositeSearchKey} {pages : List DraftPieceMarkerDemandResult}
      (read : readMarkerDemand sequence demand = .ok page)
      (continued : page.continuation = some key)
      (rest : Follows sequence { demand with cursor := some key } pages) :
      Follows sequence demand (page :: pages)

/-- The markers of pages in document order; backward pages come last page first. -/
def listing (direction : DraftPieceMarkerDirection) (pages : List DraftPieceMarkerDemandResult) :
    List DraftPieceMarkerAt := (directed direction pages).flatMap (·.markers)

/-- **A demand is read exactly**: the page returned is the longest admissible run next to the
cursor, complete exactly when nothing is left, and the pages that follow list all there is to
read, once and in document order. -/
structure ReadsExactly {H : ℕ} (root : SequenceRef H) (demand : DraftPieceMarkerDemand) : Prop where
  page : readMarkerDemand (some root) demand = .ok (demand.expected (documentMarkers root))
  follows : ∃ pages, Follows (some root) demand pages
    ∧ listing demand.direction pages = (documentMarkers root).filter fun m =>
        markerInScope m.anchor demand.scope && demand.cursor.all (beyond demand.direction · m)

section

variable {key : DraftCompositeSearchKey} (direction : DraftPieceMarkerDirection)

@[simp] theorem directed_directed {α : Type}
    (xs : List α) : directed direction (directed direction xs) = xs := by
  cases direction <;> simp [directed]

theorem listing_singleton
    (page : DraftPieceMarkerDemandResult) : listing direction [page] = page.markers := by
  cases direction <;> simp [listing, directed]

theorem directed_listing_cons
    (page : DraftPieceMarkerDemandResult) (pages : List DraftPieceMarkerDemandResult) :
    directed direction (listing direction (page :: pages))
      = directed direction page.markers ++ directed direction (listing direction pages) := by
  cases direction <;> simp [listing, directed]

/-- The page to expect is the front of what is still to read: all of it, or a part that ends in
the continuation. -/
theorem expected_cases (hdem : Demanded root d) :
    (∃ u m v, d.remaining (documentMarkers root) = u ++ m :: v ∧ v ≠ []
        ∧ (d.expected (documentMarkers root)).continuation = some (markerKey m)
        ∧ directed d.direction (d.expected (documentMarkers root)).markers = u ++ [m])
      ∨ ((d.expected (documentMarkers root)).continuation = none
        ∧ directed d.direction (d.expected (documentMarkers root)).markers
          = d.remaining (documentMarkers root)) := by
  generalize hrest : d.remaining (documentMarkers root) = rest
  have hroom := hdem.admitsOne.1
  simp only [expected, hrest] at hroom ⊢
  have hk : 0 < d.pageLength rest.length ∨ rest = [] := by
    rcases eq_nil_or_concat rest with rfl | ⟨u, m, rfl⟩
    · exact .inr rfl
    · exact .inl (pageLength_pos hdem.objects (by simp) (by simpa using hroom))
  rcases continuation_page d hk with ⟨m, hlt, hlast, hc⟩ | ⟨hle, hc⟩
  · obtain ⟨u, hu⟩ := getLast?_eq_some_iff.mp hlast
    refine .inl ⟨u, m, rest.drop (d.pageLength rest.length), ?_, ?_, hc, ?_⟩
    · conv_lhs => rw [← take_append_drop (d.pageLength rest.length) rest, hu]
      simp
    · rw [ne_eq, drop_eq_nil_iff, not_le]
      exact hlt
    · rw [← hu]
      exact directed_directed _ _
  · refine .inr ⟨hc, ?_⟩
    conv_rhs => rw [← take_of_length_le hle]
    exact directed_directed _ _

theorem Reaches.trans {markers : Markers} {d' : DraftPieceMarkerDemand}
    (h : Reaches markers demand d) (h' : Reaches markers d d') : Reaches markers demand d' := by
  induction h' with
  | start => exact h
  | next _ hcont ih => exact ih.next hcont

/-- Pages that follow from a demand and list all there is to read. -/
abbrev Lists (root : SequenceRef H) (d : DraftPieceMarkerDemand)
    (pages : List DraftPieceMarkerDemandResult) : Prop :=
  Follows (some root) d pages
    ∧ directed d.direction (listing d.direction pages) = d.remaining (documentMarkers root)

variable (hdoc : WellFormedDocument root)
include hdoc

/-- Following a continuation takes the page off what is still to read. -/
theorem remaining_continue {u v : Markers}
    {m : DraftPieceMarkerAt} (hrest : d.remaining (documentMarkers root) = u ++ m :: v) :
    remaining { d with cursor := some (markerKey m) } (documentMarkers root) = v := by
  have hsort := (hdoc.directedSorted d.direction).filter fun m =>
    inScopeOf d m && d.cursor.all (beyond d.direction · m)
  have hmem : m ∈ d.remaining (documentMarkers root) := by rw [hrest]; simp
  rw [← remaining_eq_filter, hrest] at hsort
  rw [remaining_eq_filter, mem_filter, Bool.and_eq_true] at hmem
  rw [← filter_beyond hsort, ← hrest, remaining_eq_filter, remaining_eq_filter, filter_filter]
  refine filter_congr fun x _ => ?_
  -- past the page end a marker is past the old cursor too
  by_cases hx : beyond d.direction (markerKey m) x = true
  · have hall : d.cursor.all (beyond d.direction · x) = true := by
      cases hc : d.cursor with
      | none => rfl
      | some c =>
        have := hmem.2.2
        simp only [hc, Option.all_some] at this ⊢
        exact beyond_trans this hx
    simp [hx, hall, inScopeOf]
  · simp [hx]

/-- A continuation to expect names a marker, and leaves a demand that fits the document. -/
theorem Demanded.continue (hdem : Demanded root d)
    (hcont : (d.expected (documentMarkers root)).continuation = some key) :
    Demanded root { d with cursor := some key } := by
  obtain ⟨u, m, v, hrest, hv, hkey, -⟩ | ⟨hnone, -⟩ := expected_cases hdem
  case inr => simp [hnone] at hcont
  obtain rfl : markerKey m = key := Option.some.inj (hkey.symm.trans hcont)
  have hleft := remaining_continue hdoc hrest
  have hpos : 0 < v.length := length_pos_iff.mpr hv
  have hmem : m ∈ d.remaining (documentMarkers root) := by rw [hrest]; simp
  have hlt : v.length < (d.remaining (documentMarkers root)).length := by
    rw [hrest, length_append, length_cons]
    omega
  refine ⟨hdem.ordered, hdem.inside, ?_, hdem.objects, ?_⟩
  · rintro _ ⟨⟩
    rw [remaining_eq_filter, mem_filter, Bool.and_eq_true] at hmem
    refine ⟨m, ?_, rfl, hmem.2.1⟩
    have := hmem.1
    cases hd : d.direction <;> simpa [directed, hd] using this
  · rw [hleft]
    refine ⟨?_, fun k left h0 h1 => hdem.admitsOne.2 k left h0 (h1.trans hlt)⟩
    rw [min_eq_left hpos]
    exact hdem.admitsOne.2 _ _ hpos hlt

theorem Reaches.demanded (hdem : Demanded root demand)
    (h : Reaches (documentMarkers root) demand d) : Demanded root d := by
  induction h with
  | start => exact hdem
  | next _ hcont ih => exact ih.continue hdoc hcont

/-- **Following the continuations reads all there is**, when no search is led astray. -/
theorem follows_of_clear (n : ℕ) : ∀ {d}, (d.remaining (documentMarkers root)).length ≤ n →
      Demanded root d → (∀ d', Reaches (documentMarkers root) d d' → ¬ Misread root d') →
      ∃ pages, Lists root d pages := by
  induction n with
  | zero =>
    intro d hn hdem hclear
    have hread := readMarkerDemand_eq hdoc hdem (hclear d .start)
    obtain ⟨u, m, v, hrest, -⟩ | ⟨hnone, hall⟩ := expected_cases hdem
    · simp [hrest] at hn
    · exact ⟨_, .last hread hnone, by rw [listing_singleton, hall]⟩
  | succ n ih =>
    intro d hn hdem hclear
    have hread := readMarkerDemand_eq hdoc hdem (hclear d .start)
    obtain ⟨u, m, v, hrest, -, hkey, hpage⟩ | ⟨hnone, hall⟩ := expected_cases hdem
    · have hleft := remaining_continue hdoc hrest
      have hnext : Reaches (documentMarkers root) d { d with cursor := some (markerKey m) } :=
        Reaches.start.next hkey
      have hlen : v.length ≤ n := by
        rw [hrest, length_append, length_cons] at hn
        omega
      obtain ⟨pages, hfollows, hlist⟩ := ih (by rw [hleft]; exact hlen)
        (hdem.continue hdoc hkey) fun d' h => hclear d' (hnext.trans h)
      refine ⟨_, .next hread hkey hfollows, ?_⟩
      rw [directed_listing_cons, hpage, hrest]
      simp only [hleft] at hlist
      rw [hlist]
      simp
    · exact ⟨_, .last hread hnone, by rw [listing_singleton, hall]⟩

/-- Pages that list all there is start from a search that is not led astray. -/
theorem Demanded.not_misread (hdem : Demanded root d)
    {pages : List DraftPieceMarkerDemandResult} (hlists : Lists root d pages) :
        ¬ Misread root d := by
  intro hmis
  obtain ⟨hfollows, hlist⟩ := hlists
  have hread := readMarkerDemand_misread hdoc hdem hmis
  obtain ⟨page, hpage⟩ : ∃ page, readMarkerDemand (some root) d = .ok page := by
    cases hfollows with
    | last read _ => exact ⟨_, read⟩
    | next read _ _ => exact ⟨_, read⟩
  cases hcur : d.cursor with
  | some key => simp [hread, hcur] at hpage
  | none =>
    have hempty : readMarkerDemand (some root) d = .ok (d.page [] 0) := by simpa [hcur] using hread
    have hmks : (d.page [] 0).markers = [] := by
      cases hd : d.direction <;> simp [DraftPieceMarkerDemand.page, directed, hd]
    cases hfollows with
    | last read _ =>
      cases hempty.symm.trans read
      refine hmis.2.resolve_left (not_not.mpr hcur) ?_
      rw [← hlist, listing_singleton, hmks]
      cases d.direction <;> rfl
    | next read continued _ =>
      cases hempty.symm.trans read
      simp [DraftPieceMarkerDemand.page] at continued

/-- Along the demands reached, the pages still to come list what is still to read. -/
theorem Reaches.follows (hdem : Demanded root demand)
    (hreach : Reaches (documentMarkers root) demand d)
    (hfollows : ∃ pages, Lists root demand pages) : ∃ pages, Lists root d pages := by
  induction hreach with
  | start => exact hfollows
  | @next d key hreach hcont ih =>
    obtain ⟨pages, hlists⟩ := ih
    have hd := hreach.demanded hdoc hdem
    have hread := readMarkerDemand_eq hdoc hd (hd.not_misread hdoc hlists)
    obtain ⟨hfollows, hlist⟩ := hlists
    obtain ⟨u, m, v, hrest, -, hkey, hpage⟩ | ⟨hnone, -⟩ := expected_cases hd
    case inr => simp [hnone] at hcont
    obtain rfl : markerKey m = key := Option.some.inj (hkey.symm.trans hcont)
    have hleft := remaining_continue hdoc hrest
    cases hfollows with
    | last read ended =>
      cases hread.symm.trans read
      simp [hcont] at ended
    | next read continued rest =>
      cases hread.symm.trans read
      cases hcont.symm.trans continued
      refine ⟨_, rest, ?_⟩
      rw [directed_listing_cons, hpage, hrest, append_assoc, singleton_append] at hlist
      rw [hleft]
      exact (List.cons.inj (append_cancel_left hlist)).2

omit hdoc in
/-- **A demand is read exactly if and only if no search on the way is led astray** — the search
for its own start, and the one for each continuation to expect. -/
theorem readMarkerDemand_exact_iff (root : SequenceRef H) (demand : DraftPieceMarkerDemand)
    (hdoc : WellFormedDocument root) (hdemand : Demanded root demand) :
    ReadsExactly root demand
      ↔ ∀ d, Reaches (documentMarkers root) demand d → ¬ Misread root d := by
  have hlisting : ∀ pages : List DraftPieceMarkerDemandResult,
      (listing demand.direction pages = (documentMarkers root).filter fun m =>
        markerInScope m.anchor demand.scope && demand.cursor.all (beyond demand.direction · m))
      ↔ directed demand.direction (listing demand.direction pages)
        = demand.remaining (documentMarkers root) := fun pages => by
    rw [remaining]
    exact ⟨fun h => by rw [h], fun h => by
      rw [← directed_directed demand.direction (listing demand.direction pages), h,
        directed_directed]⟩
  constructor
  · rintro ⟨-, pages, hfollows, hlist⟩ d hreach
    obtain ⟨pages, hlists⟩ :=
      hreach.follows hdoc hdemand ⟨pages, hfollows, (hlisting pages).mp hlist⟩
    exact (hreach.demanded hdoc hdemand).not_misread hdoc hlists
  · intro hclear
    obtain ⟨pages, hfollows, hlist⟩ := follows_of_clear hdoc _ le_rfl hdemand hclear
    exact ⟨readMarkerDemand_eq hdoc hdemand (hclear demand .start), pages, hfollows,
      (hlisting pages).mpr hlist⟩

end

/-- The markers of a document from offset one on, read forward. -/
def tailDemand : DraftPieceMarkerDemand where
  scope := .inclusiveRange 1 2
  direction := .forward
  cursor := none
  objectCeiling := 1
  retainedByteCeiling := 143

theorem admitsOne_tailDemand (scope : DraftPieceMarkerScope) (n : ℕ) :
    AdmitsOne { tailDemand with scope := scope } n := by
  have hceiling : tailDemand.retainedByteCeiling = 143 := rfl
  refine ⟨?_, fun key left _ _ => ?_⟩
  all_goals
    simp only [pageBytes, hceiling]
    split_ifs <;> omega

theorem demanded_tailDemand : Demanded shadowingRoot tailDemand :=
  ⟨by decide, by decide, by rintro _ ⟨⟩, by decide, admitsOne_tailDemand _ _⟩

/-- All markers of the document, a page each. -/
def wholeDemand : DraftPieceMarkerDemand := { tailDemand with scope := .inclusiveRange 0 2 }

theorem not_markerShadowed {key : DraftCompositeSearchKey}
    (hfound : (markerCursor shadowingRoot key).toOption.join.isSome = true) :
    ¬ MarkerShadowed shadowingRoot key := by
  rcases markerCursor_cases wellFormed_shadowingRoot key with ⟨-, hnone⟩ | ⟨-, -, hnone⟩ |
    ⟨hclear, -⟩
  · rw [hnone] at hfound
    cases hfound
  · rw [hnone] at hfound
    cases hfound
  · exact hclear

/-- Both markers are read, on two pages. -/
theorem readMarkerDemand_exact_whole :
    Demanded shadowingRoot wholeDemand ∧ ReadsExactly shadowingRoot wholeDemand := by
  have hdemanded : Demanded shadowingRoot wholeDemand :=
    ⟨by decide, by decide, by rintro _ ⟨⟩, by decide, admitsOne_tailDemand _ _⟩
  refine ⟨hdemanded, (readMarkerDemand_exact_iff shadowingRoot wholeDemand
    wellFormed_shadowingRoot hdemanded).mpr fun d hreach hmisread => ?_⟩
  have hreached : d = wholeDemand ∨ d = { wholeDemand with cursor := some (.marker 0 1 1) } := by
    clear hmisread
    induction hreach with
    | start => exact .inl rfl
    | next _ hcontinued ih =>
      rcases ih with rfl | rfl
      · have hkey : (wholeDemand.expected (documentMarkers shadowingRoot)).continuation
            = some (.marker 0 1 1) := by decide +kernel
        cases hkey.symm.trans hcontinued
        exact .inr rfl
      · have hend : (expected { wholeDemand with cursor := some (.marker 0 1 1) }
            (documentMarkers shadowingRoot)).continuation = none := by decide +kernel
        cases hend.symm.trans hcontinued
  rcases hreached with rfl | rfl
  · exact not_markerShadowed (by decide +kernel) hmisread.1
  · exact not_markerShadowed (by decide +kernel) hmisread.1

/-- **A marker in scope is missed**: the page comes back empty and complete. -/
theorem readMarkerDemand_misses_marker :
    WellFormedDocument shadowingRoot ∧ Demanded shadowingRoot tailDemand
      ∧ (⟨1, ⟨2, 2, 2, 1⟩⟩ : DraftPieceMarkerAt) ∈ documentMarkers shadowingRoot
      ∧ readMarkerDemand (some shadowingRoot) tailDemand
        = .ok ⟨[], .rangeStart, .rangeEnd, true, none, 4⟩
      ∧ ¬ ReadsExactly shadowingRoot tailDemand := by
  have hread : readMarkerDemand (some shadowingRoot) tailDemand
      = .ok ⟨[], .rangeStart, .rangeEnd, true, none, 4⟩ := by decide +kernel
  refine ⟨wellFormed_shadowingRoot, demanded_tailDemand, by decide, hread, fun h => ?_⟩
  have hpage := hread.symm.trans h.page
  revert hpage
  decide +kernel

end Beryl.Draft
