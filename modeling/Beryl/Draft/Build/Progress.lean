import Beryl.Draft.Build.Steps

/-!
# Draft/Build/Progress — a build keeps its course and does not get stuck

The quanta of a removal and of a writing, and with them all quanta: **every quantum of a text build
keeps it on course and brings it closer to its end, and a build that can go on has a next one until
all fragments are done** (`OnCourse.advance_meets`).  So it gets through all of them
(`exists_exhausted`).
-/

namespace Beryl.Draft

open Fallible Replace List DraftPieceReplacement Build

/-! ## Removing a range -/

variable {sequence : WorkingSequence} {build : Build} {state next : BuildState}
  {k s m e piece byte : ℕ} {fragment : DraftPieceReplacement} {edits : Edits}
  {baseEnd start stop : Boundary} {target : MapRoot} {stage : Stage} {splice : Splice}
  {boundary : Boundary} {map : MapRoot}

theorem RunsEdited.refl {runs : List Run} (h : ∀ r ∈ runs, 0 < r.length) (a : ℕ) :
    RunsEdited runs runs (cutOut a a) := ⟨fun _ => (cutOut_self a _).symm, rfl, h⟩

/-- Two cuts of neighbouring ranges are one. -/
theorem RunsEdited.cut {runs mid out : List Run} {a b c : ℕ} (h : RunsEdited runs mid (cutOut b c))
    (h' : RunsEdited mid out (cutOut a b)) (hab : a ≤ b) (hbc : b ≤ c) (hc : c ≤ targetOf runs) :
    RunsEdited runs out (cutOut a c) := by
  refine ⟨fun s => ?_, h'.source.trans h.source, h'.nonzero⟩
  rw [h'.tags, h.tags, cutOut_cutOut hab hbc _ (by simpa using hc)]

theorem extent_of_workable (hworks : ∀ k top, sequence = some ⟨k, top⟩ → Workable top) :
    sequenceExtent sequence = (unitsOf (workingLeaves sequence)).length := by
  match sequence, hworks with
  | none, _ => rfl
  | some ⟨h, ref⟩, hworks => exact (hworks h ref rfl).wellFormed.summary.linkExtent_eq

/-- **An edited sequence is installed** when the map ends where it does. -/
theorem exists_installEdit
    (hl : Ledger build.document edits state.workingRoots state.mapping.currentMap)
    (hworks : ∀ k top, sequence = some ⟨k, top⟩ → Workable top)
    (hmks : markerTotal (workingLeaves sequence) = markerTotal state.workingRoots.leaves)
    (hfits : Fits (workingLeaves sequence))
    (htgt : target.measure.target = (unitsOf (workingLeaves sequence)).length)
    (frontier : Frontier) (stage : Stage) :
    ∃ next, installEdit state target sequence frontier stage = .ok next := by
  obtain ⟨roots, hbuild⟩ := hl.exists_install hworks hmks hfits
  rw [installEdit, hbuild, ok_bind, ensure_true ((extent_of_workable hworks).trans htgt.symm)]
  exact ⟨_, rfl⟩

theorem length_cutOut {α : Type} {a b : ℕ} {l : List α} (hab : a ≤ b) (hb : b ≤ l.length) :
    (cutOut a b l).length + (b - a) = l.length := by
  rw [cutOut, length_append, length_take, length_drop]
  omega

theorem measure_cut {a b : ℕ} (hmap : map.Sound) (hsound : target.Sound)
    (hruns : RunsEdited map.runs target.runs (cutOut a b)) (hab : a ≤ b)
    (hb : b ≤ targetOf map.runs) : target.measure.source = map.measure.source
      ∧ target.measure.target + (b - a) = map.measure.target := by
  rw [hmap.measure_eq, hsound.measure_eq]
  refine ⟨hruns.source, ?_⟩
  have hlen := length_cutOut hab (l := tagsFrom 0 map.runs) (by simpa using hb)
  rw [← hruns.target, length_tagsFrom] at hlen
  exact hlen

theorem measure_insert {at' n : ℕ} (hmap : map.Sound) (hsound : target.Sound)
    (hruns : RunsEdited map.runs target.runs (insertTags at' n)) :
    target.measure.source = map.measure.source
      ∧ target.measure.target = map.measure.target + n := by
  rw [hmap.measure_eq, hsound.measure_eq]
  refine ⟨hruns.source, ?_⟩
  have hlen := hruns.target
  rw [insertTags, length_append, length_append, length_take, length_drop,
    length_replicate, length_tagsFrom] at hlen
  show targetOf target.runs = targetOf map.runs + n
  omega

theorem removing_meets (hfront : state.frontier = .removing k baseEnd.rank baseEnd.rank 0 baseEnd
      start stop) (hled : Ledger build.document edits state.workingRoots state.mapping.currentMap)
    (hrange : Ranged build k fragment edits state.workingRoots.leaves
      state.mapping.fragmentSourceEndUnit s e e start stop) (hidle : state.mapping.stage = .idle) :
    Gains build state (advance build state) := by
  refine advance_text_meets (by rw [hfront]; rfl) hrange.task (by simp [advanceMapStep, hidle]) ?_
  simp only [advanceText, hidle, advanceIdle, hfront]
  rw [ensure_bind (by simp)]
  obtain ⟨b, hstop⟩ := hrange.range.stop
  refine meets_ok ⟨.applying (m := e) rfl (hled.idle (hrange.cursor_le.trans hrange.start_le)
    hstop.2.le_length) hrange (fun _ => .inl rfl) trivial, closer_of_work ?_⟩
  simp only [work, hfront, BuildState.moved]
  exact .right _ (.left _ _ (by decide))

theorem Ranged.start_eq_stop {leaves : Leaves} {sourceEnd : Option ℕ}
    (hrange : Ranged build k fragment edits leaves sourceEnd s m e start stop)
    (hocc : ∀ x ∈ leaves, x.Occupied) : start = stop ↔ m = s := by
  have h1 := hrange.cursor_le
  have h2 := hrange.start_le
  constructor
  · rintro rfl
    have := hrange.placeStart.unit_eq hrange.placeEnd
    simp only [draftUnit] at this
    omega
  · rintro rfl
    exact hrange.placeStart.eq_of_unit hocc hrange.placeEnd

section

variable (hfront : state.frontier = .applying k baseEnd start stop)
  (hled : Ledger build.document (edits ++ [⟨m, e, []⟩]) state.workingRoots state.mapping.currentMap)
  (hrange : Ranged build k fragment edits state.workingRoots.leaves
    state.mapping.fragmentSourceEndUnit s m e start stop)
include hfront hled hrange

theorem applying_continue (hstage : ApplyingStage build state edits s m start stop stage)
    (hrank : Prod.Lex (· < ·) (· < ·) stage.rank state.mapping.stage.rank) (hidle : stage ≠ .idle) :
    Progresses build state (state.setStage stage) :=
  ⟨.applying hfront hled hrange (fun h => absurd h hidle) (by cases stage <;> exact hstage),
    .right _ hrank⟩

theorem applyingIdle_meets (hst : state.mapping.stage = .idle) :
    Gains build state (advanceIdle build state k fragment) := by
  have hends := hrange.start_eq_stop hled.rooted.occupied
  simp only [advanceIdle, hfront]
  split
  · rename_i heq
    obtain rfl := hends.mp heq
    have hwritten : written build.document (edits ++ [⟨m, e, []⟩]) = draftUnit build edits m :=
      written_concat _ _ (hrange.le_stop.trans hled.apart.last.2.2.2)
    refine meets_ok ⟨.inserting (s := m) (e := e) ⟨rfl, hrange.task, hrange.range, hrange.sourceEnd,
      hled.ordered, by simpa using hled, ?_, Nat.zero_le _, .inl rfl⟩ trivial,
      closer_of_work ?_⟩
    · simpa [hwritten] using hrange.placeStart
    · simp only [work, hfront, BuildState.moved]
      exact .right _ (.left _ _ (by decide))
  · rename_i hne
    have hlt : s < m := lt_of_le_of_ne hrange.start_le fun h => hne (hends.mpr h.symm)
    exact meets_ok (applying_continue hfront hled hrange hlt
      (rank_lt hst (by simp)) (by simp))

omit hfront in
theorem draft_bytes {i : ℕ} (hi : draftUnit build edits s ≤ i) (hi' : i < draftUnit build edits m) :
    ∃ b, (unitsOf state.workingRoots.leaves)[i]? = some (.byte b) := by
  have hm := hrange.le_stop.trans hled.apart.last.2.2.2
  simp only [draftUnit] at hi hi'
  obtain ⟨j, hj, rfl⟩ : ∃ j, cursorAfter 0 edits ≤ j
      ∧ i = written build.document edits + (j - cursorAfter 0 edits) :=
    ⟨cursorAfter 0 edits + (i - written build.document edits), by omega, by omega⟩
  obtain ⟨b, hb⟩ := hrange.bytes j (by omega) (by have := hrange.le_stop; omega)
  have hget := @getElem?_replaceAll_concat _ ⟨m, e, []⟩ edits build.document j hj
    (show j < m by omega) hm
  exact ⟨b, by rw [hled.units, hget, hb]⟩

theorem proveDelete_meets (hst : state.mapping.stage = .textDeleteProof) (hlt : s < m) :
    Gains build state (proveDelete state) := by
  have hcursor := hrange.cursor_le
  obtain ⟨splice, hslice⟩ := exists_sliceAt hled.rooted.occupied hrange.placeStart hrange.placeEnd
    (by simp only [draftUnit]; omega) fun _ => draft_bytes hled hrange
  simp only [proveDelete, hfront, hled.load, ok_bind, deletionProof_eq hled.rooted hslice]
  have hpos := hslice.bounds.2.2.1
  exact meets_ok (applying_continue hfront hled hrange ⟨hslice, by omega, le_rfl, hled.sound,
    .refl hled.sound.nonzero _⟩ (rank_lt hst (by simp)) (by simp))

omit hfront in
theorem slice_le (hslice : SliceAt state.workingRoots.leaves start stop (draftUnit build edits s)
      (draftUnit build edits m) splice) :
    splice.a + splice.removed ≤ targetOf state.mapping.currentMap.runs := by
  rw [← length_tagsFrom 0, hled.tags, length_origins, ← hled.units, hslice.bounds.2.2.2.1]
  exact hrange.placeEnd.le_length

theorem deleteMap_meets {remainingEnd : ℕ}
    (hst : state.mapping.stage = .deleteMap splice target remainingEnd)
    (hstage : ApplyingStage build state edits s m start stop
        (.deleteMap splice target remainingEnd)) :
    MapGains build state (advanceMapStep state) := by
  obtain ⟨hslice, h1, h2, hsound, hruns⟩ := hstage
  have hstop := slice_le hled hrange hslice
  obtain ⟨hsrc, htgt⟩ := measure_cut hled.sound hsound hruns h2 hstop
  have hle : remainingEnd ≤ targetOf target.runs := by
    have hlen := hruns.target
    rw [cutOut, length_append, length_take, length_drop, length_tagsFrom] at hlen
    omega
  obtain ⟨new, rest, hdelete, h3, h4, hsound', hruns'⟩ := exists_deleteLeaf hsound h1 hle
  have hcut := hruns.cut (.of_delete h4.le hruns' hsound'.nonzero) h4.le h2 hstop
  simp only [advanceMapStep, hst, ensure_true (And.intro h1 (And.intro h2 (And.intro hsrc htgt))),
    ok_bind, hdelete]
  split
  · rename_i heq
    exact meets_ok ⟨_, rfl, applying_continue hfront hled hrange ⟨hslice, hsound', heq ▸ hcut⟩
      (rank_lt hst (by simp)) (by simp)⟩
  · rename_i hne
    exact meets_ok ⟨_, rfl, applying_continue hfront hled hrange
      ⟨hslice, by omega, by omega, hsound', hcut⟩ (by rw [hst]; exact .right _ h4) (by simp)⟩

theorem deleteComplete_meets (hst : state.mapping.stage = .mapComplete splice target)
    (hstage : ApplyingStage build state edits s m start stop (.mapComplete splice target)) :
    MapGains build state (advanceMapStep state) := by
  have hready := hstage
  obtain ⟨hslice, hsound, hruns⟩ := hstage
  obtain ⟨hsrc, htgt⟩ := measure_cut hled.sound hsound hruns (by omega)
    (slice_le hled hrange hslice)
  have hins := hslice.bounds.2.2.2.2
  simp only [advanceMapStep, hst]
  rw [ensure_true ⟨hsrc, by omega, by omega⟩]
  exact meets_ok ⟨_, rfl, applying_continue hfront hled hrange hready
    (rank_lt hst (by simp)) (by simp)⟩

/-- A slice is removed from the draft and from its map. -/
theorem applyDelete_meets
    (hstage : ApplyingStage build state edits s m start stop (.ready splice target)) :
    Gains build state (applyDelete state k splice target baseEnd start stop) := by
  obtain ⟨hslice, hsound, hruns⟩ := hstage
  constructor
  · intro next hok
    simp only [applyDelete, hled.load, ok_bind, bind_eq_ok, required_eq_ok, Prod.exists,
      installEdit, ensure_eq_ok, exists_const] at hok
    obtain ⟨⟨h, ref⟩, hseq, sequence, start', stop', hremove, roots, hbuild, -, hok⟩ := hok
    cases hok
    obtain ⟨m', h1, h2, hled', hstart, hstop⟩ := hled.remove hrange.cursor_le hseq hslice hsound
      hruns hremove hbuild
    have hrange' : Ranged build k fragment edits roots.leaves state.mapping.fragmentSourceEndUnit s
      m' e
        start' stop' :=
      ⟨hrange.task, hrange.fresh, hrange.range, hrange.cursor_le, h1, h2.le.trans hrange.le_stop,
        hrange.bytes, hrange.sourceEnd, hstart, hstop⟩
    have hends := hrange'.start_eq_stop hled'.rooted.occupied
    have hless : (replaceAll build.document (edits ++ [⟨m', e, []⟩])).length
        < (replaceAll build.document (edits ++ [⟨m, e, []⟩])).length := by
      have hm := hrange.le_stop.trans hled.apart.last.2.2.2
      have hc := hrange.cursor_le
      rw [length_replaceAll_eq, length_replaceAll_eq, written_concat _ _ (h2.le.trans hm),
        written_concat _ _ hm, cursorAfter_concat, cursorAfter_concat]
      simp only [length_nil]
      omega
    refine ⟨.applying rfl hled' hrange' ?_ ?_, closer_of_work ?_⟩
    · intro hidle
      by_contra hne
      have : start' ≠ stop' := fun h => hne (.inr (hends.mp h))
      simp [this] at hidle
    · by_cases hne : start' = stop'
      · simp [hne, ApplyingStage]
      · have : s < m' := lt_of_le_of_ne h1 fun h => hne (hends.mpr h.symm)
        simpa [hne, ApplyingStage] using this
    · simp only [work, hfront]
      refine .right _ (.right _ ?_)
      rwa [hled'.extent, hled.extent]
  · rintro ⟨all, hadm, hkept⟩
    have hc := hrange.cursor_le
    obtain ⟨-, h1, h2, h3, -⟩ := hslice.bounds
    have hstop := slice_le hled hrange hslice
    obtain ⟨-, htgt⟩ := measure_cut hled.sound hsound hruns (by omega) hstop
    obtain ⟨edit, rest, hedits, hedit⟩ := hrange.task.split hadm
    obtain ⟨rfl, rfl⟩ := hrange.range.unique hadm.sound hedit.range
    have he := hled.apart.last.2.2.2
    simp only at he
    -- the tree is there, since it has a slice
    obtain ⟨h, ref, hseq⟩ : ∃ h ref, state.workingRoots.sequence = some ⟨h, ref⟩ := by
      cases hseq : state.workingRoots.sequence with
      | some root => exact ⟨root.1, root.2, rfl⟩
      | none =>
        have hlen := hrange.placeEnd.le_length
        rw [BuildRoots.leaves, hseq] at hlen
        simp at hlen
        omega
    have hroots : state.workingRoots.leaves = flatten h ref.tree := by
      rw [BuildRoots.leaves, hseq]
      rfl
    obtain ⟨m', hm', ha⟩ : ∃ m', cursorAfter 0 edits + (m' - cursorAfter 0 edits) = m'
        ∧ splice.a = written build.document edits + (m' - cursorAfter 0 edits) := by
      simp only [draftUnit] at h1
      exact ⟨cursorAfter 0 edits + (splice.a - written build.document edits), by omega, by omega⟩
    simp only [draftUnit] at h1 h3
    have hcut : cutOut splice.a (draftUnit build edits m) (unitsOf (flatten h ref.tree))
        = replaceAll build.document (edits ++ [⟨m', edit.stop, []⟩]) := by
      rw [← hroots, hled.units, ha]
      exact replaceAll_remove (by omega) (by omega) (hrange.le_stop.trans he)
    have hord : Ordered (replaceAll build.document (edits ++ [⟨m', edit.stop, []⟩])) := by
      rcases lt_or_ge edit.start m' with hlt | hge
      · rw [← hcut, ← hroots]
        exact ordered_cutOut hled.rooted.ordered (u := draftUnit build edits edit.start)
          (by simp only [draftUnit]; omega) (by simp only [draftUnit]; omega)
          fun _ => draft_bytes hled hrange
      · obtain rfl : m' = edit.start := by omega
        exact hkept edits edit rest hedits
    rw [hroots] at hslice
    have hwork := (hled.rooted h ref hseq).1
    have hremoves := removeSliceAt_meets (some (some splice)) hwork hslice
    have hfits : Fits (flatten h ref.tree) := hroots ▸ hled.rooted.fits
    obtain ⟨⟨sequence, start', stop'⟩, hremove⟩ := hremoves.total ⟨by simp, hcut ▸ hord, hfits⟩
    obtain ⟨hunits, hmks, -, -, hkeeps, hworks⟩ := hremoves.sound hremove
    simp only at hunits hmks hworks
    have hlen := length_cutOut (a := splice.a) (b := splice.a + splice.removed) (by omega)
      (l := unitsOf (flatten h ref.tree)) (by
        rw [← hroots, hled.units, ← length_origins, ← hled.tags, length_tagsFrom]
        exact hstop)
    have hextent : target.measure.target = (unitsOf (workingLeaves sequence)).length := by
      rw [hled.measure, ← hled.units, hroots] at htgt
      rw [hunits, draftUnit, ← h3]
      simp only at htgt
      omega
    simp only [applyDelete, hled.load, ok_bind, hseq, required_some, hremove]
    exact exists_installEdit hled hworks (hmks.trans (congrArg markerTotal hroots.symm))
      (hkeeps hfits) hextent _ _

/-- **A quantum of a removal.** -/
theorem applying_meets
    (hstage : ApplyingStage build state edits s m start stop state.mapping.stage) :
    Gains build state (advance build state) := by
  have hk : state.frontier.ordinal = .ok (some k) := by rw [hfront]; rfl
  generalize hst : state.mapping.stage = stage at hstage
  cases stage with
  | deleteMap =>
    exact advance_map_meets hk hrange.task (deleteMap_meets hfront hled hrange hst hstage)
  | mapComplete =>
    exact advance_map_meets hk hrange.task (deleteComplete_meets hfront hled hrange hst hstage)
  | idle =>
    refine advance_text_meets hk hrange.task (by simp [advanceMapStep, hst]) ?_
    simp only [advanceText, hst]
    exact applyingIdle_meets hfront hled hrange hst
  | textDeleteProof =>
    refine advance_text_meets hk hrange.task (by simp [advanceMapStep, hst]) ?_
    simp only [advanceText, hst]
    exact proveDelete_meets hfront hled hrange hst hstage
  | ready splice target =>
    refine advance_text_meets hk hrange.task (by simp [advanceMapStep, hst]) ?_
    simp only [advanceText, hst, applyReady, hstage.1.bounds.1, hfront]
    exact applyDelete_meets hfront hled hrange hstage
  | _ => exact hstage.elim

end

/-! ## Writing a fragment -/

section

variable {stop : ℕ} {text : Utf8Text}

section

variable (hpiece : fragment.inserted[piece]? = some (.text text))
include hpiece

theorem typed_piece : fragment.typed piece byte
      = (fragment.inserted.take piece).flatMap DraftPiece.bytes ++ text.bytes.take byte := by
  rw [typed, hpiece]
  rfl

theorem typed_chunk (hle : byte ≤ stop) :
    fragment.typed piece byte ++ (text.bytes.drop byte).take (stop - byte)
      = fragment.typed piece stop := by
  rw [typed_piece hpiece, typed_piece hpiece, append_assoc, ← take_add, Nat.add_sub_cancel' hle]

end

theorem typed_end : fragment.typed fragment.inserted.length 0 = fragment.payload := by
  simp [typed, payload]

theorem length_typed_le (piece byte : ℕ) :
    (fragment.typed piece byte).length ≤ fragment.payload.length := by
  rw [payload]
  conv_rhs => rw [← take_append_drop piece fragment.inserted]
  rw [typed, flatMap_append, length_append, length_append]
  refine Nat.add_le_add_left ?_ _
  cases hget : fragment.inserted[piece]? with
  | none => simp
  | some p =>
    obtain ⟨hlt, hget⟩ := List.getElem?_eq_some_iff.mp hget
    rw [drop_eq_getElem_cons hlt, hget, flatMap_cons, length_append]
    simp only [Option.elim_some, length_take]
    omega

theorem nextChunk_eq_ok {after : ℕ × ℕ} (hpiece : fragment.inserted[piece]? = some (.text text))
    (hle : stop ≤ text.bytes.length) (hchar : isCharBoundary text.bytes stop = true)
    (hok : nextChunk (.text text) piece stop = .ok after) :
    fragment.typed piece stop = fragment.typed after.1 after.2 ∧ after.1 ≤ fragment.inserted.length
      ∧ (after.2 = 0 ∨ ∃ text, fragment.inserted[after.1]? = some (.text text)
        ∧ after.2 < text.bytes.length ∧ isCharBoundary text.bytes after.2 = true) := by
  obtain ⟨hlt, hget⟩ := List.getElem?_eq_some_iff.mp hpiece
  unfold nextChunk at hok
  split at hok
  · rename_i hend
    simp only [bind_eq_ok, checkedAdd_eq_ok, pure_eq_ok_iff] at hok
    obtain ⟨_, ⟨rfl, -⟩, rfl⟩ := hok
    refine ⟨?_, hlt, .inl rfl⟩
    rw [hend, typed_piece hpiece, typed, take_succ_eq_append_getElem hlt, hget]
    simp [DraftPiece.bytes]
  · rename_i hne
    cases hok
    exact ⟨rfl, hlt.le, .inr ⟨text, hpiece, lt_of_le_of_ne hle hne, hchar⟩⟩

end

theorem exists_atBoundary {u : ℕ}
    (hs : Rooted sequence) (hplace : PlacedAt (workingLeaves sequence) boundary u) :
    ∃ fact, atBoundary sequence boundary = .ok fact ∧ fact.unit = u := by
  have hmarks : UnitFact.Marks ⟨boundary, u,
      textLength ((workingLeaves sequence).take boundary.rank) + boundary.inner,
      markerTotal ((workingLeaves sequence).take boundary.rank),
      (workingLeaves sequence)[boundary.rank]?⟩ (workingLeaves sequence) := ⟨hplace, rfl, rfl, rfl⟩
  exact ⟨_, atBoundary_of_marks hs hmarks, rfl⟩

/-- The unit behind what is written of the fragment. -/
def penUnit (build : Build) (fragment : DraftPieceReplacement) (edits : Edits)
    (s e piece byte : ℕ) : ℕ :=
  written build.document (edits ++ [⟨s, e, (fragment.typed piece byte).map .byte⟩])

theorem Inserting.done (h : Inserting build state k fragment edits s e fragment.inserted.length 0
      baseEnd stop) : List.Forall₂ (EditOf build.predecessor.leaves) (build.fragments.take k)
        (edits ++ [⟨s, e, fragment.payload.map .byte⟩])
      ∧ Kept build.document (edits ++ [⟨s, e, fragment.payload.map .byte⟩]) := by
  obtain ⟨hlt, hget⟩ := List.getElem?_eq_some_iff.mp h.task.fragment
  have hpos := h.task.positive
  have htake : build.fragments.take k = build.fragments.take (k - 1) ++ [fragment] := by
    rw [← hget, ← take_succ_eq_append_getElem hlt, Nat.sub_add_cancel hpos]
  rw [htake]
  exact ⟨rel_append h.task.performed (.cons ⟨h.range, rfl⟩ .nil), h.task.kept.concat h.ordered⟩

/-- Every draft of an admitted build has room. -/
theorem Admitted.roomy {all : Edits} (hadm : Admitted build all)
    {edit last : Edit DraftUnit} {rest : Edits} (hedits : all = edits ++ edit :: rest)
    (happart : Apart build.document.length 0 (edits ++ [last]))
    (hins : last.inserted.length ≤ edit.inserted.length) :
    Roomy (replaceAll build.document (edits ++ [last])) := by
  have hlen := length_replaceAll_le happart
  have hroom := hadm.room
  subst hedits
  simp only [insertedTotal, map_append, map_cons, map_nil, sum_append,
    sum_cons, sum_nil, Roomy] at *
  omega

section

variable (h : Inserting build state k fragment edits s e piece byte baseEnd stop)
include h

theorem Inserting.continue
    (hstage : InsertingStage state fragment (penUnit build fragment edits s e piece byte) piece byte
      stage) (hrank : Prod.Lex (· < ·) (· < ·) stage.rank state.mapping.stage.rank) :
    Progresses build state (state.setStage stage) :=
  ⟨.inserting ⟨h.frontier, h.task, h.range, h.sourceEnd, h.ordered, h.ledger, h.place, h.piece_le,
    h.byte_lt⟩ (by cases stage <;> exact hstage), .right _ hrank⟩

theorem insertingIdle_meets (hst : state.mapping.stage = .idle) :
    Gains build state (advanceIdle build state k fragment) := by
  simp only [advanceIdle, h.frontier]
  split
  · rename_i hend
    exact meets_ok (h.continue hend (rank_lt hst (by simp)))
  · rename_i hmore
    have hlt : piece < fragment.inserted.length := by
      refine lt_of_le_of_ne h.piece_le fun heq => hmore ⟨heq, h.byte_lt.resolve_right ?_⟩
      rintro ⟨text, hget, -⟩
      have := (List.getElem?_eq_some_iff.mp hget).1
      omega
    rw [if_pos hlt]
    exact meets_ok (h.continue hlt (rank_lt hst (by simp)))

theorem exists_chunk (hv : Viable build) (hlt : piece < fragment.inserted.length) :
    ∃ chunk, insertionChunk fragment piece byte = .ok chunk := by
  obtain ⟨_, hadm, -⟩ := hv
  have hvalid := hadm.valid fragment (mem_of_getElem? h.task.fragment)
  obtain ⟨-, hpcs, -⟩ := validateFragment_eq_ok.mp hvalid
  obtain ⟨hisText, hne⟩ := hpcs _ (getElem_mem hlt)
  have hget := getElem?_eq_getElem hlt
  generalize fragment.inserted[piece] = p at hget hisText hne
  cases p with
  | marker => simp [DraftPiece.isText] at hisText
  | text text =>
    have hbyte : byte < text.bytes.length ∧ isCharBoundary text.bytes byte = true := by
      rcases h.byte_lt with rfl | ⟨text', hget', hb⟩
      · exact ⟨length_pos_of_ne_nil hne, isCharBoundary_iff.mpr (.inl rfl)⟩
      · obtain rfl : text' = text := by simpa using hget'.symm.trans hget
        exact hb
    exact exists_insertionChunk hget hbyte.1 hbyte.2

theorem Inserting.room (hv : Viable build) {stop' : ℕ} {chunk : Utf8}
    (hchunk : insertionChunk fragment piece byte = .ok (stop', chunk)) :
    (unitsOf state.workingRoots.leaves).length + chunk.length + 1 < u64Size := by
  obtain ⟨_, hadm, -⟩ := hv
  obtain ⟨edit, rest, hedits, hedit⟩ := h.task.split hadm
  obtain ⟨text, hpiece, hlt, hle, -, hbytes⟩ := insertionChunk_eq_ok hchunk
  simp only at hlt hle hbytes
  obtain ⟨happart, h1, h2, h3⟩ := h.ledger.apart.last
  have hgrown : (fragment.typed piece byte).map DraftUnit.byte ++ chunk.map .byte
      = (fragment.typed piece stop').map .byte := by
    rw [← map_append, hbytes, typed_chunk hpiece hlt.le]
  have happart' : Apart build.document.length 0
      (edits ++ [⟨s, e, (fragment.typed piece stop').map .byte⟩]) :=
    happart.concat (by exact h2) (by exact h3) (by exact h1)
  have hroom := hadm.roomy hedits happart' (by
    rw [hedit.inserted]
    simpa using length_typed_le piece stop')
  have hgrow := congrArg List.length hgrown
  simp only at h1 h2 h3
  rw [Roomy, length_replaceAll_eq, written_concat _ _ (by simp only; omega)] at hroom
  rw [h.ledger.units, length_replaceAll_eq, written_concat _ _ (by simp only; omega)]
  simp only [length_append, length_map, cursorAfter_concat] at hgrow hroom ⊢
  omega

theorem proveInsert_meets (hst : state.mapping.stage = .textInsertProof)
    (hlt : piece < fragment.inserted.length) : Gains build state (proveInsert state fragment) := by
  obtain ⟨fact, hfact, hunit⟩ := exists_atBoundary h.ledger.rooted h.place
  simp only [proveInsert, h.frontier, h.ledger.load, ok_bind, hfact]
  refine .bind ⟨id, fun hv => exists_chunk h hv hlt⟩ fun ⟨stop', chunk⟩ hchunk => ?_
  exact meets_ok (h.continue ⟨stop', chunk, hchunk, by rw [hunit]; rfl⟩
    (rank_lt hst (by simp)))

theorem insertMap_meets (hst : state.mapping.stage = .insertMap splice)
    (hstage : ChunkAt fragment (penUnit build fragment edits s e piece byte) piece byte splice) :
    MapGains build state (advanceMapStep state) := by
  have hchunkAt := hstage
  obtain ⟨stop', chunk, hchunk, rfl⟩ := hstage
  obtain ⟨text, -, hlt, hle, -, hbytes⟩ := insertionChunk_eq_ok hchunk
  simp only at hlt hle hbytes
  have hpos : 0 < chunk.length := by
    rw [hbytes, length_take, length_drop]
    omega
  have htgt : targetOf state.mapping.currentMap.runs
      = (unitsOf state.workingRoots.leaves).length := by
    rw [← length_tagsFrom 0, h.ledger.tags, length_origins, h.ledger.units]
  have hmax : maxUnits = 2 * (u64Size - 1) := rfl
  have hins := fun hroom => exists_insertMap h.ledger.sound hpos hroom (htgt ▸ h.place.le_length)
  simp only [advanceMapStep, hst]
  refine .bind (Q := fun new => new.Sound ∧ RunsEdited state.mapping.currentMap.runs new.runs
    (insertTags (penUnit build fragment edits s e piece byte) chunk.length))
    ⟨fun hok => ?_, fun hv => ?_⟩ fun new hnew => meets_ok ⟨_, rfl, h.continue ⟨hchunkAt, hnew⟩
      (rank_lt hst (by simp))⟩
  · have hadds := hok
    rw [insertMap, insertWithin, Metering.once_lift_bind, bind_eq_ok] at hadds
    obtain ⟨_, hcheck, -⟩ := hadds
    have hroom := (ensure_eq_ok.mp hcheck).2
    rw [h.ledger.sound.measure_eq] at hroom
    obtain ⟨new, hnew, hsound, hruns⟩ := hins hroom
    cases hnew.symm.trans hok
    exact ⟨hsound, hruns.edited hsound.nonzero⟩
  · have hroom := h.room hv hchunk
    obtain ⟨new, hnew, -⟩ := hins (by rw [htgt]; omega)
    exact ⟨new, hnew⟩

theorem insertComplete_meets (hst : state.mapping.stage = .mapComplete splice target)
    (hstage : InsertingStage state fragment (penUnit build fragment edits s e piece byte) piece byte
      (.mapComplete splice target)) : MapGains build state (advanceMapStep state) := by
  have hready := hstage
  obtain ⟨⟨stop', chunk, hchunk, rfl⟩, hsound, hruns⟩ := hstage
  obtain ⟨hsrc, htgt⟩ := measure_insert h.ledger.sound hsound hruns
  simp only [advanceMapStep, hst]
  rw [ensure_true ⟨hsrc, Nat.zero_le _, by simp only at htgt; omega⟩]
  exact meets_ok ⟨_, rfl, h.continue hready (rank_lt hst (by simp))⟩

theorem refreshMap_meets (hst : state.mapping.stage = .refreshMap)
    (hstage : piece = fragment.inserted.length ∧ byte = 0) :
    MapGains build state (advanceMapStep state) := by
  have hcut := h.ledger.cut (u := e) (by rw [cursorAfter_concat]) h.ledger.apart.last.2.2.2
  simp only [advanceMapStep, hst, h.sourceEnd, required_some, ok_bind, hcut]
  exact meets_ok ⟨_, rfl, h.continue ⟨hstage.1, hstage.2, by simp [penUnit]⟩
    (rank_lt hst (by simp))⟩

theorem refreshSequence_meets {mappedUnit : ℕ}
    (hst : state.mapping.stage = .refreshSequence mappedUnit)
    (hstage : InsertingStage state fragment (penUnit build fragment edits s e piece byte) piece byte
      (.refreshSequence mappedUnit)) : MapGains build state (advanceMapStep state) := by
  obtain ⟨hpiece, hbyte, rfl⟩ := hstage
  simp only [advanceMapStep, hst, h.ledger.load, ok_bind]
  refine (atUnit_meets h.ledger.rooted fun hv => ?_).bind fun fact hfact =>
    meets_ok ⟨_, rfl, h.continue ⟨hpiece, hbyte, hfact.1 ▸ hfact.2.placed⟩ (rank_lt hst (by simp))⟩
  obtain ⟨_, hadm, -⟩ := hv
  obtain ⟨b, hstop⟩ := h.range.stop
  have hcut := h.ledger.cutPoint (u := e) (by rw [cursorAfter_concat])
    (hstop.2.cutPoint hadm.chars hadm.sound.rooted.occupied)
  rwa [cursorAfter_concat, Nat.sub_self, add_zero] at hcut

/-- A chunk is written into the draft and into its map. -/
theorem applyInsert_meets
    (hstage : InsertingStage state fragment (penUnit build fragment edits s e piece byte) piece byte
      (.ready splice target)) :
    Gains build state (applyInsert state k fragment splice target piece byte baseEnd stop) := by
  obtain ⟨⟨stop', chunk, hchunk, rfl⟩, hsound, hruns⟩ := hstage
  obtain ⟨text, hpiece, hlt, hle, hchar, hbytes⟩ := insertionChunk_eq_ok hchunk
  simp only at hlt hle hchar hbytes
  have hlen : chunk.length = stop' - byte := by
    rw [hbytes, length_take, length_drop]
    omega
  have hne : chunk ≠ [] := by
    intro hnil
    rw [hnil, length_nil] at hlen
    omega
  constructor
  · intro next hok
    simp only [applyInsert, h.ledger.load, ok_bind, bind_eq_ok, hchunk, required_eq_ok, Prod.exists,
      installEdit, ensure_eq_ok, exists_const, checkedAdd_eq_ok, hpiece, Option.some.injEq,
      exists_eq_left'] at hok
    obtain ⟨-, root, hins, _, ⟨rfl, -⟩, _, ⟨rfl, -⟩, p, b, hnext, roots, hbuild, -, hok⟩ := hok
    cases hok
    obtain ⟨htyped, hpiece', hbyte'⟩ := nextChunk_eq_ok hpiece hle hchar hnext
    have hgrown : (fragment.typed piece byte).map DraftUnit.byte ++ chunk.map .byte
        = (fragment.typed p b).map .byte := by
      rw [← map_append, hbytes, typed_chunk hpiece hlt.le, htyped]
    obtain ⟨hled, hplace⟩ := h.ledger.insert h.place hne hsound hruns hins hbuild
    rw [hgrown] at hled hplace
    refine ⟨.inserting ⟨rfl, h.task, h.range, h.sourceEnd, h.ordered, hled, hplace, hpiece', hbyte'⟩
      trivial, closer_of_work ?_⟩
    simp only [work, h.frontier, h.task.fragment, Option.elim_some]
    refine .right _ (.right _ ?_)
    have hlen := congrArg List.length hgrown
    have hle' := @length_typed_le fragment p b
    simp only [length_append, length_map] at hlen
    omega
  · intro hv
    have hroom := h.room hv hchunk
    have hinserts := insertChunk_meets
      (some (some ⟨.textInsert, penUnit build fragment edits s e piece byte, 0, chunk.length⟩))
      h.ledger.rooted h.place hne
    obtain ⟨root, hroot⟩ := hinserts.total ⟨allows_some.mpr rfl, hroom⟩
    obtain ⟨hunits, hmks, -, hwork⟩ := hinserts.sound hroot
    -- the boundary lies within the draft, so its rank can be counted on
    have hrank : stop.rank + 2 < u64Size := by
      have h1 := h.place.eq_unitsBefore.2.1
      have h2 : state.workingRoots.leaves.length ≤ (unitsOf state.workingRoots.leaves).length :=
        length_le_unitsOf h.ledger.rooted.occupied
      omega
    have hpcs : piece + 1 < u64Size := by
      obtain ⟨_, hadm, -⟩ := hv
      have hvalid := hadm.valid fragment (mem_of_getElem? h.task.fragment)
      have h1 := (validateFragment_eq_ok.mp hvalid).1
      have h2 := (List.getElem?_eq_some_iff.mp hpiece).1
      have h3 : draftPiecePageMaxRecords = 256 := rfl
      have h4 : u64Size = 18446744073709551616 := rfl
      omega
    obtain ⟨next, hnext⟩ : ∃ next, nextChunk (.text text) piece stop' = .ok next := by
      unfold nextChunk
      split
      · rw [checkedAdd_of_lt hpcs]
        exact ⟨_, rfl⟩
      · exact ⟨_, rfl⟩
    obtain ⟨-, htgt⟩ := measure_insert h.ledger.sound hsound hruns
    have hextent : target.measure.target = (unitsOf (workingLeaves (some root))).length := by
      rw [htgt, h.ledger.measure, ← h.ledger.units, hunits]
      simp only [length_append, length_take, length_drop, length_map, BuildRoots.leaves]
      omega
    simp only [applyInsert, h.ledger.load, ok_bind, hchunk]
    rw [ensure_bind (by simp)]
    simp only [hroot, ok_bind]
    rw [checkedAdd_bind (by split <;> omega), checkedAdd_bind (by split <;> omega),
      hpiece, required_bind, hnext, ok_bind]
    refine exists_installEdit h.ledger (by rintro k top ⟨⟩; exact hwork) hmks
      (Roomy.fits ?_ hwork.wellFormed.occupied) hextent _ _
    rw [Roomy, hunits]
    simp only [length_append, length_take, length_drop, length_map, BuildRoots.leaves] at hroom ⊢
    omega

theorem publish_meets (hstage : piece = fragment.inserted.length ∧ byte = 0
      ∧ PlacedAt state.workingRoots.leaves boundary (penUnit build fragment edits s e piece byte)) :
    Gains build state (publish build state k fragment boundary) := by
  obtain ⟨rfl, rfl, hplace⟩ := hstage
  obtain ⟨hperf, hkept⟩ := h.done
  have hled := h.ledger
  rw [penUnit, typed_end] at hplace
  rw [typed_end] at hled
  have hlt := (List.getElem?_eq_some_iff.mp h.task.fragment).1
  simp only [publish, h.frontier, h.sourceEnd, required_some, ensure_true, and_self, ok_bind]
  refine .bind (Q := (· = k + 1)) ⟨fun hok => (checkedAdd_eq_ok.mp hok).1.symm ▸ rfl, ?_⟩ ?_
  · rintro ⟨_, hadm, -⟩
    exact ⟨_, checkedAdd_of_lt (by have := hadm.countable; omega)⟩
  rintro _ rfl
  refine meets_ok ?_
  by_cases hmore : k < build.fragments.length
  · refine ⟨.planning (k := k + 1) ⟨if_pos hmore, ⟨by omega, getElem?_eq_getElem hmore, hperf,
      hkept⟩, hled, by simp, hplace⟩ rfl, closer_of_work ?_⟩
    simp only [work, h.frontier, if_pos hmore]
    exact .left _ _ (by omega)
  · rw [take_of_length_le (by omega)] at hperf
    refine ⟨.crossValidating (if_neg hmore) ⟨hperf, hkept, hled, rfl, rfl⟩, closer_of_work ?_⟩
    simp only [work, h.frontier, if_neg hmore]
    exact .left _ _ (by omega)

/-- **A quantum of a writing.** -/
theorem Inserting.advance_meets
    (hstage : InsertingStage state fragment (penUnit build fragment edits s e piece byte) piece byte
      state.mapping.stage) : Gains build state (advance build state) := by
  have hk : state.frontier.ordinal = .ok (some k) := by rw [h.frontier]; rfl
  generalize hst : state.mapping.stage = stage at hstage
  cases stage with
  | insertMap => exact advance_map_meets hk h.task (insertMap_meets h hst hstage)
  | mapComplete => exact advance_map_meets hk h.task (insertComplete_meets h hst hstage)
  | refreshMap => exact advance_map_meets hk h.task (refreshMap_meets h hst hstage)
  | refreshSequence => exact advance_map_meets hk h.task (refreshSequence_meets h hst hstage)
  | idle =>
    refine advance_text_meets hk h.task (by simp [advanceMapStep, hst]) ?_
    simp only [advanceText, hst]
    exact insertingIdle_meets h hst
  | textInsertProof =>
    refine advance_text_meets hk h.task (by simp [advanceMapStep, hst]) ?_
    simp only [advanceText, hst]
    exact proveInsert_meets h hst hstage
  | ready splice target =>
    refine advance_text_meets hk h.task (by simp [advanceMapStep, hst]) ?_
    obtain ⟨⟨stop', chunk, hchunk, rfl⟩, hrest⟩ := hstage
    simp only [advanceText, hst, applyReady, h.frontier]
    exact applyInsert_meets h ⟨⟨stop', chunk, hchunk, rfl⟩, hrest⟩
  | publishReady =>
    refine advance_text_meets hk h.task (by simp [advanceMapStep, hst]) ?_
    simp only [advanceText, hst]
    exact publish_meets h hstage
  | _ => exact hstage.elim

end

/-! ## Runs -/

theorem crossValidate_step
    (hfront : state.frontier = .crossValidating) (hdone : Done build state edits)
    (hok : advance build state = .ok next) : Progresses build state next := by
  rw [advance, hfront] at hok
  simp only [Frontier.ordinal, ok_bind, advanceMapStep, hdone.idle, pure_eq_ok] at hok
  simp only [crossValidate, hdone.ledger.load, ok_bind, bind_eq_ok, ensure_eq_ok, exists_const]
    at hok
  obtain ⟨-, _, -, _, -, roots, hbuild, hok⟩ := hok
  cases hok
  have hl := hdone.ledger
  obtain ⟨hled, -⟩ := hl.install (fun k top h => (hl.rooted k top h).1) rfl hbuild hl.apart hl.units
    hl.sound hl.tags hl.source
  refine ⟨.complete rfl ⟨hdone.performed, hdone.kept, hled, hdone.idle, hdone.sourceEnd⟩ rfl,
    closer_of_work ?_⟩
  simp only [work, hfront]
  exact .right _ (.left _ _ (by decide))

/-- No fragment is left: the frontier is `CrossValidating` or `Complete`. -/
def BuildState.exhausted (state : BuildState) : Prop :=
  state.frontier = .crossValidating ∨ state.frontier = .complete

/-- **Every quantum keeps a build on course and brings it closer to its end**, and a build that can
go on has a next one until all fragments are done. -/
theorem OnCourse.advance_meets (hroots : build.predecessor.Sound) (h : OnCourse build state) :
    Meets (advance build state) (Viable build ∧ ¬ state.exhausted) (Progresses build state) := by
  cases h with
  | planning hplan hstage => exact (hplan.advance_meets hroots hstage).mono And.left fun _ => id
  | removing hfront hled hrange hstage =>
    exact (removing_meets hfront hled hrange hstage).mono And.left fun _ => id
  | applying hfront hled hrange hidle hstage =>
    exact (applying_meets hfront hled hrange hstage).mono And.left fun _ => id
  | inserting hins hstage => exact (hins.advance_meets hstage).mono And.left fun _ => id
  | crossValidating hfront hdone =>
    exact ⟨crossValidate_step hfront hdone, fun hc => absurd (.inl hfront) hc.2⟩
  | complete hfront =>
    refine ⟨fun hok => ?_, fun hc => absurd (.inr hfront) hc.2⟩
    rw [advance, hfront] at hok
    cases hok

theorem OnCourse.step (hroots : build.predecessor.Sound) (h : OnCourse build state)
    (hok : advance build state = .ok next) : Progresses build state next :=
  (h.advance_meets hroots).sound hok

theorem initialMap_sound {n : ℕ} (hn : n ≤ maxUnits) : (initialMap n).Sound
    ∧ tagsFrom 0 (initialMap n).runs = (List.range' 0 n).map some
    ∧ sourceOf (initialMap n).runs = n := by
  unfold initialMap
  split
  · rename_i h
    subst h
    exact ⟨trivial, rfl, rfl⟩
  · rename_i h
    refine ⟨⟨Nat.pos_of_ne_zero h, hn⟩, ?_, ?_⟩ <;> simp [MapRoot.runs, Run.tags, Run.measure]

theorem extent_le_maxUnits (hs : Rooted sequence) : sequenceExtent sequence ≤ maxUnits := by
  obtain ⟨hpcs, hbytes⟩ := hs.countable
  have hmax : maxUnits = 2 * (u64Size - 1) := rfl
  have hmks := markerTotal_le_length (workingLeaves sequence)
  rw [hs.counts.2.1, length_unitsOf]
  omega

variable (hroots : build.predecessor.Sound)
include hroots

theorem Ledger.initial :
    Ledger build.document [] build.initial.workingRoots build.initial.mapping.currentMap := by
  have hextent : sequenceExtent build.predecessor.sequence = build.document.length :=
    hroots.rooted.counts.2.1
  obtain ⟨hsound, htags, hsrc⟩ := initialMap_sound (extent_le_maxUnits hroots.rooted)
  refine ⟨Nat.zero_le _, hroots.rooted, by simp [replaceAll]; rfl, hroots.index, hroots.order,
    hsound, ?_, hsrc.trans hextent⟩
  rw [origins, replaceAll]
  exact (hextent ▸ htags)

theorem OnCourse.initial (hne : build.fragments ≠ []) : OnCourse build build.initial := by
  obtain ⟨fragment, rest, hfrags⟩ := exists_cons_of_ne_nil hne
  refine @OnCourse.planning _ _ 1 fragment [] ⟨rfl, ⟨le_rfl, by simp [hfrags], by simp,
    kept_nil _⟩, .initial hroots, rfl, ?_⟩ rfl
  exact .between (l := []) rfl

/-- **A build on course stays on course.** -/
theorem onCourse_of_reachable (hne : build.fragments ≠ [])
    (h : Reachable build state) : OnCourse build state := by
  induction h with
  | initial => exact .initial hroots hne
  | step _ hstep ih => exact (ih.step hroots hstep).1

omit hroots

end Beryl.Draft
