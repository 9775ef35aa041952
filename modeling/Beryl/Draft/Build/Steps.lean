import Beryl.Draft.Build.Admitted

/-!
# Draft/Build/Steps — quanta, and the planning of a fragment

Every quantum of a text build keeps `OnCourse` and lowers the rank of the state, and a build that
can go on always has one: that is what `Gains build state (advance build state)` says.  The rank
counts, one after the other, the fragments left, the phase of the fragment at hand, what is left to
remove or to write, and the stages left.
-/

namespace Beryl.Draft

open Fallible Replace

/-! ## The rank of a state -/

/-- The stages left, and within a stage the work left. -/
@[simp] def Stage.rank : Stage → ℕ × ℕ
  | .idle => (20, 0)
  | .textSourceStart proof => (19, if proof.component = .primary then 1 else 0)
  | .textSourceEnd _ proof => (18, if proof.component = .primary then 1 else 0)
  | .textPreviousStart _ _ proof => (17, if proof.component = .primary then 1 else 0)
  | .textPreviousEnd _ _ _ proof => (16, if proof.component = .primary then 1 else 0)
  | .textMapStart .. => (15, 0)
  | .textMapEnd .. => (14, 0)
  | .textResolveStart .. => (13, 0)
  | .textResolveEnd .. => (12, 0)
  | .textDeleteProof => (11, 0)
  | .textInsertProof => (11, 0)
  | .deleteMap _ _ remainingEnd => (10, remainingEnd)
  | .insertMap _ => (10, 0)
  | .mapComplete .. => (9, 0)
  | .ready .. => (8, 0)
  | .refreshMap => (7, 0)
  | .refreshSequence _ => (6, 0)
  | .publishReady .. => (5, 0)

/-- The fragments left, the phase of the fragment at hand, and the units left to remove or write. -/
def Build.work (build : Build) (state : BuildState) : ℕ × ℕ × ℕ :=
  match state.frontier with
  | .planning k => (build.fragments.length + 1 - k, 3, 0)
  | .removing k .. => (build.fragments.length + 1 - k, 2, 0)
  | .applying k .. => (build.fragments.length + 1 - k, 1,
      sequenceExtent state.workingRoots.sequence)
  | .inserting k piece byte _ _ => (build.fragments.length + 1 - k, 0,
    (build.fragments[k - 1]?).elim 0 fun fragment =>
      fragment.payload.length - (fragment.typed piece byte).length)
  | .crossValidating => (0, 1, 0)
  | .complete => (0, 0, 0)

/-- One state is closer to the end than another. -/
def Closer (build : Build) (next state : BuildState) : Prop :=
  Prod.Lex (Prod.Lex (· < ·) (Prod.Lex (· < ·) (· < ·))) (Prod.Lex (· < ·) (· < ·))
    (build.work next, next.mapping.stage.rank) (build.work state, state.mapping.stage.rank)

/-- **A quantum well spent**: the build is still on course, and closer to its end. -/
structure Progresses (build : Build) (state next : BuildState) : Prop where
  onCourse : OnCourse build next
  closer : Closer build next state

/-- A step of the map well spent. -/
def MapProgresses (build : Build) (state : BuildState) (stage : Option Stage) : Prop :=
  ∃ next, stage = some next ∧ Progresses build state (state.setStage next)

/-- **Where the build is viable a quantum succeeds, and it is well spent whenever it does.** -/
abbrev Gains (build : Build) (state : BuildState) (quantum : Prepared BuildState) : Prop :=
  Meets quantum (Viable build) (Progresses build state)

/-- The same of a step of the map. -/
abbrev MapGains (build : Build) (state : BuildState) (step : Prepared (Option Stage)) : Prop :=
  Meets step (Viable build) (MapProgresses build state)

variable {build : Build} {state next : BuildState} {k : ℕ} {fragment : DraftPieceReplacement}
  {edits : Edits}

theorem rank_lt {stage old : Stage} (hst : state.mapping.stage = old)
    (h : stage.rank.1 < old.rank.1) :
    Prod.Lex (· < ·) (· < ·) stage.rank state.mapping.stage.rank := hst ▸ .left _ _ h

theorem closer_of_work
    (h : Prod.Lex (· < ·) (Prod.Lex (· < ·) (· < ·)) (build.work next) (build.work state)) :
    Closer build next state := .left _ _ h

/-! ## Taking a quantum apart -/

theorem selectFragment_meets (htask : Task build k fragment edits) :
    Meets (selectFragment build k) (Viable build) (· = fragment) := by
  have hk : k ≠ 0 := by have := htask.positive; omega
  rw [selectFragment, ensure_bind hk, htask.fragment, required_bind]
  refine ⟨fun hok => ?_, fun ⟨_, hadm, _⟩ => ?_⟩
  · obtain ⟨_, -, hok⟩ := bind_eq_ok.mp hok
    exact (Except.ok.inj hok).symm
  · rw [hadm.valid fragment (List.mem_of_getElem? htask.fragment)]
    exact ⟨_, rfl⟩

section

variable (hk : state.frontier.ordinal = .ok (some k)) (htask : Task build k fragment edits)
include hk htask

theorem advance_map_meets (hmap : MapGains build state (advanceMapStep state)) :
    Gains build state (advance build state) := by
  rw [advance, hk, ok_bind]
  refine (selectFragment_meets htask).bind fun _ _ => hmap.bind fun _ hstage => ?_
  obtain ⟨next, rfl, hQ⟩ := hstage
  exact meets_ok hQ

theorem advance_text_meets (hmap : advanceMapStep state = .ok none)
    (htext : Gains build state (advanceText build state k fragment)) :
    Gains build state (advance build state) := by
  rw [advance, hk, ok_bind]
  refine (selectFragment_meets htask).bind fun f hf => ?_
  obtain rfl := hf
  rwa [hmap, ok_bind]

end

/-- A position of the predecessor is resolved where it stands. -/
theorem sourceProof_meets (hroots : build.predecessor.Sound) {position : DraftCompositePosition}
    {proof : ProofComponent} (hproof : ProofFor build.predecessor.sequence position proof)
    (hstands : Viable build → ∃ b u, StandsAt build.predecessor.leaves position b u) :
    Meets (sourceProof build position proof) (Viable build)
      fun answer => resolveIn build.predecessor.sequence position proof = .ok answer := by
  rw [sourceProof, hroots.load, ok_bind]
  refine ⟨id, fun hv => ?_⟩
  obtain ⟨b, u, hb⟩ := hstands hv
  exact exists_resolveIn hroots hb.1 hproof

theorem previousFragment_eq_ok {previous : DraftPieceReplacement} :
    previousFragment build k = .ok previous ↔ 2 ≤ k ∧ build.fragments[k - 2]? = some previous := by
  simp only [previousFragment, bind_eq_ok, ensure_eq_ok, required_eq_ok, exists_const]

/-! ## Planning -/

/-- The stage does not matter to what a planned fragment has in hand. -/
theorem Planning.setStage (h : Planning build state k fragment edits) (stage : Stage) :
    Planning build (state.setStage stage) k fragment edits :=
  ⟨h.frontier, h.task, h.ledger, h.completed, h.place⟩

theorem Planning.continue (h : Planning build state k fragment edits) {stage : Stage}
    (hstage : PlanningStage build state k fragment edits stage)
    (hrank : Prod.Lex (· < ·) (· < ·) stage.rank state.mapping.stage.rank) :
    Progresses build state (state.setStage stage) :=
  ⟨.planning (h.setStage stage) (by cases stage <;> exact hstage), .right _ hrank⟩

/-- The edit of the fragment before the one at hand is the last. -/
theorem Task.previous {previous : DraftPieceReplacement} (h : Task build k fragment edits)
    (hk : 2 ≤ k) (hprev : build.fragments[k - 2]? = some previous) :
    ∃ before last, edits = before ++ [last] ∧ EditOf build.predecessor.leaves previous last := by
  have htake : build.fragments.take (k - 1) = build.fragments.take (k - 2) ++ [previous] := by
    obtain ⟨hlt, hget⟩ := List.getElem?_eq_some_iff.mp hprev
    rw [show k - 1 = k - 2 + 1 by omega, List.take_succ_eq_append_getElem hlt, hget]
  have hperf := h.performed
  rw [htake] at hperf
  obtain ⟨before, last, rfl, -, hlast⟩ := exists_last_of_forall₂ hperf
  exact ⟨before, last, rfl, hlast⟩

@[simp] theorem typed_zero (fragment : DraftPieceReplacement) : fragment.typed 0 0 = [] := by
  simp [DraftPieceReplacement.typed]

/-- An edit that does nothing may be added to the ledger. -/
theorem Ledger.idle {document : List DraftUnit} {roots : BuildRoots} {map : MapRoot} {m : ℕ}
    (hl : Ledger document edits roots map) (hc : cursorAfter 0 edits ≤ m)
    (hm : m ≤ document.length) : Ledger document (edits ++ [⟨m, m, []⟩]) roots map :=
  hl.congr (hl.apart.concat le_rfl hm hc) (replaceAll_idle hc) (origins_idle hc)

/-- A continuation writes on where the fragment before it ended. -/
theorem Planning.continuation (h : Planning build state k fragment edits)
    (hcont : fragment.isContinuation = true) {previous : DraftPieceReplacement}
    (hprev : previousFragment build k = .ok previous) (hstop : previous.stop = fragment.stop) :
    RangeOf build.predecessor.leaves fragment (cursorAfter 0 edits) (cursorAfter 0 edits) := by
  obtain ⟨hk, hget⟩ := previousFragment_eq_ok.mp hprev
  obtain ⟨before, last, rfl, hlast⟩ := h.task.previous hk hget
  refine ⟨by simp [hcont], ?_⟩
  rw [cursorAfter_concat, ← hstop]
  exact hlast.range.stop

theorem planFragment_meets (h : Planning build state k fragment edits)
    (hidle : state.mapping.stage = .idle) :
    Gains build state (planFragment build state k fragment) := by
  unfold planFragment
  split
  · rename_i hcont
    constructor
    · intro next hok
      simp only [bind_eq_ok, ensure_eq_ok, pure_eq_ok_iff, exists_const] at hok
      obtain ⟨-, previous, hprev, ⟨-, hstop⟩, rfl⟩ := hok
      have hrange := h.continuation hcont hprev hstop
      have hcur := h.ledger.apart.cursor_le.2
      have hled := h.ledger.idle le_rfl hcur
      refine ⟨.inserting (s := cursorAfter 0 edits) (e := cursorAfter 0 edits)
        ⟨rfl, h.task, hrange, by simp [h.completed], hled.ordered, by simpa using hled, ?_,
          Nat.zero_le _, .inl rfl⟩ ?_, closer_of_work ?_⟩
      · rw [written_concat _ _ hcur, Nat.sub_self]
        exact h.place
      · simp [hidle, InsertingStage]
      · simp only [Build.work, h.frontier]
        exact .right _ (.left _ _ (by decide))
    · rintro ⟨_, hadm, -⟩
      obtain ⟨hne, j, previous, hj, hprev, hstart, hstop⟩ :=
        hadm.continues (k - 1) fragment h.task.fragment hcont
      have hget : previousFragment build k = .ok previous :=
        previousFragment_eq_ok.mpr ⟨by omega, by rwa [show k - 2 = j by omega]⟩
      rw [ensure_bind ⟨by omega, hne⟩, hget, ok_bind, ensure_true ⟨hstart, hstop⟩]
      exact ⟨_, rfl⟩
  · rename_i hfresh
    exact meets_ok (h.continue ⟨by simpa using hfresh, .inl rfl⟩ (by
      rw [hidle]; exact .left _ _ (by decide)))

section

variable (hroots : build.predecessor.Sound) (h : Planning build state k fragment edits)
include hroots h

variable {proof : ProofComponent} {start stop : SourceFact}

theorem proveSourceStart_meets (hst : state.mapping.stage = .textSourceStart proof)
    (hstage : PlanningStage build state k fragment edits (.textSourceStart proof)) :
    Gains build state (proveSourceStart build state fragment proof) := by
  obtain ⟨hfresh, hproof⟩ := hstage
  refine (sourceProof_meets hroots hproof fun ⟨_, hadm, _⟩ =>
    hadm.exists_start h.task.fragment).bind fun answer hans => ?_
  cases answer with
  | primary rank =>
    obtain ⟨rfl, hnext⟩ := hproof.next hans
    exact meets_ok (h.continue ⟨hfresh, hnext⟩ (by rw [hst]; exact .right _ Nat.one_pos))
  | complete boundary unit =>
    exact meets_ok (h.continue ⟨hfresh, standsAt_of_resolveIn hroots hproof hans, .inl rfl⟩
      (rank_lt hst (by simp)))

theorem proveSourceEnd_meets (hst : state.mapping.stage = .textSourceEnd start proof)
    (hstage : PlanningStage build state k fragment edits (.textSourceEnd start proof)) :
    Gains build state (proveSourceEnd build state k fragment start proof) := by
  obtain ⟨hfresh, hstart, hproof⟩ := hstage
  -- in a build that can go on, the ends of the range are those of its edit
  have hends : Viable build → cursorAfter 0 edits ≤ start.unit
      ∧ ∃ b e, StandsAt build.predecessor.leaves fragment.stop b e ∧ start.unit ≤ e := by
    rintro ⟨_, hadm, -⟩
    obtain ⟨edit, rest, rfl, hedit⟩ := h.task.split hadm
    obtain ⟨hc, hle, -⟩ := hadm.apart.split
    obtain ⟨b, hstop⟩ := hedit.range.stop
    have hrange := hedit.range.start
    rw [hfresh] at hrange
    obtain ⟨b', hb'⟩ := hrange
    have hs := hstart.unique hroots hb'
    exact ⟨by omega, b, edit.stop, hstop, by omega⟩
  refine (sourceProof_meets hroots hproof fun hv => ?_).bind fun answer hans => ?_
  · obtain ⟨-, b, e, hb, -⟩ := hends hv
    exact ⟨b, e, hb⟩
  cases answer with
  | primary rank =>
    obtain ⟨rfl, hnext⟩ := hproof.next hans
    exact meets_ok (h.continue ⟨hfresh, hstart, hnext⟩ (by rw [hst]; exact .right _ Nat.one_pos))
  | complete boundary unit =>
    have hstands := standsAt_of_resolveIn hroots hproof hans
    refine (meets_ensure fun hv => ?_).bind fun _ hle =>
      (meets_ensure fun hv => ?_).bind fun _ hcur => ?_
    · obtain ⟨-, b, e, hb, hle⟩ := hends hv
      rwa [hstands.unique hroots hb]
    · rw [h.completed]
      exact (hends hv).1
    have hplan : ∀ stage, Planning build { state with
        mapping := { state.mapping with fragmentSourceEndUnit := some unit, stage := stage } }
        k fragment edits := fun _ => ⟨h.frontier, h.task, h.ledger, h.completed, h.place⟩
    have hfound : Found build fragment edits (some unit) start ⟨boundary, unit⟩ :=
      ⟨hfresh, hstart, hstands, h.completed ▸ hcur, hle, rfl⟩
    dsimp only
    split
    · rename_i hrep
      have hlt := (List.getElem?_eq_some_iff.mp h.task.fragment).1
      have hprev := List.getElem?_eq_getElem (show k - 2 < build.fragments.length by omega)
      exact meets_ok ⟨.planning (hplan _) ⟨hfound, _, ⟨hrep.1, hprev, hrep.2.1,
        hrep.2.2.trans h.completed⟩, .inl rfl⟩, .right _ (rank_lt hst
        (by simp [BuildState.setStage]))⟩
    · exact meets_ok ⟨.planning (hplan _) hfound, .right _ (rank_lt hst
        (by simp [BuildState.setStage]))⟩

theorem provePreviousStart_meets (hst : state.mapping.stage = .textPreviousStart start stop proof)
    (hstage : PlanningStage build state k fragment edits (.textPreviousStart start stop proof)) :
    Gains build state (provePreviousStart build state k start stop proof) := by
  obtain ⟨hfound, previous, hrep, hproof⟩ := hstage
  rw [provePreviousStart, previousFragment_eq_ok.mpr ⟨hrep.1, hrep.2.1⟩, ok_bind]
  refine (sourceProof_meets hroots hproof fun ⟨_, hadm, _⟩ =>
    hadm.exists_start hrep.2.1).bind fun answer hans => ?_
  cases answer with
  | primary rank =>
    obtain ⟨rfl, hnext⟩ := hproof.next hans
    exact meets_ok (h.continue ⟨hfound, previous, hrep, hnext⟩ (by
      rw [hst]; exact .right _ Nat.one_pos))
  | complete boundary unit =>
    exact meets_ok (h.continue ⟨hfound, previous, hrep,
      ⟨unit, standsAt_of_resolveIn hroots hproof hans⟩, .inl rfl⟩
      (rank_lt hst (by simp)))

theorem provePreviousEnd_meets {previousStart : Boundary}
    (hst : state.mapping.stage = .textPreviousEnd start stop previousStart proof)
    (hstage : PlanningStage build state k fragment edits
      (.textPreviousEnd start stop previousStart proof)) :
    Gains build state (provePreviousEnd build state k start stop previousStart proof) := by
  obtain ⟨hfound, previous, hrep, hprev, hproof⟩ := hstage
  obtain ⟨before, last, hedits, hlast⟩ := h.task.previous hrep.1 hrep.2.1
  obtain ⟨b, hstop⟩ := hlast.range.stop
  rw [provePreviousEnd, previousFragment_eq_ok.mpr ⟨hrep.1, hrep.2.1⟩, ok_bind]
  refine (sourceProof_meets hroots hproof fun _ => ⟨b, _, hstop⟩).bind fun answer hans => ?_
  cases answer with
  | primary rank =>
    obtain ⟨rfl, hnext⟩ := hproof.next hans
    exact meets_ok (h.continue ⟨hfound, previous, hrep, hprev, hnext⟩ (by
      rw [hst]; exact .right _ Nat.one_pos))
  | complete boundary unit =>
    refine (meets_ensure fun ⟨_, hadm, _⟩ => ?_).bind fun _ _ =>
      meets_ok (h.continue hfound (rank_lt hst (by simp)))
    -- an empty range that repeats an empty range would stand at one boundary with it
    rintro rfl
    obtain ⟨hk, hget, hempty, hcur⟩ := hrep
    obtain ⟨u, hprev⟩ := hprev
    have hstands := standsAt_of_resolveIn hroots hproof hans
    have hocc := hroots.rooted.occupied
    rw [hedits, cursorAfter_concat, ← hstands.unique hroots hstop] at hcur
    have h1 : start.boundary = boundary := hfound.standsStart.2.eq_of_unit hocc (hcur ▸ hstands.2)
    have h2 : stop.boundary = boundary :=
      hfound.standsStop.2.eq_of_unit hocc (hempty ▸ hcur ▸ hstands.2)
    refine hadm.distinct (k - 2) previous fragment hget ?_ hfound.fresh
      ⟨boundary, hprev.1, hstands.1, h1 ▸ hfound.standsStart.1, h2 ▸ hfound.standsStop.1⟩
    rw [show k - 2 + 1 = k - 1 by omega]
    exact h.task.fragment

end

section

/-- The ends of the range that is found are points to cut at. -/
theorem Found.cutPoints {sourceEnd : Option ℕ} {start stop : SourceFact} (hadm : Viable build)
    (hfound : Found build fragment edits sourceEnd start stop) :
    CutPoint build.document start.unit ∧ CutPoint build.document stop.unit := by
  obtain ⟨_, hadm, -⟩ := hadm
  exact ⟨hfound.standsStart.2.cutPoint hadm.chars hadm.sound.rooted.occupied,
    hfound.standsStop.2.cutPoint hadm.chars hadm.sound.rooted.occupied⟩

variable (h : Planning build state k fragment edits)
include h

variable {sourceStart sourceEnd : Boundary} {mappedStart mappedEnd : ℕ}

theorem mapStart_meets {start stop : SourceFact}
    (hst : state.mapping.stage = .textMapStart start stop)
    (hfound : PlanningStage build state k fragment edits (.textMapStart start stop)) :
    Gains build state (mapStart state start stop) := by
  rw [mapStart, h.ledger.cut hfound.cursor_le (hfound.le.trans hfound.standsStop.2.le_length),
    ok_bind]
  exact meets_ok (h.continue ⟨start.unit, stop.unit, hfound, rfl⟩ (rank_lt hst (by simp)))

theorem mapEnd_meets (hst : state.mapping.stage = .textMapEnd sourceStart sourceEnd mappedStart)
    (hstage : PlanningStage build state k fragment edits
      (.textMapEnd sourceStart sourceEnd mappedStart)) :
    Gains build state (mapEnd state sourceStart sourceEnd mappedStart) := by
  obtain ⟨s, e, hfound, hmapped⟩ := hstage
  rw [mapEnd, hfound.sourceEnd, required_bind,
    h.ledger.cut (hfound.cursor_le.trans hfound.le) hfound.standsStop.2.le_length, ok_bind]
  exact meets_ok (h.continue ⟨s, e, hfound, hmapped, rfl⟩ (rank_lt hst (by simp)))

theorem resolveStart_meets
    (hst : state.mapping.stage = .textResolveStart sourceStart sourceEnd mappedStart mappedEnd)
    (hstage : PlanningStage build state k fragment edits
      (.textResolveStart sourceStart sourceEnd mappedStart mappedEnd)) :
    Gains build state (resolveStart state sourceStart sourceEnd mappedStart mappedEnd) := by
  obtain ⟨s, e, hfound, rfl, hend⟩ := hstage
  rw [resolveStart, h.ledger.load, ok_bind]
  refine (atUnit_meets h.ledger.rooted fun hv =>
    h.ledger.cutPoint hfound.cursor_le (hfound.cutPoints hv).1).bind fun fact hfact => ?_
  obtain ⟨hunit, hmarks⟩ := hfact
  rw [← draftUnit] at hunit
  exact meets_ok (h.continue ⟨s, e, hfound, hend, hunit ▸ hmarks.placed, hmarks.ordinal⟩
    (rank_lt hst (by simp)))

theorem resolveEnd_meets (hroots : build.predecessor.Sound) {startBoundary : Boundary}
    {startMarkerOrdinal : ℕ} (hstage : PlanningStage build state k fragment edits
      (.textResolveEnd sourceStart sourceEnd mappedEnd startBoundary startMarkerOrdinal)) :
    Gains build state (resolveEnd state k sourceEnd mappedEnd startBoundary
        startMarkerOrdinal) := by
  obtain ⟨s, e, hfound, rfl, hplace, rfl⟩ := hstage
  have hc : cursorAfter 0 edits ≤ s := hfound.cursor_le
  have hle : s ≤ e := hfound.le
  have hrange : RangeOf build.predecessor.leaves fragment s e :=
    ⟨by rw [hfound.fresh]; exact ⟨_, hfound.standsStart⟩, ⟨_, hfound.standsStop⟩⟩
  rw [resolveEnd, h.ledger.load, ok_bind]
  refine (atUnit_meets h.ledger.rooted fun hv =>
    h.ledger.cutPoint (hc.trans hle) (hfound.cutPoints hv).2).bind fun fact hfact => ?_
  obtain ⟨hunit, hmarks⟩ := hfact
  rw [← draftUnit] at hunit
  have hend : PlacedAt state.workingRoots.leaves fact.boundary (draftUnit build edits e) :=
    hunit ▸ hmarks.placed
  have hunits : ∀ {i}, s ≤ i → (unitsOf state.workingRoots.leaves)[draftUnit build edits i]?
      = build.document[i]? := fun hsi => by
    rw [h.ledger.units, draftUnit, getElem?_replaceAll build.document (hc.trans hsi)]
  have hgo : Viable build → ¬ (fact.markerOrdinal
      ≠ markerTotal (state.workingRoots.leaves.take startBoundary.rank)
        ∨ fact.boundary < startBoundary) := by
    rintro ⟨_, hadm, -⟩
    obtain ⟨edit, rest, rfl, hedit⟩ := h.task.split hadm
    obtain ⟨rfl, rfl⟩ := hrange.unique hroots hedit.range
    have hmks := markers_eq_of_text hplace hend (by simp only [draftUnit]; omega) fun i hi hi' => by
      simp only [draftUnit] at hi hi'
      obtain ⟨j, hj, rfl⟩ : ∃ j, edit.start ≤ j ∧ i = draftUnit build edits j :=
        ⟨cursorAfter 0 edits + (i - written build.document edits), by omega, by
          simp only [draftUnit]; omega⟩
      rw [hunits hj]
      exact hadm.text edit (by simp) j hj (by simp only [draftUnit] at hi'; omega)
    have hlt : ¬ fact.boundary < startBoundary := by
      rw [hend.lt_iff h.ledger.rooted.occupied hplace]
      simp only [draftUnit]
      omega
    exact fun hor => hor.elim (fun hne => hne (hmarks.ordinal.trans hmks)) hlt
  refine (meets_ensure hgo).bind fun _ hcheck => meets_ok ?_
  have hbytes : ∀ i, s ≤ i → i < e → ∃ b, build.document[i]? = some (.byte b) := by
    intro i hsi hie
    rw [← hunits hsi]
    exact text_between h.ledger.rooted.occupied hplace hend
      (hmarks.ordinal.symm.trans (not_not.mp (not_or.mp hcheck).1))
      (by simp only [draftUnit]; omega) (by simp only [draftUnit]; omega)
  refine ⟨.removing rfl h.ledger ⟨h.task, hfound.fresh, hrange, hc, hle, le_rfl, hbytes,
    hfound.sourceEnd, hplace, hend⟩ rfl, closer_of_work ?_⟩
  simp only [Build.work, h.frontier, BuildState.moved]
  exact .right _ (.left _ _ (by decide))

end

/-- **A quantum of a planned fragment.** -/
theorem Planning.advance_meets (hroots : build.predecessor.Sound)
    (h : Planning build state k fragment edits)
    (hstage : PlanningStage build state k fragment edits state.mapping.stage) :
    Gains build state (advance build state) := by
  generalize hst : state.mapping.stage = stage at hstage
  have hstep : advanceMapStep state = .ok none
      ∧ Gains build state (advanceText build state k fragment) := by
    simp only [advanceMapStep, advanceText, hst]
    cases stage with
    | idle =>
      simp only [advanceIdle, h.frontier]
      exact ⟨rfl, planFragment_meets h hst⟩
    | textSourceStart => exact ⟨rfl, proveSourceStart_meets hroots h hst hstage⟩
    | textSourceEnd => exact ⟨rfl, proveSourceEnd_meets hroots h hst hstage⟩
    | textPreviousStart => exact ⟨rfl, provePreviousStart_meets hroots h hst hstage⟩
    | textPreviousEnd => exact ⟨rfl, provePreviousEnd_meets hroots h hst hstage⟩
    | textMapStart => exact ⟨rfl, mapStart_meets h hst hstage⟩
    | textMapEnd => exact ⟨rfl, mapEnd_meets h hst hstage⟩
    | textResolveStart => exact ⟨rfl, resolveStart_meets h hst hstage⟩
    | textResolveEnd => exact ⟨rfl, resolveEnd_meets h hroots hstage⟩
    | _ => exact hstage.elim
  exact advance_text_meets (by rw [h.frontier]; rfl) h.task hstep.1 hstep.2

end Beryl.Draft
