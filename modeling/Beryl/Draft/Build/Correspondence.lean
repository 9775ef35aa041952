import Beryl.Draft.Build.Progress

/-!
# Draft/Build/Correspondence — the coordinate map tells the truth

Between two edits of the draft, the coordinate map of a text build is the correspondence of the
predecessor with the draft: its ends are the extents of both, a unit under a `Copy` run is found
again at its source cut, and the units under `Deleted` runs are those the build has removed
(`map_corresponds`).
-/

namespace Beryl.Draft

open Fallible Replace List

/-! ## Runs over units -/

/-- A run of a map covers a unit of the predecessor. -/
def Covers (runs : List Run) (run : Run) (u : ℕ) : Prop :=
  ∃ before after, runs = before ++ run :: after ∧ sourceOf before ≤ u
    ∧ u < sourceOf before + run.measure.source

section

variable {runs : List Run} {u n : ℕ}

/-- Every unit of the predecessor is copied or deleted. -/
theorem exists_covers (h : u < sourceOf runs) :
    (∃ n, Covers runs (.copy n) u) ∨ ∃ n, Covers runs (.deleted n) u := by
  induction runs generalizing u with
  | nil => simp at h
  | cons run runs ih =>
    rw [sourceOf_cons] at h
    rcases lt_or_ge u run.measure.source with hin | hout
    · have hcover : Covers (run :: runs) run u := ⟨[], runs, rfl, by simp, by simpa using hin⟩
      cases run with
      | copy n => exact .inl ⟨n, hcover⟩
      | deleted n => exact .inr ⟨n, hcover⟩
      | inserted n => simp [Run.measure] at hin
    · have hcons : ∀ {r}, Covers runs r (u - run.measure.source) → Covers (run :: runs) r u := by
        rintro r ⟨before, after, rfl, h1, h2⟩
        exact ⟨run :: before, after, rfl, by simp; omega, by simp; omega⟩
      rcases ih (u := u - run.measure.source) (by omega) with ⟨n, hn⟩ | ⟨n, hn⟩
      · exact .inl ⟨n, hcons hn⟩
      · exact .inr ⟨n, hcons hn⟩

/-- A copied unit is in the draft. -/
theorem Covers.tag (h : Covers runs (.copy n) u) :
    ∃ i : ℕ, (tagsFrom 0 runs)[i]? = some (some u) := by
  obtain ⟨before, after, rfl, h1, h2⟩ := h
  have hlt : u - sourceOf before < n := by simp only [Run.measure] at h2; omega
  refine ⟨targetOf before + (u - sourceOf before), ?_⟩
  rw [tagsFrom_append, getElem?_append_right (by simp), length_tagsFrom, Nat.add_sub_cancel_left,
    tagsFrom_cons, getElem?_append_left (by simpa [Run.tags] using hlt)]
  simp [Run.tags, hlt, Nat.add_sub_cancel' h1]

/-- A deleted unit is not. -/
theorem Covers.not_mem (h : Covers runs (.deleted n) u) : some u ∉ tagsFrom 0 runs := by
  obtain ⟨before, after, rfl, h1, h2⟩ := h
  intro hmem
  rw [tagsFrom_append, tagsFrom_cons, mem_append, mem_append] at hmem
  rcases hmem with hmem | hmem | hmem
  · have := mem_tagsFrom hmem
    omega
  · simp [Run.tags] at hmem
  · have := mem_tagsFrom hmem
    omega

end

/-! ## What is performed -/

/-- **The edits a build has performed**, when no splice is under way: those of the fragments that
are done; of the one at hand its removal, or its removal with as much as is written. -/
def Performed (build : Build) : Frontier → Edits → Prop
  | .planning k, edits | .removing k _ _ _ _ _ _, edits =>
    List.Forall₂ (EditOf build.predecessor.leaves) (build.fragments.take (k - 1)) edits
  | .applying k _ _ _, edits => ∃ done fragment s e, build.fragments[k - 1]? = some fragment
    ∧ List.Forall₂ (EditOf build.predecessor.leaves) (build.fragments.take (k - 1)) done
    ∧ RangeOf build.predecessor.leaves fragment s e ∧ (edits = done ∨ edits = done ++ [⟨s, e, []⟩])
  | .inserting k piece byte _ _, edits =>
      ∃ done fragment s e, build.fragments[k - 1]? = some fragment
    ∧ List.Forall₂ (EditOf build.predecessor.leaves) (build.fragments.take (k - 1)) done
    ∧ RangeOf build.predecessor.leaves fragment s e
    ∧ edits = done ++ [⟨s, e, (fragment.typed piece byte).map .byte⟩]
  | .crossValidating, edits | .complete, edits =>
    List.Forall₂ (EditOf build.predecessor.leaves) build.fragments edits

variable {state : BuildState} {build : Build}

/-- **Between two splices, the ledger holds what is performed.** -/
theorem OnCourse.performed (h : OnCourse build state)
    (hidle : state.mapping.stage = .idle) : ∃ edits, Performed build state.frontier edits
      ∧ Ledger build.document edits state.workingRoots state.mapping.currentMap := by
  cases h with
  | planning hplan =>
    exact ⟨_, by rw [hplan.frontier]; exact hplan.task.performed, hplan.ledger⟩
  | removing hfront hled hrange =>
    exact ⟨_, by rw [hfront]; exact hrange.task.performed, hled⟩
  | @applying k s m e fragment edits baseEnd start stop hfront hled hrange hm hstage =>
    have hperf : ∀ out, out = edits ∨ out = edits ++ [⟨s, e, []⟩] →
        Performed build state.frontier out := fun out hout => by
      rw [hfront]
      exact ⟨edits, fragment, s, e, hrange.task.fragment, hrange.task.performed, hrange.range, hout⟩
    rcases hm hidle with rfl | rfl
    · have hc := hrange.cursor_le.trans hrange.start_le
      exact ⟨edits, hperf _ (.inl rfl), hled.congr hled.apart.last.1 (replaceAll_idle hc).symm
        (origins_idle hc).symm⟩
    · exact ⟨_, hperf _ (.inr rfl), hled⟩
  | @inserting k s e piece byte fragment edits baseEnd stop hins =>
    refine ⟨_, ?_, hins.ledger⟩
    rw [hins.frontier]
    exact ⟨edits, fragment, s, e, hins.task.fragment, hins.task.performed, hins.range, rfl⟩
  | crossValidating hfront hdone | complete hfront hdone =>
    exact ⟨_, by rw [hfront]; exact hdone.performed, hdone.ledger⟩

/-- A build without fragments takes no step. -/
theorem eq_initial_of_reachable (hnil : build.fragments = [])
    (h : Reachable build state) : state = build.initial := by
  induction h with
  | initial => rfl
  | step _ hstep ih =>
    subst ih
    rw [advance, show build.initial.frontier.ordinal = .ok (some 1) from rfl, ok_bind] at hstep
    obtain ⟨_, hselect, -⟩ := bind_eq_ok.mp hstep
    simp [selectFragment, hnil, bind_eq_ok] at hselect

/-- **The ledger of a reachable state** in which no splice is under way. -/
theorem exists_ledger (hroots : build.predecessor.Sound)
    (hreach : Reachable build state) (hidle : state.mapping.stage = .idle) :
    ∃ edits, Performed build state.frontier edits
      ∧ Ledger build.document edits state.workingRoots state.mapping.currentMap := by
  by_cases hnil : build.fragments = []
  · obtain rfl := eq_initial_of_reachable hnil hreach
    exact ⟨[], by simp [Performed, Build.initial], .initial hroots⟩
  · exact (onCourse_of_reachable hroots hnil hreach).performed hidle

/-! ## The correspondence -/

section

variable {document : List DraftUnit} {edits : Edits} {roots : BuildRoots}
  {map : MapRoot} (hl : Ledger document edits roots map)
include hl

/-- A unit under a `Copy` run is found at its source cut. -/
theorem Ledger.copied {u n : ℕ} (hcover : Covers map.runs (.copy n) u) (requireCopy : Bool) :
    ∃ (i : ℕ) (unit : DraftUnit), sourceCut map u requireCopy = .ok i
      ∧ (unitsOf roots.leaves)[i]? = some unit
      ∧ document[u]? = some unit := by
  obtain ⟨i, hi⟩ := hcover.tag
  have hlt : u < sourceOf map.runs := by
    have := mem_tagsFrom (mem_of_getElem? hi)
    omega
  have htag : (tagsFrom 0 map.runs)[i]? = some (some (0 + u)) := by rwa [zero_add]
  have hcut : sourceCut map u requireCopy = .ok i := by
    rw [sourceCut_eq requireCopy hl.sound hlt.le fun _ => hlt.ne, cutRuns_of_tag requireCopy 0 htag,
      zero_add]
  have hunit : (unitsOf roots.leaves)[i]? = document[u]? := by
    rw [hl.units]
    exact getElem?_replaceAll_of_origin (hl.tags ▸ hi)
  rw [hl.source] at hlt
  exact ⟨i, document[u], hcut, hunit.trans (getElem?_eq_getElem hlt), getElem?_eq_getElem hlt⟩

/-- The units under `Deleted` runs are those in a range of an edit. -/
theorem Ledger.deleted {u : ℕ} (hu : u < document.length) :
    (∃ n, Covers map.runs (.deleted n) u) ↔ ∃ edit ∈ edits, edit.start ≤ u ∧ u < edit.stop := by
  have hmem := mem_origins (u := u) hl.apart
  rw [← hl.tags] at hmem
  constructor
  · rintro ⟨n, hn⟩
    by_contra hcon
    exact hn.not_mem (hmem.mpr ⟨hu, fun edit he hin => hcon ⟨edit, he, hin⟩⟩)
  · rintro ⟨edit, he, hin⟩
    rcases exists_covers (hl.source ▸ hu) with ⟨n, hn⟩ | hdeleted
    · obtain ⟨i, hi⟩ := hn.tag
      exact absurd hin ((hmem.mp (mem_of_getElem? hi)).2 edit he)
    · exact hdeleted

end

/-- The map and the draft of a state correspond: the edits performed so far make the draft of the
predecessor, the map measures both, a copied unit is found in the draft where the map says, and the
deleted units are those of the ranges replaced. -/
structure Corresponds (build : Build) (state : BuildState) (edits : Edits) : Prop where
  performed : Performed build state.frontier edits
  units : unitsOf state.workingRoots.leaves = replaceAll build.document edits
  source : state.mapping.currentMap.measure.source = sequenceExtent build.predecessor.sequence
  target : state.mapping.currentMap.measure.target = sequenceExtent state.workingRoots.sequence
  extent : sequenceExtent state.workingRoots.sequence = (unitsOf state.workingRoots.leaves).length
  copied : ∀ u n requireCopy, Covers state.mapping.currentMap.runs (.copy n) u →
    ∃ (i : ℕ) (unit : DraftUnit), sourceCut state.mapping.currentMap u requireCopy = .ok i
      ∧ (unitsOf state.workingRoots.leaves)[i]? = some unit ∧ build.document[u]? = some unit
  deleted : ∀ u < build.document.length,
    (∃ n, Covers state.mapping.currentMap.runs (.deleted n) u)
      ↔ ∃ edit ∈ edits, edit.start ≤ u ∧ u < edit.stop

/-- **The coordinate map is the correspondence of predecessor and draft** in every reachable state
in which no splice is under way. -/
theorem map_corresponds (build : Build) (hroots : build.predecessor.Sound) (state : BuildState)
    (hreach : Reachable build state) (hidle : state.mapping.stage = .idle) :
    ∃ edits, Corresponds build state edits := by
  obtain ⟨edits, hperf, hl⟩ := exists_ledger hroots hreach hidle
  have hextent : sequenceExtent build.predecessor.sequence = build.document.length :=
    hroots.rooted.counts.2.1
  exact ⟨edits, hperf, hl.units, by rw [hl.measure, hextent], by rw [hl.measure, hl.extent],
    by rw [hl.extent, hl.units], fun u n requireCopy hcover => hl.copied hcover requireCopy,
    fun u hu => hl.deleted hu⟩

/-- Two letters, a marker and a third letter. -/
def lettersRoot : SequenceRef 1 where
  link := ⟨3, 0, 1, 3, 1, .beforeMarkers 0, .afterMarkers 3⟩
  tree :=
    [(⟨2, 0, 1, 1, 0, .beforeMarkers 0, .afterMarkers 2⟩, .text [97, 98]),
     (⟨0, 0, 0, 1, 1, .marker 0 5 1, .marker 0 5 1⟩, .marker ⟨1, 1, 1, 5⟩),
     (⟨1, 0, 1, 1, 0, .beforeMarkers 0, .afterMarkers 1⟩, .text [99])]
  selectedRoot := true

/-- The second letter is to be replaced by two others, and the third to be removed. -/
def twoEdits : Build where
  predecessor := ⟨some ⟨1, lettersRoot⟩, 1, 1⟩
  fragments :=
    [⟨⟨1, .unambiguous⟩, ⟨2, .beforeAll⟩, [.text ⟨[120, 121], ['x', 'y'], rfl⟩], false⟩,
     ⟨⟨2, .afterAll⟩, ⟨3, .unambiguous⟩, [], false⟩]
  caret := ⟨0, .unambiguous⟩
  selection := ⟨0, .unambiguous⟩

theorem sound_twoEdits : twoEdits.predecessor.Sound := by
  have hdocument : WellFormedDocument lettersRoot := by decide +kernel
  exact ⟨by rintro h ref ⟨⟩; exact hdocument, rfl, rfl⟩

/-- After the first edit the map has runs of all kinds. -/
theorem map_corresponds_twoEdits :
    ∃ state edits, Reachable twoEdits state ∧ Corresponds twoEdits state edits
      ∧ state.mapping.currentMap.runs = [.copy 1, .inserted 2, .deleted 1, .copy 2]
      ∧ unitsOf state.workingRoots.leaves
        = [.byte 97, .byte 120, .byte 121, .marker ⟨1, 1, 1, 5⟩, .byte 99] := by
  have hrun : (twoEdits.after 23).toOption.any (fun state =>
      state.mapping.stage = .idle
        ∧ state.mapping.currentMap.runs = [.copy 1, .inserted 2, .deleted 1, .copy 2]
        ∧ unitsOf state.workingRoots.leaves
          = [.byte 97, .byte 120, .byte 121, .marker ⟨1, 1, 1, 5⟩, .byte 99]) = true := by
    decide +kernel
  cases hafter : twoEdits.after 23 with
  | error error => simp [hafter, Except.toOption] at hrun
  | ok state =>
    simp only [hafter, Except.toOption, Option.any_some, decide_eq_true_eq] at hrun
    have hreach := reachable_after hafter
    obtain ⟨edits, hcorresponds⟩ := map_corresponds twoEdits sound_twoEdits state hreach hrun.1
    exact ⟨state, edits, hreach, hcorresponds, hrun.2⟩

end Beryl.Draft
