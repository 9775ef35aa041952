import Beryl.Home.Reservation
import Beryl.Projection.Delivery
import Beryl.Projection.Tally

/-!
# Projection/StepLimit — how many outputs one step emits

A step tests its output limit only before each line.  A line reached below the limit may still end
an open block and be a block of its own, so the limit can be passed: exactly when the outputs,
counted line by line from the text and the open block, jump over it (`step_within_limit`).

The command that stores a step's records reserves as many of each family as the limit allows, and is
refused when a family holds more.
-/

namespace Beryl.Projection

open Text Emission Fallible Home List
open String (utf8Len)

variable {D : Type}

section

variable [ResourceDigest D] {checkpoint : MarkdownParserCheckpoint D} {step : ParserStep D}
  {source : Chars} {cursor : ProjectionTextSourceCursor} {logicalEnd : ℕ}

/-! ## Reachable checkpoints -/

/-- The checkpoints a build can reach: an image marker is loaded where the text before it ends. -/
inductive Reached : MarkdownParserCheckpoint D → Prop
  | initial (cursor : ProjectionTextSourceCursor) : Reached (.initial cursor)
  | advance {checkpoint : MarkdownParserCheckpoint D} {piece : LoadedPiece} {step : ParserStep D}
      (h : Reached checkpoint)
      (hloaded : ∀ marker, piece = .imageMarker marker → marker.logicalOffset = checkpoint.consumed)
      (hstep : advance checkpoint piece = .ok step) : Reached step.checkpoint

/-- What a step on a text is, when it succeeds. -/
theorem advance_text_eq_ok (h : advance checkpoint (.text logicalEnd source cursor) = .ok step) :
    ∃ state taken, consumeText checkpoint source = .ok ((state, taken), step.outputs)
      ∧ ∃ cursor', step.checkpoint = { state with sourceCursor := cursor' } := by
  simp only [advance] at h
  obtain ⟨⟨⟨state, taken⟩, outputs⟩, hcons, h⟩ := bind_eq_ok.mp h
  obtain ⟨-, -, h⟩ := bind_eq_ok.mp h
  cases h
  refine ⟨state, taken, hcons, ?_⟩
  dsimp only
  split
  · exact ⟨cursor, rfl⟩
  · exact ⟨state.sourceCursor, rfl⟩

/-- A checkpoint that stands as its blocks and its unfinished line say, and holds little back. -/
structure Sound (checkpoint : MarkdownParserCheckpoint D) : Prop where
  standsAs : StandsAs checkpoint (.of checkpoint)
  small : (Standing.of checkpoint).Small

omit [ResourceDigest D] in
theorem Sound.of_standsAs {standing : Standing} (h : StandsAs checkpoint standing)
    (hsmall : standing.Small) : Sound checkpoint := by
  obtain rfl := h.eq_of
  exact ⟨h, hsmall⟩

/-- A step at an image marker or at the end brings a handful of outputs. -/
theorem advance_boundary (h : Sound checkpoint) {piece : LoadedPiece}
    (hpiece : ∀ logicalEnd source cursor, piece ≠ .text logicalEnd source cursor)
    (hstep : advance checkpoint piece = .ok step) :
    ((∀ marker, piece = .imageMarker marker → marker.logicalOffset = checkpoint.consumed) →
      Sound step.checkpoint) ∧ step.outputs.length ≤ lineOutputsMax + 2 := by
  have hclear : ∀ {state : ParserState D}, StandsAs state ⟨.clear, [], state.lineContinuation⟩ →
      Sound state := fun hstate => .of_standsAs hstate ⟨trivial, by simp⟩
  have hfinish := finishBoundary_counts h.standsAs h.small
  cases piece with
  | text logicalEnd source cursor => exact absurd rfl (hpiece _ _ _)
  | imageMarker marker =>
    simp only [advance] at hstep
    obtain ⟨⟨state, outputs⟩, hbdry, hstep⟩ := bind_eq_ok.mp hstep
    obtain ⟨mid, os, os', hmid, hmarker, rfl⟩ := andThen_eq_ok.mp hbdry
    obtain ⟨hstate, hconsumed, hcount⟩ := Ends.of_eq_ok hfinish hmid
    obtain ⟨rfl, rfl⟩ := by simpa [emitMarker, emit] using hmarker
    have hcarry := hstate.carry
    have hopen : mid.openBlock = none :=
      congrArg BlockFrontier.openBlock hstate.stands.eq_of_clear
    dsimp only at hstep
    split at hstep
    · cases hstep
      refine ⟨fun hloaded => hclear ⟨?_, hcarry, rfl, ?_⟩, ?_⟩
      · simp only [hopen]
        exact .clear
      · simp only [hcarry, hloaded marker rfl, hconsumed, String.utf8Len_nil, add_zero]
      · simp only [length_append, length_singleton]
        omega
    · cases hstep
  | done =>
    simp only [advance] at hstep
    obtain ⟨⟨state, outputs⟩, hbdry, hstep⟩ := bind_eq_ok.mp hstep
    obtain ⟨hstate, -, hcount⟩ := Ends.of_eq_ok hfinish hbdry
    dsimp only at hstep
    split at hstep
    · cases hstep
      exact ⟨fun _ => hclear hstate, by simp⟩
    · cases hstep
      exact ⟨fun _ => hclear hstate, by dsimp only; omega⟩

theorem run_sound {lines : Lines} (h : Sound checkpoint) :
    Ends (fun state _ => Sound state) (fun _ => True) (run consumeSegment checkpoint lines) := by
  induction lines generalizing checkpoint with
  | nil => exact h
  | cons line lines ih =>
    exact (consumeSegment_counts h.standsAs line).andThen fun _ _ hcounts =>
      ih (.of_standsAs hcounts.1 (h.small.read line))

/-- **Every reachable checkpoint is sound.** -/
theorem Reached.sound (h : Reached checkpoint) : Sound checkpoint := by
  induction h with
  | initial cursor => exact ⟨⟨.clear, rfl, rfl, rfl⟩, ⟨trivial, Nat.zero_le _⟩⟩
  | @advance checkpoint piece step _ hloaded hstep ih =>
    cases piece with
    | text logicalEnd source cursor =>
      obtain ⟨state, taken, hcons, cursor', hcheckpoint⟩ := advance_text_eq_ok hstep
      obtain ⟨read, unread, -, hrun, -⟩ := consumeSegments_ok hcons
      obtain ⟨hstate, hsmall⟩ := (run_sound ih).of_eq_ok hrun
      rw [hcheckpoint]
      exact ⟨⟨hstate.stands, rfl, rfl, hstate.consumed⟩, hsmall⟩
    | imageMarker | done => exact (advance_boundary ih (by simp) hstep).1 hloaded

/-! ## Jumping over the limit -/

/-- **No line takes the outputs past the limit**: as long as fewer have come, the next line takes
them no further than the limit itself. -/
def LandsFrom (emitted : ℕ) (standing : Standing) : Lines → Prop
  | [] => True
  | line :: lines => emitted < maxStepOutputs →
    emitted + (standing.read line).1 ≤ maxStepOutputs
      ∧ LandsFrom (emitted + (standing.read line).1) (standing.read line).2 lines

instance LandsFrom.decidable : ∀ (emitted : ℕ) (standing : Standing) (lines : Lines),
    Decidable (LandsFrom emitted standing lines)
  | _, _, [] => isTrue trivial
  | emitted, standing, line :: lines =>
    haveI := LandsFrom.decidable (emitted + (standing.read line).1) (standing.read line).2 lines
    inferInstanceAs (Decidable (_ → _ ∧ _))

/-- The lines of a source land on the limit, from the open block and the unfinished line on. -/
def LandsOnLimit (checkpoint : MarkdownParserCheckpoint D) (source : Chars) : Prop :=
  LandsFrom 0 (.of checkpoint) (segments source)

instance (checkpoint : MarkdownParserCheckpoint D) (source : Chars) :
    Decidable (LandsOnLimit checkpoint source) :=
  inferInstanceAs (Decidable (LandsFrom ..))

/-- **A step stays within the limit exactly when no line jumps over it.** -/
theorem consumeSegments_le {state state' : ParserState D} {standing : Standing} {emitted taken : ℕ}
    {lines : Lines} {outputs : Outputs D} (hstate : StandsAs state standing)
    (hemitted : emitted ≤ maxStepOutputs)
    (h : consumeSegments emitted state lines = .ok ((state', taken), outputs)) :
    emitted + outputs.length ≤ maxStepOutputs ↔ LandsFrom emitted standing lines := by
  induction lines generalizing emitted state standing taken outputs with
  | nil =>
    obtain ⟨-, rfl⟩ := by simpa [consumeSegments, emit] using h
    exact iff_of_true (by simpa using hemitted) trivial
  | cons line lines ih =>
    obtain ⟨hfull, -, -, rfl⟩ | ⟨hlt, mid, os, os', n, hline, hlines, -, rfl⟩ :=
      consumeSegments_cons_ok h
    · exact iff_of_true (by simpa using hemitted) fun hlt => absurd hlt hfull
    · obtain ⟨hmid, hcount⟩ := (consumeSegment_counts hstate line).of_eq_ok hline
      rw [LandsFrom, ← hcount, length_append, ← add_assoc]
      constructor
      · intro hle _
        have hwithin : emitted + os.length ≤ maxStepOutputs := by omega
        exact ⟨hwithin, (ih hmid hwithin hlines).mp hle⟩
      · intro hlands
        obtain ⟨hwithin, hlater⟩ := hlands hlt
        exact (ih hmid hwithin hlines).mpr hlater

theorem advance_text_le (hsound : Sound checkpoint)
    (h : advance checkpoint (.text logicalEnd source cursor) = .ok step) :
    step.outputs.length ≤ maxStepOutputs ↔ LandsOnLimit checkpoint source := by
  obtain ⟨state, taken, hcons, -⟩ := advance_text_eq_ok h
  have hlands := consumeSegments_le hsound.standsAs (Nat.zero_le _) hcons
  rwa [zero_add] at hlands

end

/-- The families of records that a step contributes to. -/
inductive RecordFamily
  | projections | stableItemProjections | itemProjections | resources | projectionResources
  | itemProjectionBuilds | itemProjectionSets | itemProjectionHeads
deriving DecidableEq

/-- What the command of a step declares. -/
def reserveReconciliation : List (ReservedRecordQuota RecordFamily) :=
  [⟨.projections, 64⟩, ⟨.stableItemProjections, 64⟩, ⟨.itemProjections, 64⟩, ⟨.resources, 64⟩,
    ⟨.projectionResources, 64⟩, ⟨.itemProjectionBuilds, 1⟩, ⟨.itemProjectionSets, 1⟩,
    ⟨.itemProjectionHeads, 1⟩]

/-- Which records of an output the store already holds, an earlier build having stored them. -/
structure Presence where
  projection : Bool
  resource : Bool
  resourceIndex : Bool
deriving DecidableEq

/-- It is a resource. -/
def ParserOutput.isResource : ParserOutput D → Bool
  | .resource .. => true
  | _ => false

/-- The projection records of a step. -/
def contributedProjections (outputs : List (ParserOutput D × Presence)) : List RecordFamily :=
  (outputs.filter fun output => !output.2.projection).map fun _ => .projections

/-- The index records of a step: the outputs are stable unless the step ends a source that may still
grow. -/
def contributedIndexes (stable : Bool) (outputs : List (ParserOutput D × Presence)) :
    List RecordFamily :=
  outputs.map fun _ => if stable then .stableItemProjections else .itemProjections

/-- The resource records of a step, each with its index. -/
def contributedResources (outputs : List (ParserOutput D × Presence)) : List RecordFamily :=
  (outputs.filter fun output => output.1.isResource).flatMap fun output =>
    (if output.2.resource then [] else [.resources])
      ++ (if output.2.resourceIndex then [] else [.projectionResources])

/-- The families of the records that a step contributes, in order. -/
def contribute (stable finished : Bool) (outputs : List (ParserOutput D × Presence)) :
    List RecordFamily :=
  contributedProjections outputs ++ contributedIndexes stable outputs ++ contributedResources
    outputs
    ++ if finished then [.itemProjectionBuilds, .itemProjectionSets, .itemProjectionHeads]
      else [.itemProjectionBuilds]

/-- The command of a step keeps to its reservation, whatever the store already holds. -/
def KeepsReservation (step : ParserStep D) : Prop :=
  ∀ (stable : Bool) (outputs : List (ParserOutput D × Presence)),
    outputs.map Prod.fst = step.outputs →
    checkQuotas reserveReconciliation (fun _ => 0) (contribute stable step.finished outputs) =
      .ok ()

section

variable (outputs : List (ParserOutput D × Presence)) (family : RecordFamily)

theorem count_contributedResources_le : (contributedResources outputs).count family ≤
      if family = .resources ∨ family = .projectionResources then outputs.length else 0 := by
  rw [contributedResources]
  induction outputs with
  | nil => simp
  | cons output outputs ih =>
    rcases output with ⟨output, present⟩
    rw [filter_cons]
    rcases output.isResource
    · refine ih.trans ?_
      split_ifs <;> simp
    · rw [if_pos rfl, flatMap_cons, count_append]
      refine (Nat.add_le_add_left ih _).trans ?_
      cases family <;> rcases present with ⟨-, _ | _, _ | _⟩ <;> simp [add_comm]

theorem count_contributedProjections_le : (contributedProjections outputs).count family ≤
      if family = .projections then outputs.length else 0 := by
  rw [contributedProjections, map_const', count_replicate]
  rcases eq_or_ne family .projections with rfl | hne
  · simpa using length_filter_le ..
  · simp [hne.symm]

/-- Every output brings one record to the index of its step. -/
theorem count_contributedIndexes (stable : Bool) :
    (contributedIndexes stable outputs).count family =
      if family = (if stable then .stableItemProjections else .itemProjections) then outputs.length
      else 0 := by
  rw [contributedIndexes, map_const', count_replicate]
  simp only [beq_iff_eq, @eq_comm _ family]

/-- **The reservation of a step is its output limit**: the command is accepted exactly when the step
emits no more than the limit. -/
theorem checkQuotas_contribute (stable finished : Bool) :
    checkQuotas reserveReconciliation (fun _ => 0) (contribute stable finished outputs) = .ok () ↔
      outputs.length ≤ maxStepOutputs := by
  rw [checkQuotas_eq_ok]
  simp only [contribute, count_append, zero_add]
  constructor
  · intro hall
    -- every output has a record in the one index of the step
    rcases Nat.eq_zero_or_pos outputs.length with hnone | hsome
    · omega
    · have hindex := count_contributedIndexes outputs
        (if stable then .stableItemProjections else .itemProjections) stable
      rw [if_pos rfl] at hindex
      have hmem := count_pos_iff.mp (hindex ▸ hsome)
      obtain ⟨count, hcount, hle⟩ := hall _ (by simp only [mem_append]; tauto)
      have hquota : count = maxStepOutputs := by
        cases stable <;> exact (Option.some.inj hcount).symm
      omega
  · intro hle family _
    have h₁ := count_contributedProjections_le outputs family
    have h₂ := count_contributedIndexes outputs family stable
    have h₃ := count_contributedResources_le outputs family
    have hmax : maxStepOutputs = 64 := rfl
    cases family <;> refine ⟨_, rfl, ?_⟩ <;> dsimp only <;> cases stable <;> cases finished <;>
      simp at h₁ h₂ h₃ ⊢ <;> omega

end

/-- **A step keeps to the limit, and its command to the reservation, exactly when no line of the
text it is given jumps over the limit.**  Steps at image markers and at the end always do. -/
theorem step_within_limit [ResourceDigest D] {checkpoint : MarkdownParserCheckpoint D}
    (h : Reached checkpoint) {piece : LoadedPiece} {step : ParserStep D}
    (hstep : advance checkpoint piece = .ok step) :
    step.outputs.length ≤ maxStepOutputs ∧ KeepsReservation step ↔
      ∀ logicalEnd source cursor, piece = .text logicalEnd source cursor →
        LandsOnLimit checkpoint source := by
  have hkeeps : step.outputs.length ≤ maxStepOutputs → KeepsReservation step := by
    intro hle stable outputs houtputs
    rw [checkQuotas_contribute]
    rwa [← houtputs, length_map] at hle
  have hlimit : step.outputs.length ≤ maxStepOutputs ↔
      ∀ logicalEnd source cursor, piece = .text logicalEnd source cursor →
        LandsOnLimit checkpoint source := by
    rcases piece with ⟨logicalEnd, source, cursor⟩ | marker | -
    · rw [advance_text_le h.sound hstep]
      constructor
      · rintro hlands _ _ _ ⟨⟩
        exact hlands
      · intro hall
        exact hall _ _ _ rfl
    all_goals
      obtain ⟨-, hfew⟩ := advance_boundary h.sound (by simp) hstep
      exact iff_of_true (hfew.trans (by decide)) (by simp)
  rw [← hlimit]
  exact ⟨And.left, fun hle => ⟨hle, hkeeps hle⟩⟩

theorem exists_of_outputs {x : Except SyndicMutationError (ParserStep D)} {n : ℕ}
    (h : x.toOption.map (fun step => step.outputs.length) = some n) :
    ∃ step, x = .ok step ∧ step.outputs.length = n := by
  rcases x with e | step
  · cases h
  · exact ⟨step, rfl, Option.some.inj h⟩

/-- Sixty-two headings, and a paragraph that one more heading ends. -/
def sixtyFour : Chars := (List.replicate 62 "# a\n".toList).flatten ++ "p\n# b\n".toList

/-- The step over a text that lands on the limit emits as many outputs as it may. -/
theorem step_within_limit_sixtyFour :
    ∃ step : ParserStep (ResourceKind × Lines),
      advance (.initial (.providerNarrative 0)) (.text 254 sixtyFour (.providerNarrative 254))
        = .ok step
      ∧ step.outputs.length = 64 ∧ KeepsReservation step
      ∧ LandsOnLimit (.initial (.providerNarrative 0) :
          MarkdownParserCheckpoint (ResourceKind × Lines)) sixtyFour := by
  have hlands : LandsOnLimit (.initial (.providerNarrative 0) :
      MarkdownParserCheckpoint (ResourceKind × Lines)) sixtyFour := by decide +kernel
  obtain ⟨step, hstep, hmany⟩ := @exists_of_outputs (ResourceKind × Lines)
    (advance (.initial (.providerNarrative 0)) (.text 254 sixtyFour (.providerNarrative 254))) 64
    (by decide +kernel)
  obtain ⟨-, hkeeps⟩ := (step_within_limit (.initial _) hstep).mpr (by
    rintro _ _ _ ⟨⟩
    exact hlands)
  exact ⟨step, hstep, hmany, hkeeps, hlands⟩

/-- **A line can bring two outputs, so a step can emit sixty-five**: sixty-three headings, then a
paragraph that a heading ends. -/
theorem step_over_limit :
    ∃ step : ParserStep (ResourceKind × Lines),
      advance (.initial (.providerNarrative 0))
        (.text 258 ((List.replicate 63 "# a\n".toList).flatten ++ "p\n# b\n".toList)
          (.providerNarrative 258)) = .ok step
      ∧ step.outputs.length = 65 ∧ ¬ KeepsReservation step := by
  obtain ⟨step, hstep, hmany⟩ := @exists_of_outputs (ResourceKind × Lines)
    (advance (.initial (.providerNarrative 0))
      (.text 258 ((List.replicate 63 "# a\n".toList).flatten ++ "p\n# b\n".toList)
        (.providerNarrative 258))) 65 (by decide +kernel)
  refine ⟨step, hstep, hmany, fun hkeeps => ?_⟩
  have hfits := hkeeps true (step.outputs.map fun output => (output, ⟨false, false, false⟩))
    (by rw [map_map, Function.comp_def, map_id'])
  rw [checkQuotas_contribute, length_map, hmany] at hfits
  exact absurd hfits (by decide)

end Beryl.Projection
