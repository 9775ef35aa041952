import Beryl.Projection.Stretches

/-!
# Projection/Delivery — a projection does not see how its source was delivered

A source arrives in pieces.  A step stops behind the line that brings it to its output limit, and
the rest of the piece is offered again.  `offer_eq` says that neither matters: a piece, however
often its rest is offered, is read like the text it spells.  So two deliveries of one text end alike
(`parse_delivered`).
-/

namespace Beryl.Projection

open Text Emission Fallible List MarkdownParserCheckpoint
open String (utf8Len)

variable {D : Type} [ResourceDigest D]

/-! ## A step stops behind a line -/

variable {state state' : ParserState D} {os outputs : Outputs D} {lines : Lines}
  {source : Chars} {emitted : ℕ}

/-- A step fails as reading the whole piece fails. -/
theorem consumeSegments_error {e : SyndicMutationError}
    (h : consumeSegments emitted state lines = .error e) :
    run consumeSegment state lines = .error e := by
  induction lines generalizing emitted state with
  | nil => exact absurd h (by simp [consumeSegments, emit])
  | cons line lines ih =>
    rw [consumeSegments] at h
    split at h
    · rw [run_cons]
      rcases hline : consumeSegment state line with e' | ⟨mid, os⟩
      · rw [hline] at h
        rw [error_andThen, Except.error.inj h]
      · rw [hline] at h
        dsimp only [Except.bind] at h
        change behind os (run consumeSegment mid lines) = _
        rcases hrest : consumeSegments (emitted + os.length) mid lines with e' | r
        · rw [hrest, behind_error, error_andThen, Except.error.injEq] at h
          rw [ih (h ▸ hrest), behind_error]
        · rw [hrest] at h
          exact absurd h (by simp [behind, Except.map, andThen, emit, Except.bind])
    · exact absurd h (by simp [emit])

/-- One turn of the loop: it stops at the output limit, or reads a line and goes on. -/
theorem consumeSegments_cons_ok {line : Chars} {taken : ℕ}
    (h : consumeSegments emitted state (line :: lines) = .ok ((state', taken), outputs)) :
    (¬ emitted < maxStepOutputs ∧ state' = state ∧ taken = 0 ∧ outputs = [])
      ∨ emitted < maxStepOutputs ∧ ∃ mid os os' n, consumeSegment state line = .ok (mid, os)
        ∧ consumeSegments (emitted + os.length) mid lines = .ok ((state', n), os')
        ∧ taken = utf8Len line + n ∧ outputs = os ++ os' := by
  rw [consumeSegments] at h
  split at h
  · next hlt =>
    obtain ⟨⟨mid, os⟩, hline, h₁⟩ := bind_eq_ok.mp h
    obtain ⟨⟨last, n⟩, os₁, os₂, hrest, hlast, rfl⟩ := andThen_eq_ok.mp h₁
    obtain ⟨os', hlines, rfl⟩ := behind_eq_ok.mp hrest
    obtain ⟨⟨rfl, rfl⟩, rfl⟩ := by simpa [emit] using hlast
    exact .inr ⟨hlt, mid, os, os', n, hline, hlines, rfl, append_nil _⟩
  · next hlimit =>
    obtain ⟨⟨rfl, rfl⟩, rfl⟩ := by simpa [emit] using h
    exact .inl ⟨hlimit, rfl, rfl, rfl⟩

/-- **A step reads whole segments**, and leaves some unread only at its output limit. -/
theorem consumeSegments_ok {taken : ℕ}
    (h : consumeSegments emitted state lines = .ok ((state', taken), outputs)) :
    ∃ read unread, lines = read ++ unread ∧ run consumeSegment state read = .ok (state', outputs)
      ∧ taken = utf8Len read.flatten ∧ (emitted < maxStepOutputs → lines ≠ [] → read ≠ [])
      ∧ (unread ≠ [] → maxStepOutputs ≤ emitted + outputs.length) := by
  induction lines generalizing emitted state taken outputs with
  | nil =>
    obtain ⟨⟨rfl, rfl⟩, rfl⟩ := by simpa [consumeSegments, emit] using h
    exact ⟨[], [], rfl, rfl, rfl, fun _ hne => hne, fun hne => absurd rfl hne⟩
  | cons line lines ih =>
    obtain ⟨hlimit, rfl, rfl, rfl⟩ | ⟨-, mid, os, os', n, hline, hlines, rfl, rfl⟩ :=
      consumeSegments_cons_ok h
    · exact ⟨[], line :: lines, rfl, rfl, rfl, fun hlt => absurd hlt hlimit,
        fun _ => by simpa using hlimit⟩
    · obtain ⟨read, unread, rfl, hrun, rfl, -, hfull⟩ := ih hlines
      refine ⟨line :: read, unread, rfl, ?_, by simp, fun _ _ => cons_ne_nil _ _, fun hne => ?_⟩
      · rw [run_cons]
        exact andThen_eq_ok.mpr ⟨mid, os, os', hline, hrun, rfl⟩
      · have := hfull hne
        rw [length_append]
        omega

theorem consumed_of_consumeSegment {line : Chars}
    (h : consumeSegment state line = .ok (state', os)) :
    state'.consumed = state.consumed + utf8Len line := by
  rw [consumeSegment_eq] at h
  obtain ⟨frontier, os₁, os₂, -, hlast, -⟩ := andThen_eq_ok.mp h
  dsimp only at hlast
  split at hlast
  · rw [closeLine, onBlocks] at hlast
    obtain ⟨blocks, os₃, os₄, -, hblk, -⟩ := andThen_eq_ok.mp hlast
    obtain ⟨rfl, -⟩ := by simpa [emit] using hblk
    rfl
  · obtain ⟨rfl, -⟩ := by simpa [emit] using hlast
    rfl

theorem consumed_of_run (h : run consumeSegment state lines = .ok (state', os)) :
    state'.consumed = state.consumed + utf8Len lines.flatten := by
  induction lines generalizing state os with
  | nil =>
    obtain ⟨rfl, -⟩ := by simpa [emit] using h
    simp
  | cons line lines ih =>
    obtain ⟨mid, os₁, os₂, hline, hrest, -⟩ := andThen_eq_ok.mp h
    rw [ih hrest, consumed_of_consumeSegment hline, flatten_cons, String.utf8Len_append, add_assoc]

theorem flatten_ne_nil (hne : lines ≠ []) (hlines : ∀ line ∈ lines, line ≠ []) :
    lines.flatten ≠ [] := by
  obtain ⟨line, rest, rfl⟩ := exists_cons_of_ne_nil hne
  intro hnil
  exact hlines line mem_cons_self (append_eq_nil_iff.mp hnil).1

/-! ## Offering a piece -/

/-- Offer a text, and the rest of it again while a step stops short of its end. -/
def offer : ℕ → MarkdownParserCheckpoint D → Chars → ProjectionTextSourceCursor → Scan D
  | 0, _, _, _ => .error .projectionBuildConflict
  | turns + 1, checkpoint, source, cursor =>
    (advance checkpoint (.text (checkpoint.consumed + utf8Len source) source cursor)).bind
      fun step =>
        let rest := dropBytes (step.checkpoint.consumed - checkpoint.consumed) source
        if rest.isEmpty then emit step.checkpoint step.outputs
        else behind step.outputs (offer turns step.checkpoint rest cursor)

/-- The state with another cursor. -/
def MarkdownParserCheckpoint.withCursor (state : MarkdownParserCheckpoint D)
    (cursor : ProjectionTextSourceCursor) : MarkdownParserCheckpoint D :=
  { state with sourceCursor := cursor }

/-- One step on a text, in terms of the segments it reads. -/
theorem advance_text_ok {checkpoint state : MarkdownParserCheckpoint D}
    {cursor : ProjectionTextSourceCursor} {read unread : Lines}
    (hsegs : segments source = read ++ unread)
    (hrun : run consumeSegment checkpoint read = .ok (state, outputs))
    (hcons : consumeText checkpoint source = .ok ((state, utf8Len read.flatten), outputs)) :
    advance checkpoint (.text (checkpoint.consumed + utf8Len source) source cursor) =
      .ok ⟨if unread = [] then state.withCursor cursor else state, outputs, false⟩ := by
  have hsrc : source = read.flatten ++ unread.flatten := by
    rw [← flatten_append, ← hsegs, flatten_segments]
  have hlen : utf8Len source = utf8Len read.flatten + utf8Len unread.flatten := by
    rw [hsrc, String.utf8Len_append]
  have htaken : utf8Len read.flatten = utf8Len source ↔ unread = [] := by
    rw [hlen]
    refine ⟨fun h => ?_, fun h => by simp [h]⟩
    have hnil : unread.flatten = [] := String.utf8Len_eq_zero.mp (by omega)
    by_contra hne
    exact flatten_ne_nil hne (fun line hline =>
      ne_nil_of_mem_segments (hsegs ▸ mem_append_right read hline)) hnil
  have hbound := consumed_of_run hrun
  simp only [advance, hcons, ok_bind, htaken]
  rw [ensure_true (by split <;> simp only [hbound] <;> omega)]
  rfl

variable (checkpoint : MarkdownParserCheckpoint D)

/-- **A piece is read like the text it spells**, however often its rest is offered again. -/
theorem offer_eq {turns : ℕ}
    (cursor : ProjectionTextSourceCursor) (hne : source ≠ []) (hturns : source.length ≤ turns) :
    offer turns checkpoint source cursor =
      andThen (feed checkpoint source) fun state => emit (state.withCursor cursor) [] := by
  induction turns generalizing checkpoint source with
  | zero => exact absurd (length_eq_zero_iff.mp (Nat.le_zero.mp hturns)) hne
  | succ turns ih =>
    rcases hcons : consumeText checkpoint source with e | ⟨⟨state, taken⟩, outputs⟩
    · have hadv : advance checkpoint
          (.text (checkpoint.consumed + utf8Len source) source cursor) = .error e := by
        simp only [advance, hcons]
        rfl
      have hfeed : feed checkpoint source = .error e := consumeSegments_error hcons
      rw [offer, hadv, hfeed]
      rfl
    · obtain ⟨read, unread, hsegs, hrun, rfl, hsome, -⟩ := consumeSegments_ok hcons
      have hsrc : source = read.flatten ++ unread.flatten := by
        rw [← flatten_append, ← hsegs, flatten_segments]
      have hrest : dropBytes (utf8Len read.flatten) source = unread.flatten := by
        rw [hsrc, ← add_zero (utf8Len read.flatten), dropBytes_append]
        exact dropBytes_zero _
      have hleft : ∀ reached : MarkdownParserCheckpoint D, reached.consumed = state.consumed →
          dropBytes (reached.consumed - checkpoint.consumed) source = unread.flatten := by
        intro reached hreached
        rw [hreached, consumed_of_run hrun, Nat.add_sub_cancel_left, hrest]
      have hunreadLined : segments unread.flatten = unread :=
        @Lined.of_append_right read _ (hsegs ▸ lined_segments source)
      have hfeed : feed checkpoint source = behind outputs (feed state unread.flatten) := by
        rw [feed, hsegs, run_append, hrun, ok_andThen, feed, hunreadLined]
      rw [offer, advance_text_ok hsegs hrun hcons, hfeed, behind_andThen]
      dsimp only [Except.bind]
      by_cases hdone : unread = []
      · subst hdone
        rw [if_pos rfl, hleft (state.withCursor cursor) rfl]
        simp
      · have hread : read ≠ [] := hsome (by simp [maxStepOutputs]) fun hnil =>
          hdone (append_eq_nil_iff.mp (hsegs ▸ hnil)).2
        have hunread := flatten_ne_nil hdone fun line hline =>
          ne_nil_of_mem_segments (hsegs ▸ mem_append_right read hline)
        have hshorter : unread.flatten.length < source.length := by
          have := length_pos_iff.mpr (flatten_ne_nil hread fun line hline =>
            ne_nil_of_mem_segments (hsegs ▸ mem_append_left unread hline))
          rw [hsrc, length_append]
          omega
        rw [if_neg hdone, hleft _ rfl, if_neg (by simpa using hunread), ih state hunread (by omega)]

/-! ## Deliveries -/

variable {pieces : List TextPiece}

/-- A piece of text as a source delivers it: never empty, and with the cursor behind it. -/
structure TextPiece where
  source : Chars
  nonempty : source ≠ []
  nextCursor : ProjectionTextSourceCursor
deriving DecidableEq

/-- The text that pieces spell. -/
def spelled (pieces : List TextPiece) : Chars := (pieces.map TextPiece.source).flatten

/-- The cursor behind the last piece. -/
def lastCursor (cursor : ProjectionTextSourceCursor) (pieces : List TextPiece) :
    ProjectionTextSourceCursor :=
  (pieces.getLast?.map TextPiece.nextCursor).getD cursor

/-- Offer pieces one after the other. -/
def deliver (checkpoint : MarkdownParserCheckpoint D) (pieces : List TextPiece) : Scan D :=
  run (fun checkpoint piece =>
    offer piece.source.length checkpoint piece.source piece.nextCursor) checkpoint pieces

/-- The step at the end of the source. -/
def finishParse (checkpoint : MarkdownParserCheckpoint D) : Scan D :=
  (advance checkpoint .done).map fun step => (step.checkpoint, step.outputs)

/-- A whole build: every piece, then the end. -/
def parse (cursor : ProjectionTextSourceCursor) (pieces : List TextPiece) : Scan D :=
  andThen (deliver (.initial cursor) pieces) finishParse

/-- No block and no line looks at the cursor. -/
theorem consumeSegment_withCursor (state : ParserState D) (cursor : ProjectionTextSourceCursor)
    (line : Chars) : consumeSegment (state.withCursor cursor) line =
      andThen (consumeSegment state line) fun state => emit (state.withCursor cursor) [] := by
  rw [consumeSegment_eq, consumeSegment_eq, andThen_assoc]
  refine congrArg _ (funext fun frontier => ?_)
  dsimp only
  split
  · simp only [closeLine, onBlocks, andThen_assoc, emit_andThen, behind_nil]
    rfl
  · rfl

variable (cursor : ProjectionTextSourceCursor)

theorem lastCursor_cons (piece : TextPiece) (pieces : List TextPiece) :
    lastCursor cursor (piece :: pieces) = lastCursor piece.nextCursor pieces := by
  cases pieces with
  | nil => rfl
  | cons next pieces => rw [lastCursor, getLast?_cons_cons, lastCursor, getLast?_cons]; rfl

/-- **A delivery is read like the text it spells.** -/
theorem deliver_eq (pieces : List TextPiece) : deliver checkpoint pieces =
      andThen (feed checkpoint (spelled pieces)) fun state =>
        emit (state.withCursor (lastCursor checkpoint.sourceCursor pieces)) [] := by
  induction pieces generalizing checkpoint with
  | nil => rfl
  | cons piece pieces ih =>
    have hspell : spelled (piece :: pieces) = piece.source ++ spelled pieces := rfl
    rw [deliver, run_cons, offer_eq checkpoint _ piece.nonempty le_rfl, hspell, feed_append,
      andThen_assoc, andThen_assoc, lastCursor_cons]
    refine congrArg _ (funext fun state => ?_)
    rw [emit_andThen, behind_nil]
    refine (ih _).trans ?_
    rw [feed, run_commute fun state => consumeSegment_withCursor state _, andThen_assoc]
    rfl

/-- The blocks are finished without a look at the cursor. -/
theorem finishBoundary_withCursor (state : ParserState D) (cursor : ProjectionTextSourceCursor)
    (boundary : ℕ) : finishBoundary (state.withCursor cursor) boundary =
      andThen (finishBoundary state boundary) fun state => emit (state.withCursor cursor) [] := by
  simp only [finishBoundary, closeLine, onBlocks, andThen_assoc, emit_andThen, behind_nil]
  by_cases hcarry : state.lineCarry = []
  · have hcarry' : (state.withCursor cursor).lineCarry = [] := hcarry
    simp only [hcarry, hcarry', isEmpty_nil, if_true, emit_andThen, behind_nil]
    rfl
  · have hcarry' : (state.withCursor cursor).lineCarry ≠ [] := hcarry
    simp only [List.isEmpty_iff, hcarry, hcarry', if_false, andThen_assoc, emit_andThen, behind_nil]
    rfl

omit [ResourceDigest D] in
theorem consumed_of_onBlocks {change : BlockFrontier D → Step D}
    (h : onBlocks state change = .ok (state', os)) : state'.consumed = state.consumed := by
  obtain ⟨blocks, os₁, os₂, -, hblk, -⟩ := andThen_eq_ok.mp h
  obtain ⟨rfl, -⟩ := by simpa [emit] using hblk
  rfl

theorem consumed_of_finishBoundary {boundary : ℕ}
    (h : finishBoundary state boundary = .ok (state', os)) : state'.consumed = state.consumed := by
  obtain ⟨mid, os₁, os₂, hline, hblk, -⟩ := andThen_eq_ok.mp h
  rw [consumed_of_onBlocks hblk]
  split at hline
  · obtain ⟨rfl, -⟩ := by simpa [emit] using hline
    rfl
  · rw [closeLine] at hline
    have hcount := consumed_of_onBlocks hline
    exact hcount

/-- At the end of a source that is not empty only the blocks are left to finish. -/
theorem finishParse_eq (h : state.consumed ≠ 0) :
    finishParse state = finishBoundary state state.consumed := by
  rw [finishParse, advance]
  rcases hfinish : finishBoundary state state.consumed with e | ⟨state', os⟩
  · rfl
  · have hcount := consumed_of_finishBoundary hfinish
    simp only [ok_bind, hcount, h, false_and, if_false]
    rfl

theorem parse_eq (pieces : List TextPiece) : (parse cursor pieces : Scan D) =
      andThen (feed (.initial cursor) (spelled pieces)) fun state =>
        finishParse (state.withCursor (lastCursor cursor pieces)) := by
  rw [parse, deliver_eq, andThen_assoc]
  simp only [emit_andThen, behind_nil]
  rfl

theorem eq_nil_of_spelled (h : spelled pieces = []) : pieces = [] := by
  rcases pieces with - | ⟨piece, pieces⟩
  · rfl
  · exact absurd (append_eq_nil_iff.mp h).1 piece.nonempty

/-- A build of a text that is not empty reads it and finishes its blocks. -/
theorem parse_eq_of_ne_nil (hne : spelled pieces ≠ []) : (parse cursor pieces : Scan D) =
      andThen (andThen (feed (.initial cursor) (spelled pieces)) fun state =>
          finishBoundary state state.consumed)
        fun state => emit (state.withCursor (lastCursor cursor pieces)) [] := by
  rw [parse_eq, andThen_assoc]
  refine andThen_congr fun state os hfeed => ?_
  have hcount : state.consumed ≠ 0 := by
    rw [consumed_of_run hfeed, flatten_segments]
    simpa [initial] using hne
  have hcursor : (state.withCursor (lastCursor cursor pieces)).consumed ≠ 0 := hcount
  rw [finishParse_eq hcursor]
  exact finishBoundary_withCursor state _ state.consumed

/-- **Two deliveries of one text** fail alike, or emit the same outputs and end at the same
checkpoint, up to the cursor of the last piece. -/
theorem parse_delivered {pieces' : List TextPiece}
    (htext : spelled pieces = spelled pieces') : (parse cursor pieces : Scan D) =
      andThen (parse cursor pieces') fun checkpoint =>
        emit (checkpoint.withCursor (lastCursor cursor pieces)) [] := by
  by_cases hempty : spelled pieces = []
  · obtain rfl := eq_nil_of_spelled hempty
    obtain rfl := eq_nil_of_spelled (htext ▸ hempty)
    cases hinit : cursor.isInitial <;>
      simp [parse, deliver, finishParse, advance, finishBoundary, finishOpenBlock, onBlocks,
        initial, withCursor, lastCursor, emit,
        behind, Except.map, hinit]
  · rw [parse_eq_of_ne_nil cursor hempty, parse_eq_of_ne_nil cursor (htext ▸ hempty), ← htext]
    generalize (andThen (feed _ _) _ : Scan D) = finished
    rw [andThen_assoc]
    rfl

/-- **A projection does not see how its source was delivered.**  Two deliveries of one text fail
alike, or emit the same outputs and end at the same checkpoint, up to the cursor behind the last
piece, and at the very same one if these cursors agree, as those of a narrative do.  A build that
stopped before the end and is resumed from its checkpoint with the rest of the text counts as one of
the deliveries. -/
theorem delivery_independent (cursor : ProjectionTextSourceCursor)
    {pieces pieces' : List TextPiece} (htext : spelled pieces = spelled pieces') :
    (parse cursor pieces : Scan D) =
        andThen (parse cursor pieces') (fun checkpoint =>
          emit (checkpoint.withCursor (lastCursor cursor pieces)) [])
      ∧ (lastCursor cursor pieces = lastCursor cursor pieces' →
          (parse cursor pieces : Scan D) = parse cursor pieces')
      ∧ ∀ early late : List TextPiece, spelled (early ++ late) = spelled pieces →
          lastCursor cursor (early ++ late) = lastCursor cursor pieces →
          (andThen (deliver (.initial cursor) early) fun checkpoint =>
            andThen (deliver checkpoint late) finishParse : Scan D) = parse cursor pieces := by
  have hsame : ∀ {others : List TextPiece}, spelled others = spelled pieces →
      lastCursor cursor others = lastCursor cursor pieces →
      (parse cursor others : Scan D) = parse cursor pieces := by
    intro others hspelled hcursor
    rw [parse_delivered cursor hspelled, hcursor, ← parse_delivered cursor rfl]
  refine ⟨parse_delivered cursor htext, fun hcursor => ?_, fun early late hspelled hcursor => ?_⟩
  · exact (hsame htext.symm hcursor.symm).symm
  · rw [← hsame hspelled hcursor, parse,
      show deliver _ (early ++ late) = _ from run_append _ early late, andThen_assoc]
    rfl

/-- A heading cut in two within its text. -/
theorem delivery_independent_heading :
    (parse (.providerNarrative 0) [⟨"# a\nb".toList, by decide, .providerNarrative 5⟩] :
        Scan (ResourceKind × Lines)) =
      parse (.providerNarrative 0) [⟨"# ".toList, by decide, .providerNarrative 2⟩,
          ⟨"a\nb".toList, by decide, .providerNarrative 5⟩] :=
  (delivery_independent _ (by decide +kernel)).2.1 rfl

/-- A composed message counts its pieces: two letters that are stored as one piece end at another
cursor than two pieces of one letter. -/
theorem delivery_counts_pieces :
    let whole : List TextPiece := [⟨"ab".toList, by decide, .composer 2⟩]
    let cut : List TextPiece :=
      [⟨"a".toList, by decide, .composer 2⟩, ⟨"b".toList, by decide, .composer 3⟩]
    let ends (pieces : List TextPiece) := (parse (.composer 1) pieces :
      Scan (ResourceKind × Lines)).toOption.map fun r => r.1.sourceCursor
    spelled whole = spelled cut ∧ ends whole = some (.composer 2)
        ∧ ends cut = some (.composer 3) := by
  decide +kernel

end Beryl.Projection
