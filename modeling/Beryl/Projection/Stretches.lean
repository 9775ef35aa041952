import Beryl.Projection.Parser

/-!
# Projection/Stretches — the stretches of text that reach the blocks

Between the bytes of a source and its blocks stands one cut: a line reaches the blocks whole, or,
when it outgrows the carry, as *fragments* followed by the rest of the line.  `spilled` makes that
cut for a line, finished or not, and `consumeSegment_eq` says that this is all a scan does: it hands
the fragments of the carried line on and, at a line feed, the rest of it.

The cut of a longer line begins with the cut of any part of it (`spilled_append`).  Hence reading a
text is reading its first part and then the other, wherever the two meet (`feed_append`).
-/

namespace Beryl.Projection

open Text Emission List MarkdownParserCheckpoint
open String (utf8Len)

/-! ## Spilling a line -/

/-- The fragments that `turns` turns of the spilling loop take off a carry, and what they leave. -/
def spill : ℕ → Chars → Lines × Chars
  | 0, carry => ([], carry)
  | turns + 1, carry =>
    if markdownParagraphInlineMaxBytes < utf8Len carry then
      let (fragments, rest) := spill turns (dropBytes markdownSpanMaxBytes carry)
      (takeBytes markdownSpanMaxBytes carry :: fragments, rest)
    else ([], carry)

/-- The fragments of a carry and what is left of it. -/
def spilled (carry : Chars) : Lines × Chars := spill carry.length carry

variable {turns : ℕ} {carry more : Chars}

theorem length_dropBytes_lt (h : markdownParagraphInlineMaxBytes < utf8Len carry) :
    (dropBytes markdownSpanMaxBytes carry).length < carry.length := by
  have hcut := congrArg List.length (takeBytes_append_dropBytes markdownSpanMaxBytes carry)
  rw [length_append] at hcut
  have hle : markdownSpanMaxBytes ≤ utf8Len carry := by
    simp only [markdownParagraphInlineMaxBytes, markdownSpanMaxBytes] at *
    omega
  have hfull := le_utf8Len_takeBytes hle
  have hpos : takeBytes markdownSpanMaxBytes carry ≠ [] := by
    intro hnil
    rw [hnil, String.utf8Len_nil] at hfull
    simp [markdownSpanMaxBytes] at hfull
  have := length_pos_iff.mpr hpos
  omega

theorem spill_eq : ∀ {turns} {carry}, carry.length ≤ turns → spill turns carry = spilled carry := by
  intro turns
  induction turns using Nat.strong_induction_on with
  | _ turns ih =>
    intro carry hle
    cases hlen : carry.length with
    | zero =>
      obtain rfl := length_eq_zero_iff.mp hlen
      cases turns with
      | zero => rfl
      | succ turns => simp [spill, spilled, markdownParagraphInlineMaxBytes]
    | succ n =>
      obtain ⟨turns, rfl⟩ : ∃ k, turns = k + 1 := ⟨turns - 1, by omega⟩
      rw [spilled, hlen, spill, spill]
      split
      · next h =>
        have hlt := length_dropBytes_lt h
        rw [ih turns (Nat.lt_succ_self _) (by omega)]
        rcases lt_or_ge n (turns + 1) with hn | hn
        · rw [ih n (by omega) (by omega)]
        · omega
      · rfl

theorem spilled_of_le (h : utf8Len carry ≤ markdownParagraphInlineMaxBytes) :
    spilled carry = ([], carry) := by
  rw [spilled]
  cases carry.length with
  | zero => rfl
  | succ n => rw [spill, if_neg (by omega)]

theorem spilled_of_lt (h : markdownParagraphInlineMaxBytes < utf8Len carry) : spilled carry =
      (takeBytes markdownSpanMaxBytes carry :: (spilled (dropBytes markdownSpanMaxBytes carry)).1,
        (spilled (dropBytes markdownSpanMaxBytes carry)).2) := by
  have hlt := length_dropBytes_lt h
  obtain ⟨n, hn⟩ : ∃ n, carry.length = n + 1 := ⟨carry.length - 1, by omega⟩
  rw [spilled, hn, spill, if_pos h, spill_eq (by omega)]

/-- A carry is taken apart as its loop takes it apart. -/
theorem spilled_induction {motive : Chars → Prop}
    (short : ∀ carry, utf8Len carry ≤ markdownParagraphInlineMaxBytes → motive carry)
    (long : ∀ carry, markdownParagraphInlineMaxBytes < utf8Len carry →
      motive (dropBytes markdownSpanMaxBytes carry) → motive carry) : ∀ carry, motive carry := by
  intro carry
  induction hn : carry.length using Nat.strong_induction_on generalizing carry with
  | _ n ih =>
    rcases lt_or_ge markdownParagraphInlineMaxBytes (utf8Len carry) with h | h
    · exact long carry h (ih _ (hn ▸ length_dropBytes_lt h) _ rfl)
    · exact short carry h

/-- **The cut of a longer line begins with the cut of its part.** -/
theorem spilled_append (carry more : Chars) : spilled (carry ++ more) =
      ((spilled carry).1 ++ (spilled ((spilled carry).2 ++ more)).1,
        (spilled ((spilled carry).2 ++ more)).2) := by
  induction carry using spilled_induction with
  | short carry h => simp [spilled_of_le h]
  | long carry h ih =>
    have hle : markdownSpanMaxBytes ≤ utf8Len carry := by
      simp only [markdownParagraphInlineMaxBytes, markdownSpanMaxBytes] at *
      omega
    have hlong : markdownParagraphInlineMaxBytes < utf8Len (carry ++ more) := by
      rw [String.utf8Len_append]
      omega
    rw [spilled_of_lt hlong, spilled_of_lt h, takeBytes_append_of_le _ hle,
      dropBytes_append_of_le _ hle, ih]
    rfl

/-- Nothing of the carry is lost. -/
theorem flatten_spilled (carry : Chars) :
    (spilled carry).1.flatten ++ (spilled carry).2 = carry := by
  induction carry using spilled_induction with
  | short carry h => simp [spilled_of_le h]
  | long carry h ih => rw [spilled_of_lt h, flatten_cons, append_assoc, ih,
      takeBytes_append_dropBytes]

theorem utf8Len_spilled_le (carry : Chars) :
    utf8Len (spilled carry).2 ≤ markdownParagraphInlineMaxBytes := by
  induction carry using spilled_induction with
  | short carry h => rwa [spilled_of_le h]
  | long carry h ih => rwa [spilled_of_lt h]

/-- A carry is never spilled whole. -/
theorem spilled_ne_nil (h : carry ≠ []) : (spilled carry).2 ≠ [] := by
  induction carry using spilled_induction with
  | short carry hle => rwa [spilled_of_le hle]
  | long carry hlt ih =>
    rw [spilled_of_lt hlt]
    refine ih fun hnil => ?_
    have hadd := utf8Len_takeBytes_add markdownSpanMaxBytes carry
    have hle := utf8Len_takeBytes_le markdownSpanMaxBytes carry
    rw [hnil, String.utf8Len_nil] at hadd
    simp only [markdownParagraphInlineMaxBytes, markdownSpanMaxBytes] at *
    omega

/-! ## Stretches -/

/-- A stretch of the source as the blocks receive it. -/
inductive Stretch
  /-- a part of a line that is not finished -/
  | fragment (text : Chars)
  /-- a line, or the rest of one whose fragments went before -/
  | line (text : Chars) (continuation : Bool)
deriving DecidableEq

/-- Its text. -/
def Stretch.text : Stretch → Chars
  | .fragment text => text
  | .line text _ => text

/-- The stretches of a line. -/
def lineStretches (line : Chars) : List Stretch :=
  (spilled line).1.map .fragment ++ [.line (spilled line).2 (!(spilled line).1.isEmpty)]

variable {D : Type} [ResourceDigest D]

/-- The blocks receive a stretch that starts at byte `start`. -/
def receive (blocks : BlockFrontier D) (start : ℕ) : Stretch → Step D
  | .fragment text => processLongLineFragment blocks start text
  | .line text continuation => processLine blocks start text continuation

/-- The blocks and the byte they are handed next, after one more stretch. -/
def takeStretch (frontier : BlockFrontier D × ℕ) (stretch : Stretch) :
    Emits SyndicMutationError (BlockFrontier D × ℕ) (ParserOutput D) :=
  andThen (receive frontier.1 frontier.2 stretch) fun blocks =>
    emit (blocks, frontier.2 + utf8Len stretch.text) []

/-! ## Reading -/

/-- The state of a scan whose blocks and carry have moved on. -/
def MarkdownParserCheckpoint.moved (state : ParserState D) (fragments : Lines) (carry : Chars)
    (frontier : BlockFrontier D × ℕ) : ParserState D :=
  { state with
    toBlockFrontier := frontier.1
    lineStart := frontier.2
    lineCarry := carry
    lineContinuation := state.lineContinuation || !fragments.isEmpty }

theorem spillLines_eq (carry : Chars) : ∀ {turns} (state : ParserState D),
    state.lineCarry = carry → carry.length ≤ turns → spillLines turns state =
      andThen (run takeStretch (state.toBlockFrontier, state.lineStart)
        ((spilled carry).1.map .fragment))
        fun frontier => emit (state.moved (spilled carry).1 (spilled carry).2 frontier) [] := by
  induction carry using spilled_induction with
  | short carry h =>
    rintro turns state rfl -
    have hstop : spillLines turns state = emit state [] := by
      cases turns with
      | zero => rfl
      | succ turns => rw [spillLines, if_neg (by omega)]
    rw [hstop, spilled_of_le h]
    simp [moved]
  | long carry h ih =>
    rintro turns state rfl hle
    have hlt := length_dropBytes_lt h
    obtain ⟨turns, rfl⟩ : ∃ k, turns = k + 1 := ⟨turns - 1, by omega⟩
    rw [spillLines, if_pos h, spilled_of_lt h]
    simp only [takeBytes_utf8Prefix, dropBytes_utf8Prefix, map_cons, run_cons, onBlocks,
      andThen_assoc, takeStretch, receive, emit_andThen, behind_nil, Stretch.text]
    simp only [utf8Prefix_eq]
    refine congrArg _ (funext fun blocks => ?_)
    rw [ih _ rfl (by omega)]
    simp [moved]

variable (state : ParserState D)

/-- A segment that ends in a line feed finishes the line. -/
def endsLine (segment : Chars) : Bool := segment.getLast? == some '\n'

/-- **What reading a segment does**: it hands the fragments of the carried line on and, at a line
feed, the rest of it. -/
theorem consumeSegment_eq (segment : Chars) : consumeSegment state segment =
      andThen (run takeStretch (state.toBlockFrontier, state.lineStart)
        ((spilled (state.lineCarry ++ segment)).1.map .fragment)) fun frontier =>
          let read := { state with consumed := state.consumed + utf8Len segment }
          let moved := read.moved (spilled (state.lineCarry ++ segment)).1
            (spilled (state.lineCarry ++ segment)).2 frontier
          if endsLine segment then closeLine moved moved.consumed else emit moved [] := by
  rw [consumeSegment, spillLineCarry, spillLines_eq _ _ rfl le_rfl, andThen_assoc]
  refine congrArg _ (funext fun frontier => ?_)
  simp only [emit_andThen, behind_nil, endsLine, beq_iff_eq]
  rfl

/-- **A line may arrive in two parts.** -/
theorem consumeSegment_append {x y : Chars} (hx : endsLine x = false) (hy : y ≠ []) :
    consumeSegment state (x ++ y) =
      andThen (consumeSegment state x) fun state => consumeSegment state y := by
  have hlast : endsLine (x ++ y) = endsLine y := by
    rw [endsLine, endsLine, getLast?_append_of_ne_nil _ hy]
  have hempty : ∀ xs ys : Lines,
      (!(xs ++ ys).isEmpty) = (!xs.isEmpty || !ys.isEmpty) := by
    intro xs ys
    cases xs <;> simp
  rw [consumeSegment_eq state x, hx, consumeSegment_eq, ← append_assoc, spilled_append, hlast,
    andThen_assoc]
  simp only [map_append, run_append, andThen_assoc, Bool.false_eq_true, if_false, emit_andThen,
    behind_nil, consumeSegment_eq]
  refine congrArg _ (funext fun frontier => ?_)
  refine congrArg _ (funext fun frontier' => ?_)
  simp [moved, add_assoc, Bool.or_assoc, hempty]

/-- Read a text, segment by segment, without a limit on the outputs. -/
def feed (state : ParserState D) (text : Chars) : Scan D :=
  run consumeSegment state (segments text)

@[simp] theorem feed_nil : feed state [] = emit state [] := rfl

theorem feed_cons (c : Char) (text : Chars) :
    feed state (c :: text) = andThen (feed state [c]) fun state => feed state text := by
  by_cases hc : c = '\n'
  · simp [feed, segments, hc, run_cons]
  · have hone : segments [c] = [[c]] := by simp [segments, hc]
    rw [feed, feed, hone, run_singleton, segments, if_neg hc]
    cases hsegs : segments text with
    | nil => simp [feed, hsegs]
    | cons line lines =>
      have hline : line ≠ [] := ne_nil_of_mem_segments (hsegs ▸ mem_cons_self)
      have hlast : endsLine [c] = false := by simpa [endsLine] using hc
      simp only [feed, hsegs, run_cons]
      rw [show c :: line = [c] ++ line from rfl, consumeSegment_append state hlast hline,
        andThen_assoc]

/-- **Reading a text is reading its first part, then the other.** -/
theorem feed_append (text more : Chars) :
    feed state (text ++ more) = andThen (feed state text) fun state => feed state more := by
  induction text generalizing state with
  | nil => simp
  | cons c text ih =>
    rw [cons_append, feed_cons, feed_cons state c text, andThen_assoc]
    exact congrArg _ (funext fun state => ih state)

end Beryl.Projection
