import Beryl.Draft.Read.TextDemand

/-!
# Draft/Read/TextPaging — reading a whole draft page by page

A reader issues demands one after another: forward ones from the end of the page before, or backward
ones from its start (`DemandRun`).  **The pages spell the text behind the coordinate, or before it**
(`text_demands_exact`).
-/

namespace Beryl.Draft

open Fallible Utf8 List Text TextDemand
open String (utf8Len utf8Len_append utf8Len_cons utf8Len_nil utf8Len_eq_zero)

variable {H : ℕ}

/-! ## Runs of demands -/

/-- What a forward reader asks for behind a page. -/
def nextForward (page : TextPage) : Option TextDemand :=
  if page.following = .documentEnd then none else some (.forward page.stop)

/-- What a backward reader asks for in front of a page. -/
def nextBackward (page : TextPage) : Option TextDemand :=
  if page.preceding = .documentStart then none else some (.backward page.start)

/-- **The pages of one reader**, from its first demand until it has no further one. -/
inductive DemandRun (sequence : Option (SequenceRef H)) (maxBytes : ℕ)
    (next : TextPage → Option TextDemand) : TextDemand → List TextPage → Prop
  | last {demand : TextDemand} {page : TextPage}
      (read : draftPieceTextDemand sequence demand maxBytes = .ok page) (done : next page = none) :
    DemandRun sequence maxBytes next demand [page]
  | more {demand demand' : TextDemand} {page : TextPage} {pages : List TextPage}
      (read : draftPieceTextDemand sequence demand maxBytes = .ok page)
      (goes : next page = some demand') (rest : DemandRun sequence maxBytes next demand' pages) :
    DemandRun sequence maxBytes next demand (page :: pages)

/-- A page as every reader may expect it: whole characters within the limit, at the coordinates it
names, and empty only if `atEdge`. -/
structure PageSound (maxBytes : ℕ) (atEdge : Prop) (page : TextPage) : Prop where
  text : ∃ s, page.bytes = utf8 s
  size : page.bytes.length ≤ maxBytes
  extent : page.stop = page.start + page.bytes.length
  filled : page.bytes ≠ [] ∨ atEdge

/-! ## A document and its text -/

/-- A draft whose reads are described here: well formed, with room for the counters of its walks,
and with the characters `text`. -/
structure Legible (sequence : Option (SequenceRef H)) (text : Chars) : Prop where
  wellFormed : WellFormedSequence sequence
  steady : ∀ root ∈ sequence, Steady H root.tree 0 0
  textual : Textual (sequenceLeaves sequence)
  spells : documentText (sequenceLeaves sequence) = utf8 text

section

variable {sequence : Option (SequenceRef H)} {text before after : Chars} {maxBytes n : ℕ} {c : Char}

theorem Legible.extent_eq (hleg : Legible sequence text) : extent sequence = utf8Len text := by
  rw [Draft.extent_eq hleg.wellFormed, ← length_documentText, hleg.spells, length_utf8]

theorem Legible.text_eq_nil (hleg : Legible (none : Option (SequenceRef H)) text) : text = [] :=
  utf8_injective hleg.spells.symm

/-- A cursor on the leaf that holds the character `c`: the leaf has the characters `p` in front of
it and `q` behind it, the other leaves have `B` and `R`. -/
structure HoldsChar (root : SequenceRef H) (cursor : SequenceCursor) (B p : Chars) (c : Char)
    (q R : Chars) (b a : Leaves) : Prop where
  anchor : cursor.leaf.anchor = utf8Len B
  rests : DriftAt Adrift HasBytes root cursor b (.text (utf8 (p ++ c :: q))) a
  textual : Textual b ∧ Textual a
  front : documentText b = utf8 B
  behind : documentText a = utf8 R

/-- **A text cursor for a byte of a character** rests on the leaf that holds the whole character. -/
theorem Legible.textCursor {root : SequenceRef H}
    (hleg : Legible (some root) (before ++ c :: after)) {k : ℕ} (hk : k < c.utf8Size) :
    ∃ cursor B p q R b a, Draft.textCursor root (utf8Len before + k)
        = .ok (some (cursor, (utf8 p).length + k))
      ∧ before = B ++ p ∧ after = q ++ R ∧ HoldsChar root cursor B p c q R b a := by
  have hroot := (hleg.wellFormed root rfl).toWellFormedRoot
  have hlen : utf8Len before + k < textLength (flatten H root.tree) := by
    rw [← length_documentText, ← sequenceLeaves_some, hleg.spells, length_utf8,
      utf8Len_append, utf8Len_cons]
    omega
  obtain ⟨cursor, b, t, a, hcur, hsplit, hle, hlt, hat⟩ := textCursor_ok hroot hlen
  have htxt := hleg.textual
  have hspells := hleg.spells
  rw [sequenceLeaves_some, hsplit] at htxt hspells
  obtain ⟨B, S, R, hB, rfl, hR, htext⟩ := htxt.cut hspells
  have hb : textLength b = utf8Len B := by rw [← length_documentText, hB, length_utf8]
  rw [hb] at hcur hle hlt
  rw [length_utf8] at hlt
  -- the leaf starts and ends at boundaries, and `c` has none inside
  have htext' : before ++ c :: after = (B ++ S) ++ R := by rw [htext, append_assoc]
  have hstart := cut_outside htext
  have hend := cut_outside htext'
  rw [utf8Len_append] at hend
  obtain ⟨p, rfl, -⟩ := append_split_of_utf8Len_le htext.symm (by omega)
  have hend' : utf8Len (B ++ p ++ [c]) ≤ utf8Len (B ++ S) := by
    rw [utf8Len_append, utf8Len_cons, utf8Len_nil, utf8Len_append B S]
    omega
  obtain ⟨q, hq, rfl⟩ := append_split_of_utf8Len_le
    (show (B ++ p ++ [c]) ++ after = (B ++ S) ++ R by
      rw [append_assoc, singleton_append, htext']) hend'
  obtain rfl : S = p ++ c :: q := by simpa using hq
  have hbytes : HasBytes (.text (utf8 (p ++ c :: q))) := fun hnil =>
    absurd (utf8_injective hnil : p ++ c :: q = []) (by simp)
  refine ⟨cursor, B, p, q, R, b, a, ?_, rfl, rfl, ?_,
    hat.adrift hroot (hleg.steady root rfl) hbytes,
    ⟨htxt.of_append.1, fun x hx => htxt.of_append.2 x (mem_cons_of_mem _ hx)⟩, hB, hR⟩
  · rw [hcur, utf8Len_append, length_utf8]
    congr 3
    omega
  · obtain ⟨ref, -, -, hleaf⟩ := hat
    rw [hleaf, hb]

/-! ## One demand -/

/-- **A forward demand from a boundary** yields the next characters. -/
theorem Legible.forward (hleg : Legible sequence (before ++ after)) (hmax : 4 ≤ maxBytes) :
    ∃ P Q, after = P ++ Q ∧ (utf8 P).length ≤ maxBytes ∧ (after ≠ [] → P ≠ [])
      ∧ readTextDemand sequence (.forward (utf8Len before)) maxBytes
        = .ok ⟨.forward (utf8Len before), utf8Len before, utf8Len (before ++ P), utf8 P,
            precedingEdge (utf8Len before),
            followingEdge (utf8Len (before ++ after)) (utf8Len (before ++ P))⟩ := by
  have hext := hleg.extent_eq
  have hle : utf8Len before ≤ utf8Len (before ++ after) := by
    rw [utf8Len_append]
    omega
  rw [readTextDemand, coordinate, hext, ensure_bind hle]
  cases sequence with
  | none =>
    obtain ⟨rfl, rfl⟩ := append_eq_nil_iff.mp hleg.text_eq_nil
    exact ⟨[], [], rfl, by simp, by simp, rfl⟩
  | some root =>
    cases after with
    | nil =>
      have hend : utf8Len before = root.link.logicalUtf8Bytes := by
        rw [← extent_some, hext, append_nil]
      refine ⟨[], [], rfl, by simp, by simp, ?_⟩
      rw [append_nil] at hext hle ⊢
      simp only [readForwardTextDemand, hext, ensure_true hle, Draft.textCursor, if_pos hend,
        ok_bind, followingEdge, if_true]
      rfl
    | cons c after =>
      obtain ⟨cursor, B, p, q, R, b, a, hcur, rfl, rfl, hchar⟩ := hleg.textCursor c.utf8Size_pos
      obtain ⟨P, Q, hwalk, hPQ, hsize, hne⟩ := forwardWalk_ok
        (hleg.wellFormed root rfl).toWellFormedRoot (draftPiecePageMaxRecords - 1) hchar.rests
        (by simp) hchar.textual.2 hchar.behind
        (show ([] : Utf8).length < maxBytes by rw [length_nil]; omega)
      rw [length_nil, zero_add] at hsize
      refine ⟨P, Q, by simpa using hPQ, hsize, fun _ => hne (by rw [length_nil]; omega), ?_⟩
      simp only [add_zero] at hcur
      simp only [readForwardTextDemand, hext, ensure_true hle, hcur, ok_bind, hwalk, nil_append]
      rw [utf8Len_append (B ++ p) P, length_utf8]
      rfl

/-- **A backward demand up to a boundary** yields the characters in front of it. -/
theorem Legible.backward (hleg : Legible sequence (before ++ after)) (hmax : 4 ≤ maxBytes) :
    ∃ P Q, before = Q ++ P ∧ (utf8 P).length ≤ maxBytes ∧ (before ≠ [] → P ≠ [])
      ∧ readTextDemand sequence (.backward (utf8Len before)) maxBytes
        = .ok ⟨.backward (utf8Len before), utf8Len Q, utf8Len before, utf8 P,
            precedingEdge (utf8Len Q),
            followingEdge (utf8Len (before ++ after)) (utf8Len before)⟩ := by
  have hext := hleg.extent_eq
  have hle : utf8Len before ≤ extent sequence := by
    rw [hext, utf8Len_append]
    omega
  cases sequence with
  | none =>
    obtain ⟨rfl, rfl⟩ := append_eq_nil_iff.mp hleg.text_eq_nil
    exact ⟨[], [], rfl, by simp, by simp, rfl⟩
  | some root =>
    rw [readTextDemand, coordinate, ensure_bind hle]
    rw [extent_some] at hext
    rcases before.eq_nil_or_concat' with rfl | ⟨before, c, rfl⟩
    · refine ⟨[], [], rfl, by simp, by simp, ?_⟩
      simp only [utf8Len_nil, if_true, hext]
      rfl
    · have hroot := (hleg.wellFormed root rfl).toWellFormedRoot
      have hpos := c.utf8Size_pos
      have hlen : utf8Len (before ++ [c]) = utf8Len before + c.utf8Size := by
        rw [utf8Len_append, utf8Len_cons, utf8Len_nil, zero_add]
      rw [append_assoc, singleton_append] at hleg
      obtain ⟨cursor, B, p, q, R, b, a, hcur, rfl, rfl, hchar⟩ :=
        hleg.textCursor (show c.utf8Size - 1 < c.utf8Size by omega)
      have hrests := hchar.rests
      rw [← singleton_append, ← append_assoc] at hrests
      obtain ⟨P, Q, hwalk, hPQ, hsize, hne⟩ := backwardWalk_ok hroot (draftPiecePageMaxRecords - 1)
        hrests (by simp) hchar.textual.1 hchar.front
        (show ([] : Utf8).length < maxBytes by rw [length_nil]; omega)
      rw [length_nil, zero_add] at hsize
      rw [← append_assoc] at hPQ
      refine ⟨P, Q, hPQ, hsize, fun _ => hne (by rw [length_nil]; omega), ?_⟩
      have hprobe : utf8Len (B ++ p ++ [c]) - 1 = utf8Len (B ++ p) + (c.utf8Size - 1) := by
        rw [hlen]
        omega
      have hinner : (utf8 p).length + (c.utf8Size - 1) + 1 = (utf8 (p ++ [c])).length := by
        rw [length_utf8, length_utf8, utf8Len_append, utf8Len_cons, utf8Len_nil]
        omega
      have hbdry : isCharBoundary (utf8 (p ++ [c] ++ q)) (utf8 (p ++ [c])).length = true := by
        rw [isCharBoundary_utf8, length_utf8]
        exact isCharBoundary_append _ q
      have hstop : utf8Len (B ++ p ++ [c]) = utf8Len Q + (utf8 P).length := by
        rw [hPQ, utf8Len_append, length_utf8]
      rw [if_neg (by rw [hlen]; omega)]
      simp only [readBackwardTextDemand, hprobe, hcur, ok_bind, required_some,
        hrests.loadText hroot, hinner, ensure_true hbdry, hwalk, append_nil, hext]
      rw [hstop, checkedSub_of_le (Nat.le_add_left _ _), Nat.add_sub_cancel, ← hstop]
      rfl

/-- **A validation yields the character around a byte**, or the last one at the end of the
document. -/
theorem Legible.validate (hleg : Legible sequence (before ++ c :: after))
    (hmax : 4 ≤ maxBytes) (hn : utf8Len before ≤ n)
    (hn' : n < utf8Len before + c.utf8Size ∨ after = [] ∧ n = utf8Len before + c.utf8Size) :
    readTextDemand sequence (.validate n) maxBytes
      = .ok ⟨.validate n, utf8Len before, utf8Len before + c.utf8Size, utf8 [c],
          precedingEdge (utf8Len before),
          followingEdge (utf8Len (before ++ c :: after)) (utf8Len before + c.utf8Size)⟩ := by
  have hext := hleg.extent_eq
  have hsize := c.utf8Size_pos
  have hall : utf8Len (before ++ c :: after) = utf8Len before + (utf8Len after + c.utf8Size) := by
    rw [utf8Len_append, utf8Len_cons]
  have hle : n ≤ extent sequence := by
    rw [hext, hall]
    obtain h | ⟨-, h⟩ := hn' <;> omega
  cases sequence with
  | none => exact absurd hleg.text_eq_nil (by simp)
  | some root =>
    have hroot := (hleg.wellFormed root rfl).toWellFormedRoot
    rw [readTextDemand, coordinate, ensure_bind hle]
    rw [extent_some] at hext
    have hbound := hroot.bytes
    rw [hext, hall] at hbound
    rw [if_neg (by rw [hext]; omega)]
    -- the byte looked at lies in `c`, also at the end of the document
    obtain ⟨k, hk, hprobe⟩ : ∃ k, k < c.utf8Size
        ∧ (if n = utf8Len (before ++ c :: after) then n - 1 else n) = utf8Len before + k := by
      rw [hall]
      split
      · exact ⟨n - 1 - utf8Len before, by omega, by omega⟩
      · next hne =>
        refine ⟨n - utf8Len before, ?_, by omega⟩
        obtain h | ⟨rfl, h⟩ := hn'
        · omega
        · exact absurd (by rw [h, utf8Len_nil, zero_add]) hne
    obtain ⟨cursor, B, p, q, R, b, a, hcur, rfl, rfl, hchar⟩ := hleg.textCursor hk
    have hlow : floorCharBoundary (utf8 (p ++ c :: q)) ((utf8 p).length + k) = (utf8 p).length :=
      floorCharBoundary_inside (by rw [length_utf8]; omega) (by rw [length_utf8]; omega)
    have hlen : (utf8 (p ++ c :: q)).length = utf8Len p + (utf8Len q + c.utf8Size) := by
      rw [length_utf8, utf8Len_append, utf8Len_cons]
    have hfirst : (if n = utf8Len (B ++ p ++ c :: (q ++ R)) then (utf8 p).length + k + 1
        else max ((utf8 p).length + k) (utf8 p).length + 1) = (utf8 p).length + k + 1 := by
      split <;> omega
    have hraise : (if (utf8 p).length + k + 1 < (utf8 (p ++ c :: q)).length then
        raiseToBoundary (utf8 (p ++ c :: q))
          ((utf8 (p ++ c :: q)).length - ((utf8 p).length + k + 1))
        else (utf8 p).length + k + 1) = (utf8 p).length + c.utf8Size := by
      rw [length_utf8 p]
      split
      · exact raiseToBoundary_utf8 (j := c.utf8Size - (k + 1)) (by omega) (by omega)
      · omega
    have hcut : ((utf8 (p ++ c :: q)).drop (utf8 p).length).take
        ((utf8 p).length + c.utf8Size - (utf8 p).length) = utf8 [c] := by
      rw [Nat.add_sub_cancel_left, utf8_append, drop_left, ← singleton_append,
        utf8_append, take_left']
      rw [length_utf8, utf8Len_cons, utf8Len_nil, zero_add]
    have hfits : (utf8 p).length + c.utf8Size ≤ (utf8 (p ++ c :: q)).length
        ∧ (utf8 p).length + c.utf8Size - (utf8 p).length ≤ maxBytes := by
      have := c.utf8Size_le_four
      rw [length_utf8 p]
      omega
    rw [utf8Len_append] at hbound
    have hplace : ∀ {n}, n ≤ utf8Len p + c.utf8Size →
        checkedAdd DraftPiecePrepareError.invalidRoot cursor.leaf.anchor n =
            .ok (utf8Len B + n) := by
      intro n hn
      rw [hchar.anchor, checkedAdd_of_lt (by omega)]
    simp only [readValidateTextDemand, hext, hprobe, hcur, ok_bind, required_some,
      hchar.rests.loadText hroot, hlow, hfirst, hraise, ensure_true hfits, hcut]
    rw [length_utf8, hplace (Nat.le_add_right _ _), hplace le_rfl, ← add_assoc, ← utf8Len_append]
    rfl

/-- **A coordinate inside a character is refused.** -/
theorem Legible.refused (hleg : Legible sequence (before ++ c :: after))
    (maxBytes : ℕ) (hn : utf8Len before < n) (hn' : n < utf8Len before + c.utf8Size) :
    readTextDemand sequence (.forward n) maxBytes = .error invalidUtf8Boundary
      ∧ readTextDemand sequence (.backward n) maxBytes = .error invalidUtf8Boundary := by
  have hext := hleg.extent_eq
  have hle : n ≤ extent sequence := by
    rw [hext, utf8Len_append, utf8Len_cons]
    omega
  cases sequence with
  | none => exact absurd hleg.text_eq_nil (by simp)
  | some root =>
    have hroot := (hleg.wellFormed root rfl).toWellFormedRoot
    have hinside : ∀ {p q} {k}, 0 < k → k < c.utf8Size →
        isCharBoundary (utf8 (p ++ c :: q)) ((utf8 p).length + k) = false := by
      intro p q k h0 hk
      rw [isCharBoundary_utf8, length_utf8, isCharBoundary_append_add,
        isCharBoundary_inside h0 hk]
    obtain ⟨k, rfl⟩ := Nat.exists_eq_add_of_lt hn
    constructor
    · obtain ⟨cursor, B, p, q, R, b, a, hcur, rfl, rfl, hchar⟩ :=
        hleg.textCursor (show k + 1 < c.utf8Size by omega)
      rw [readTextDemand, coordinate, ensure_bind hle]
      have hcut : ¬ isCharBoundary (utf8 (p ++ c :: q)) ((utf8 p).length + (k + 1)) = true := by
        rw [hinside (by omega) (by omega)]
        decide
      rw [add_assoc] at hle ⊢
      simp only [readForwardTextDemand, ensure_true hle, hcur, ok_bind,
        forwardWalk_refused hroot hchar.rests hcut]
      rfl
    · obtain ⟨cursor, B, p, q, R, b, a, hcur, rfl, rfl, hchar⟩ :=
        hleg.textCursor (show k < c.utf8Size by omega)
      have hcut : ¬ isCharBoundary (utf8 (p ++ c :: q)) ((utf8 p).length + k + 1) = true := by
        rw [add_assoc, hinside (by omega) (by omega)]
        decide
      rw [readTextDemand, coordinate, ensure_bind hle, if_neg (by omega)]
      simp only [readBackwardTextDemand, Nat.add_sub_cancel, hcur, ok_bind, required_some,
        hchar.rests.loadText hroot, ensure_false hcut]
      rfl

/-! ## Whole readings -/

theorem draftPieceTextDemand_eq (hmin : 4 ≤ maxBytes) (hmax : maxBytes ≤ draftPiecePageMaxBytes)
    (demand : TextDemand) : draftPieceTextDemand sequence demand maxBytes
      = (readTextDemand sequence demand maxBytes).mapError rangeError := by
  rw [draftPieceTextDemand, ensure_bind ⟨hmin, hmax⟩]

theorem followingEdge_eq_documentEnd {P Q : Chars} :
    followingEdge (utf8Len (before ++ (P ++ Q))) (utf8Len (before ++ P)) = .documentEnd
      ↔ Q = [] := by
  rw [← utf8Len_eq_zero, followingEdge]
  simp only [utf8Len_append]
  split
  · simp only [true_iff]
    omega
  · simp only [reduceCtorEq, false_iff]
    omega

theorem precedingEdge_eq_documentStart {Q : Chars} :
    precedingEdge (utf8Len Q) = .documentStart ↔ Q = [] := by
  rw [← utf8Len_eq_zero, precedingEdge]
  split <;> simp_all

section

variable (hleg : Legible sequence (before ++ after)) (hmin : 4 ≤ maxBytes)
  (hmax : maxBytes ≤ draftPiecePageMaxBytes)
include hleg hmin hmax

/-- **A page of a forward reader** takes characters off the text ahead, and is its last one when
nothing is left. -/
theorem Legible.forwardPage :
    ∃ page P Q, draftPieceTextDemand sequence (.forward (utf8Len before)) maxBytes = .ok page
      ∧ after = P ++ Q ∧ page.bytes = utf8 P ∧ page.stop = utf8Len (before ++ P)
      ∧ (page.following = .documentEnd ↔ Q = []) ∧ (Q ≠ [] → P ≠ [])
      ∧ PageSound maxBytes (page.following = .documentEnd) page := by
  obtain ⟨P, Q, rfl, hsize, hne, hread⟩ := hleg.forward hmin
  have hfilled : Q ≠ [] → P ≠ [] := fun hQ => hne (append_ne_nil_of_right_ne_nil P hQ)
  have hpage := (draftPieceTextDemand_eq hmin hmax _).trans
    (congrArg (Except.mapError rangeError) hread)
  refine ⟨_, P, Q, hpage, rfl, rfl, rfl, followingEdge_eq_documentEnd, hfilled, ⟨P, rfl⟩, hsize,
    ?_, ?_⟩
  · rw [utf8Len_append, length_utf8]
  · rw [followingEdge_eq_documentEnd]
    by_cases hQ : Q = []
    · exact .inr hQ
    · exact .inl fun hnil => hfilled hQ (utf8_injective hnil)

/-- **A page of a backward reader** takes characters off the text behind, and is its last one when
nothing is left. -/
theorem Legible.backwardPage :
    ∃ page P Q, draftPieceTextDemand sequence (.backward (utf8Len before)) maxBytes = .ok page
      ∧ before = Q ++ P ∧ page.bytes = utf8 P ∧ page.start = utf8Len Q
      ∧ (page.preceding = .documentStart ↔ Q = []) ∧ (Q ≠ [] → P ≠ [])
      ∧ PageSound maxBytes (page.preceding = .documentStart) page := by
  obtain ⟨P, Q, rfl, hsize, hne, hread⟩ := hleg.backward hmin
  have hfilled : Q ≠ [] → P ≠ [] := fun hQ => hne (append_ne_nil_of_left_ne_nil hQ P)
  have hpage := (draftPieceTextDemand_eq hmin hmax _).trans
    (congrArg (Except.mapError rangeError) hread)
  refine ⟨_, P, Q, hpage, rfl, rfl, rfl, precedingEdge_eq_documentStart, hfilled, ⟨P, rfl⟩, hsize,
    ?_, ?_⟩
  · rw [utf8Len_append, length_utf8]
  · rw [precedingEdge_eq_documentStart]
    by_cases hQ : Q = []
    · exact .inr hQ
    · exact .inl fun hnil => hfilled hQ (utf8_injective hnil)

end

/-- **A forward reader reads the rest of the document**: each page moves it on, until nothing is
left. -/
theorem Legible.forwardRun (hmin : 4 ≤ maxBytes) (hmax : maxBytes ≤ draftPiecePageMaxBytes)
    (before after : Chars) (hleg : Legible sequence (before ++ after)) :
    ∃ pages, DemandRun sequence maxBytes nextForward (.forward (utf8Len before)) pages
      ∧ (pages.map (·.bytes)).flatten = utf8 after
      ∧ ∀ page ∈ pages, PageSound maxBytes (page.following = .documentEnd) page := by
  obtain ⟨page, P, Q, hread, hafter, hbytes, hstop, hend, hmoves, hsound⟩ :=
    hleg.forwardPage hmin hmax
  by_cases hQ : Q = []
  · refine ⟨[page], .last hread (if_pos (hend.mpr hQ)), ?_, ?_⟩
    · rw [hafter, hQ, append_nil, map_singleton, flatten_singleton, hbytes]
    · intro page' hmem
      rwa [mem_singleton.mp hmem]
  · have hless : utf8Len Q < utf8Len after := by
      have := utf8Len_pos (hmoves hQ)
      rw [hafter, utf8Len_append]
      omega
    obtain ⟨pages, hrun, htext, hsounds⟩ := Legible.forwardRun hmin hmax (before ++ P) Q
      (by rwa [append_assoc, ← hafter])
    have hgoes : nextForward page = some (.forward (utf8Len (before ++ P))) := by
      rw [nextForward, if_neg (mt hend.mp hQ), hstop]
    refine ⟨page :: pages, .more hread hgoes hrun, ?_, ?_⟩
    · rw [map_cons, flatten_cons, htext, hbytes, hafter, utf8_append]
    · exact forall_mem_cons.mpr ⟨hsound, hsounds⟩
termination_by utf8Len after

/-- **A backward reader reads the document up to its demand**, the pages in reverse. -/
theorem Legible.backwardRun (hmin : 4 ≤ maxBytes) (hmax : maxBytes ≤ draftPiecePageMaxBytes)
    (before after : Chars) (hleg : Legible sequence (before ++ after)) :
    ∃ pages, DemandRun sequence maxBytes nextBackward (.backward (utf8Len before)) pages
      ∧ (pages.reverse.map (·.bytes)).flatten = utf8 before
      ∧ ∀ page ∈ pages, PageSound maxBytes (page.preceding = .documentStart) page := by
  obtain ⟨page, P, Q, hread, hbefore, hbytes, hstart, hend, hmoves, hsound⟩ :=
    hleg.backwardPage hmin hmax
  by_cases hQ : Q = []
  · refine ⟨[page], .last hread (if_pos (hend.mpr hQ)), ?_, ?_⟩
    · rw [hbefore, hQ, nil_append, reverse_singleton, map_singleton, flatten_singleton, hbytes]
    · intro page' hmem
      rwa [mem_singleton.mp hmem]
  · have hless : utf8Len Q < utf8Len before := by
      have := utf8Len_pos (hmoves hQ)
      rw [hbefore, utf8Len_append]
      omega
    obtain ⟨pages, hrun, htext, hsounds⟩ := Legible.backwardRun hmin hmax Q (P ++ after)
      (by rwa [← append_assoc, ← hbefore])
    have hgoes : nextBackward page = some (.backward (utf8Len Q)) := by
      rw [nextBackward, if_neg (mt hend.mp hQ), hstart]
    refine ⟨page :: pages, .more hread hgoes hrun, ?_, ?_⟩
    · rw [reverse_cons, map_append, flatten_append, htext, map_singleton,
        flatten_singleton, hbytes, hbefore, utf8_append]
    · exact forall_mem_cons.mpr ⟨hsound, hsounds⟩
termination_by utf8Len before

end

/-- **Text demands are exact**: with pages of 4 up to 65 536 bytes, a forward reader from a
character boundary reads the text from there, a backward reader the text up to there, in pages of
whole characters that are empty only at the edge; a validation yields the character of a byte; and a
coordinate inside a character is refused. -/
theorem text_demands_exact {sequence : Option (SequenceRef H)} {text : Chars} {maxBytes : ℕ}
    (hleg : Legible sequence text) (hmin : 4 ≤ maxBytes)
    (hmax : maxBytes ≤ draftPiecePageMaxBytes) :
    (∀ before after, text = before ++ after →
      (∃ pages, DemandRun sequence maxBytes nextForward (.forward (utf8Len before)) pages
        ∧ (pages.map (·.bytes)).flatten = utf8 after
        ∧ ∀ page ∈ pages, PageSound maxBytes (page.following = .documentEnd) page)
      ∧ (∃ pages, DemandRun sequence maxBytes nextBackward (.backward (utf8Len before)) pages
        ∧ (pages.reverse.map (·.bytes)).flatten = utf8 before
        ∧ ∀ page ∈ pages, PageSound maxBytes (page.preceding = .documentStart) page))
    ∧ (∀ before c after n, text = before ++ c :: after → utf8Len before ≤ n →
      (n < utf8Len before + c.utf8Size ∨ after = [] ∧ n = utf8Len before + c.utf8Size) →
      draftPieceTextDemand sequence (.validate n) maxBytes
        = .ok ⟨.validate n, utf8Len before, utf8Len before + c.utf8Size, utf8 [c],
            precedingEdge (utf8Len before),
            followingEdge (utf8Len text) (utf8Len before + c.utf8Size)⟩)
    ∧ ∀ before c after n, text = before ++ c :: after → utf8Len before < n →
      n < utf8Len before + c.utf8Size →
      draftPieceTextDemand sequence (.forward n) maxBytes = .error (.malformed .utf8Boundary)
        ∧ draftPieceTextDemand sequence (.backward n) maxBytes
          = .error (.malformed .utf8Boundary) := by
  refine ⟨?_, ?_, ?_⟩
  · rintro before after rfl
    exact ⟨hleg.forwardRun hmin hmax, hleg.backwardRun hmin hmax⟩
  · rintro before c after n rfl hn hn'
    rw [draftPieceTextDemand_eq hmin hmax, hleg.validate hmin hn hn']
    rfl
  · rintro before c after n rfl hn hn'
    obtain ⟨hfwd, hbwd⟩ := hleg.refused maxBytes hn hn'
    rw [draftPieceTextDemand_eq hmin hmax, draftPieceTextDemand_eq hmin hmax, hfwd, hbwd]
    exact ⟨rfl, rfl⟩

/-- `aé`, a marker, and `€`. -/
def markedText : SequenceRef 1 where
  link := ⟨6, 0, 1, 3, 1, .beforeMarkers 0, .afterMarkers 6⟩
  tree :=
    [(⟨3, 0, 1, 1, 0, .beforeMarkers 0, .afterMarkers 3⟩, .text [97, 195, 169]),
     (⟨0, 0, 0, 1, 1, .marker 0 1 1, .marker 0 1 1⟩, .marker ⟨1, 1, 1, 1⟩),
     (⟨3, 0, 1, 1, 0, .beforeMarkers 0, .afterMarkers 3⟩, .text [226, 130, 172])]
  selectedRoot := true

theorem wellFormed_markedText : WellFormedDocument markedText := by decide +kernel

theorem legible_markedText : Legible (some markedText) ['a', 'é', '€'] where
  wellFormed := by
    rintro _ ⟨⟩
    exact wellFormed_markedText
  steady := by
    rintro _ ⟨⟩
    exact steady_of_lt (by decide) (by decide)
  textual := by
    have hlvs : sequenceLeaves (some markedText)
        = [.text (utf8 ['a', 'é']), .marker ⟨1, 1, 1, 1⟩, .text (utf8 ['€'])] := by decide +kernel
    rw [hlvs, Textual, forall_mem_cons, forall_mem_cons, forall_mem_singleton]
    exact ⟨⟨_, rfl⟩, ⟨[], rfl⟩, ⟨_, rfl⟩⟩
  spells := by decide +kernel

/-- **A page of more than 65 536 bytes is refused**, so that reader gets no page at all. -/
theorem large_page_refused :
    Legible (some markedText) ['a', 'é', '€']
      ∧ draftPieceTextDemand (some markedText) (.forward 0) 65537 = .error (.malformed .limit)
      ∧ ∀ pages, ¬ DemandRun (some markedText) 65537 nextForward (.forward 0) pages := by
  have href : draftPieceTextDemand (some markedText) (.forward 0) 65537
      = .error (.malformed .limit) := rfl
  refine ⟨legible_markedText, href, fun pages hrun => ?_⟩
  cases hrun with
  | last read | more read => exact absurd (href.symm.trans read) (by simp)

/-- The theorem on `markedText` with pages of four bytes: the reader from byte 1 reads `é€`, byte 2
is a byte of `é`, and no page starts there. -/
theorem text_demands_markedText :
    (∃ pages, DemandRun (some markedText) 4 nextForward (.forward 1) pages
      ∧ (pages.map (·.bytes)).flatten = utf8 ['é', '€'])
    ∧ draftPieceTextDemand (some markedText) (.validate 2) 4
      = .ok ⟨.validate 2, 1, 3, utf8 ['é'], .continuation 1, .continuation 3⟩
    ∧ draftPieceTextDemand (some markedText) (.forward 2) 4 =
        .error (.malformed .utf8Boundary) := by
  obtain ⟨hruns, hvalid, hinside⟩ :=
    text_demands_exact legible_markedText (show 4 ≤ 4 by decide) (by decide)
  refine ⟨?_, ?_, ?_⟩
  · obtain ⟨⟨pages, hrun, htext, -⟩, -⟩ := hruns ['a'] ['é', '€'] rfl
    exact ⟨pages, hrun, htext⟩
  · exact hvalid ['a'] 'é' ['€'] 2 rfl (by decide) (.inl (by decide))
  · exact (hinside ['a'] 'é' ['€'] 2 rfl (by decide) (by decide)).1

end Beryl.Draft
