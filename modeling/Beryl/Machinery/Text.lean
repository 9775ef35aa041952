import Mathlib.Data.String.Basic
import Mathlib.Algebra.Order.Ring.Nat

/-!
# Machinery/Text — texts as characters, cut at byte offsets

A UTF-8 text is the list of its characters, and a byte offset of it a number up to `utf8Len`.
`takeBytes n` and `dropBytes n` cut a text at the last character boundary up to byte `n`;
`utf8Prefix` finds that boundary by walking back from `n`, and `takeBytes_utf8Prefix` says that the
two agree.  `trim` takes the whitespace off both ends, and `segments` cuts a text behind every line
feed.
-/

namespace Beryl.Text

open List

open String (utf8Len utf8Len_append utf8Len_cons utf8Len_nil)

/-! ## Byte offsets -/

/-- A text. -/
abbrev Chars := List Char

/-- Byte offset `n` lies between two characters of the text, or at one of its ends. -/
@[grind =] def isCharBoundary : Chars → ℕ → Bool
  | _, 0 => true
  | [], _ + 1 => false
  | c :: cs, n + 1 => decide (c.utf8Size ≤ n + 1) && isCharBoundary cs (n + 1 - c.utf8Size)

/-- The characters that end by byte `n`. -/
@[grind =] def takeBytes : ℕ → Chars → Chars
  | _, [] => []
  | n, c :: cs => if c.utf8Size ≤ n then c :: takeBytes (n - c.utf8Size) cs else []

/-- What `takeBytes n` leaves. -/
@[grind =] def dropBytes : ℕ → Chars → Chars
  | _, [] => []
  | n, c :: cs => if c.utf8Size ≤ n then dropBytes (n - c.utf8Size) cs else c :: cs

variable {n k : ℕ} {c : Char} {s t x : Chars}

@[simp] theorem takeBytes_append_dropBytes (n : ℕ) (s : Chars) :
    takeBytes n s ++ dropBytes n s = s := by
  induction s generalizing n with
  | nil => rfl
  | cons c cs ih =>
    simp only [takeBytes, dropBytes]
    split
    · rw [cons_append, ih]
    · rfl

theorem utf8Len_takeBytes_le (n : ℕ) (s : Chars) : utf8Len (takeBytes n s) ≤ n := by
  induction s generalizing n with
  | nil => exact Nat.zero_le n
  | cons c cs ih =>
    simp only [takeBytes]
    split
    · have := ih (n - c.utf8Size)
      rw [utf8Len_cons]
      omega
    · exact Nat.zero_le n

theorem utf8Len_takeBytes_add (n : ℕ) (s : Chars) :
    utf8Len (takeBytes n s) + utf8Len (dropBytes n s) = utf8Len s := by
  rw [← utf8Len_append, takeBytes_append_dropBytes]

theorem takeBytes_of_le (h : utf8Len s ≤ n) : takeBytes n s = s := by
  induction s generalizing n with
  | nil => rfl
  | cons c cs ih =>
    rw [utf8Len_cons] at h
    rw [takeBytes, if_pos (by omega), ih (by omega)]

/-- A cut stops short of the limit by less than the character it stops at. -/
theorem lt_of_dropBytes_eq_cons (h : dropBytes n s = c :: t) :
    n < utf8Len (takeBytes n s) + c.utf8Size := by
  induction s generalizing n with
  | nil => exact absurd h (by simp [dropBytes])
  | cons d ds ih =>
    simp only [dropBytes] at h
    simp only [takeBytes]
    split at h
    · next hd =>
      have := ih h
      rw [if_pos hd, utf8Len_cons]
      omega
    · next hd =>
      cases h
      rw [if_neg hd, utf8Len_nil]
      omega

/-- A cut of a longer text stops at most three bytes short of the limit. -/
theorem le_utf8Len_takeBytes (h : n ≤ utf8Len s) : n ≤ utf8Len (takeBytes n s) + 3 := by
  rcases hd : dropBytes n s with - | ⟨c, t⟩
  · have := utf8Len_takeBytes_add n s
    rw [hd, utf8Len_nil] at this
    omega
  · have := lt_of_dropBytes_eq_cons hd
    have := c.utf8Size_le_four
    omega

/-- A cut within the text's first part does not see the rest. -/
theorem takeBytes_append_of_le (t : Chars) (h : n ≤ utf8Len s) :
    takeBytes n (s ++ t) = takeBytes n s := by
  induction s generalizing n with
  | nil =>
    obtain rfl : n = 0 := Nat.le_zero.mp h
    cases t with
    | nil => rfl
    | cons c t =>
      have := c.utf8Size_pos
      simp only [nil_append, takeBytes]
      rw [if_neg (by omega)]
  | cons c cs ih =>
    rw [utf8Len_cons] at h
    simp only [cons_append, takeBytes]
    split
    · rw [ih (by omega)]
    · rfl

theorem dropBytes_append_of_le (t : Chars) (h : n ≤ utf8Len s) :
    dropBytes n (s ++ t) = dropBytes n s ++ t := by
  have hwhole := takeBytes_append_dropBytes n (s ++ t)
  rw [takeBytes_append_of_le t h] at hwhole
  refine append_cancel_left (hwhole.trans ?_)
  rw [← append_assoc, takeBytes_append_dropBytes]

/-- A cut behind the text's first part takes all of it. -/
theorem takeBytes_append (n : ℕ) (s t : Chars) :
    takeBytes (utf8Len s + n) (s ++ t) = s ++ takeBytes n t := by
  induction s with
  | nil => simp
  | cons c cs ih =>
    simp only [cons_append, takeBytes, utf8Len_cons]
    rw [if_pos (by omega), show utf8Len cs + c.utf8Size + n - c.utf8Size = utf8Len cs + n by omega,
      ih]

theorem dropBytes_append (n : ℕ) (s t : Chars) :
    dropBytes (utf8Len s + n) (s ++ t) = dropBytes n t := by
  have h := takeBytes_append_dropBytes (utf8Len s + n) (s ++ t)
  rw [takeBytes_append, append_assoc] at h
  refine append_cancel_left ((append_cancel_left h).trans ?_)
  exact (takeBytes_append_dropBytes n t).symm

@[simp] theorem dropBytes_zero (s : Chars) : dropBytes 0 s = s := by
  cases s with
  | nil => rfl
  | cons c cs =>
    have := c.utf8Size_pos
    rw [dropBytes, if_neg (by omega)]

@[simp] theorem isCharBoundary_zero (s : Chars) : isCharBoundary s 0 = true := by
  cases s <;> rfl

/-- **A boundary is where a cut stops.** -/
theorem isCharBoundary_iff : isCharBoundary s n = true ↔ utf8Len (takeBytes n s) = n := by
  induction s generalizing n with
  | nil => cases n <;> simp [isCharBoundary, takeBytes]
  | cons c cs ih =>
    obtain - | n := n
    · simpa using utf8Len_takeBytes_le 0 (c :: cs)
    simp only [isCharBoundary, Bool.and_eq_true, decide_eq_true_eq, takeBytes, ih]
    split
    · next hc =>
      rw [utf8Len_cons]
      omega
    · next hc => simp [hc]

/-- A boundary behind a first part is a boundary of the rest. -/
theorem isCharBoundary_append_add (p q : Chars) (k : ℕ) :
    isCharBoundary (p ++ q) (utf8Len p + k) = isCharBoundary q k := by
  induction p with
  | nil => simp
  | cons c cs ih =>
    have hc := c.utf8Size_pos
    obtain ⟨n, hn⟩ : ∃ n, utf8Len (c :: cs) + k = n + 1 :=
      ⟨utf8Len cs + c.utf8Size + k - 1, by rw [utf8Len_cons]; omega⟩
    rw [hn, cons_append, isCharBoundary, ← hn, utf8Len_cons,
      show utf8Len cs + c.utf8Size + k - c.utf8Size = utf8Len cs + k by omega, ih,
      decide_eq_true (by omega), Bool.true_and]

theorem isCharBoundary_append (s t : Chars) : isCharBoundary (s ++ t) (utf8Len s) = true := by
  simpa using isCharBoundary_append_add s t 0

/-- A boundary within a first part does not see the rest. -/
theorem isCharBoundary_append_of_le {p : Chars} (q : Chars) (h : k ≤ utf8Len p) :
    isCharBoundary (p ++ q) k = isCharBoundary p k := by
  rw [Bool.eq_iff_iff, isCharBoundary_iff, isCharBoundary_iff, takeBytes_append_of_le q h]

/-- No boundary lies inside a character. -/
theorem isCharBoundary_inside (h0 : 0 < k) (h : k < c.utf8Size) :
    isCharBoundary (c :: s) k = false := by
  obtain ⟨n, rfl⟩ : ∃ n, k = n + 1 := ⟨k - 1, by omega⟩
  rw [isCharBoundary, decide_eq_false (by omega), Bool.false_and]

/-- **A cut of a text falls in front of a character or behind it.** -/
theorem cut_outside {p q a b : Chars} (h : p ++ c :: q = a ++ b) :
    utf8Len a ≤ utf8Len p ∨ utf8Len p + c.utf8Size ≤ utf8Len a := by
  by_contra hin
  have hcut : isCharBoundary (p ++ c :: q) (utf8Len p + (utf8Len a - utf8Len p)) = true := by
    rw [Nat.add_sub_cancel' (by omega), h]
    exact isCharBoundary_append a b
  rw [isCharBoundary_append_add, isCharBoundary_inside (by omega) (by omega)] at hcut
  exact absurd hcut (by decide)

/-- Walk back from byte `n` to a boundary. -/
def boundaryBefore (source : Chars) : ℕ → ℕ
  | 0 => 0
  | n + 1 => if isCharBoundary source (n + 1) then n + 1 else boundaryBefore source n

/-- The length of the longest run of whole characters within `maximum` bytes. -/
def utf8Prefix (source : Chars) (maximum : ℕ) : ℕ :=
  boundaryBefore source (min (utf8Len source) maximum)

theorem takeBytes_eq_of_not_boundary (h : ¬ isCharBoundary s (n + 1) = true) :
    takeBytes (n + 1) s = takeBytes n s := by
  induction s generalizing n with
  | nil => rfl
  | cons c cs ih =>
    simp only [isCharBoundary, Bool.and_eq_true, decide_eq_true_eq, not_and] at h
    simp only [takeBytes]
    by_cases hc : c.utf8Size ≤ n
    · have hcut : n + 1 - c.utf8Size = n - c.utf8Size + 1 := by omega
      rw [if_pos (by omega), if_pos hc, hcut, ih (hcut ▸ h (by omega))]
    · rw [if_neg hc, if_neg]
      intro hle
      have hzero : n + 1 - c.utf8Size = 0 := by omega
      exact h hle (by rw [hzero, isCharBoundary_zero])

theorem boundaryBefore_eq (n : ℕ) : boundaryBefore s n = utf8Len (takeBytes n s) := by
  induction n with
  | zero => exact (Nat.le_zero.mp (utf8Len_takeBytes_le 0 s)).symm
  | succ n ih =>
    rw [boundaryBefore]
    split
    · next h => exact (isCharBoundary_iff.mp h).symm
    · next h => rw [ih, takeBytes_eq_of_not_boundary h]

/-- **The boundary found is where the cut stops.** -/
theorem utf8Prefix_eq (s : Chars) (n : ℕ) : utf8Prefix s n = utf8Len (takeBytes n s) := by
  rw [utf8Prefix, boundaryBefore_eq]
  rcases le_total (utf8Len s) n with h | h
  · rw [Nat.min_eq_left h, takeBytes_of_le le_rfl, takeBytes_of_le h]
  · rw [Nat.min_eq_right h]

@[simp] theorem takeBytes_utf8Prefix (s : Chars) (n : ℕ) :
    takeBytes (utf8Prefix s n) s = takeBytes n s := by
  have h := takeBytes_append 0 (takeBytes n s) (dropBytes n s)
  rw [takeBytes_append_dropBytes, Nat.add_zero] at h
  rw [utf8Prefix_eq, h]
  refine (append_right_eq_self).mpr ?_
  rcases hd : dropBytes n s with - | ⟨c, t⟩
  · rfl
  · have := c.utf8Size_pos
    rw [takeBytes, if_neg (by omega)]

@[simp] theorem dropBytes_utf8Prefix (s : Chars) (n : ℕ) :
    dropBytes (utf8Prefix s n) s = dropBytes n s := by
  have h := takeBytes_append_dropBytes (utf8Prefix s n) s
  rw [takeBytes_utf8Prefix] at h
  exact append_cancel_left (h.trans (takeBytes_append_dropBytes n s).symm)

/-! ## Whitespace -/

/-- The characters of the Unicode property `White_Space`. -/
def isWhitespace (c : Char) : Bool :=
  let n := c.toNat
  (9 ≤ n && n ≤ 13) || n == 0x20 || n == 0x85 || n == 0xA0 || n == 0x1680
    || (0x2000 ≤ n && n ≤ 0x200A) || n == 0x2028 || n == 0x2029 || n == 0x202F || n == 0x205F
    || n == 0x3000

/-- The text from its first character that is not whitespace. -/
def trimStart (source : Chars) : Chars := source.dropWhile isWhitespace

/-- The text up to its last character that is not whitespace. -/
def trimEnd (source : Chars) : Chars := (source.reverse.dropWhile isWhitespace).reverse

/-- The text without whitespace around it. -/
def trim (source : Chars) : Chars := trimEnd (trimStart source)

/-! ## Lines -/

/-- Lines, or other parts of a text. -/
abbrev Lines := List Chars

/-- The text cut behind every line feed. -/
@[grind =] def segments : Chars → Lines
  | [] => []
  | c :: cs =>
    if c = '\n' then [c] :: segments cs
    else match segments cs with
      | [] => [[c]]
      | line :: lines => (c :: line) :: lines

theorem ne_nil_of_mem_segments (h : x ∈ segments s) : x ≠ [] := by
  induction s with
  | nil => cases h
  | cons c cs ih =>
    rw [segments] at h
    split at h
    · rcases mem_cons.mp h with rfl | h
      · exact cons_ne_nil _ _
      · exact ih h
    · cases hsegs : segments cs with
      | nil =>
        rw [hsegs] at h
        obtain rfl := mem_singleton.mp h
        exact cons_ne_nil _ _
      | cons first rest =>
        rw [hsegs] at h ih
        rcases mem_cons.mp h with rfl | h
        · exact cons_ne_nil _ _
        · exact ih (mem_cons_of_mem _ h)

@[simp] theorem flatten_segments (s : Chars) : (segments s).flatten = s := by
  induction s with
  | nil => rfl
  | cons c cs ih =>
    rw [segments]
    split
    · rw [flatten_cons, ih, singleton_append]
    · cases hsegs : segments cs with
      | nil =>
        rw [hsegs] at ih
        rw [← ih]
        rfl
      | cons first rest =>
        rw [hsegs] at ih
        simpa using ih

/-- Behind its first segment a text is cut as if it began there. -/
theorem exists_of_segments_eq_cons {lines : Lines} (h : segments s = x :: lines) :
    ∃ rest, s = x ++ rest ∧ segments rest = lines := by
  induction s generalizing x lines with
  | nil => cases h
  | cons c cs ih =>
    rw [segments] at h
    split at h
    · cases h
      exact ⟨cs, rfl, rfl⟩
    · cases hsegs : segments cs with
      | nil =>
        have hcs := congrArg List.flatten hsegs
        rw [flatten_segments] at hcs
        rw [hsegs] at h
        cases h
        exact ⟨[], by rw [hcs]; rfl, rfl⟩
      | cons first rest =>
        obtain ⟨tail, rfl, htail⟩ := ih hsegs
        rw [hsegs] at h
        cases h
        exact ⟨tail, rfl, htail⟩

theorem segments_of_notMem (h : '\n' ∉ x) (hne : x ≠ []) : segments x = [x] := by
  induction x with
  | nil => exact absurd rfl hne
  | cons c cs ih =>
    simp only [mem_cons, not_or] at h
    rw [segments, if_neg (Ne.symm h.1)]
    rcases cs with - | ⟨d, ds⟩
    · rfl
    · rw [ih h.2 (cons_ne_nil _ _)]

theorem segments_line_append (h : '\n' ∉ x) (t : Chars) :
    segments (x ++ '\n' :: t) = (x ++ ['\n']) :: segments t := by
  induction x with
  | nil => simp [segments]
  | cons c cs ih =>
    simp only [mem_cons, not_or] at h
    rw [cons_append, segments, if_neg (Ne.symm h.1), ih h.2]
    rfl

/-- The first segment of a text is a line with its line feed, or the whole text. -/
theorem segments_eq_cons {line : Chars} {lines : Lines} (h : segments s = line :: lines) :
    (∃ x rest, '\n' ∉ x ∧ line = x ++ ['\n'] ∧ s = x ++ '\n' :: rest ∧ segments rest = lines)
      ∨ ('\n' ∉ s ∧ line = s ∧ lines = []) := by
  induction s generalizing line lines with
  | nil => cases h
  | cons c cs ih =>
    rw [segments] at h
    split at h
    · next hc =>
      cases h
      exact .inl ⟨[], cs, by simp, by rw [hc]; rfl, by rw [hc]; rfl, rfl⟩
    · next hc =>
      cases hsegs : segments cs with
      | nil =>
        have hcs := congrArg List.flatten hsegs
        rw [flatten_segments] at hcs
        rw [hsegs] at h
        cases h
        refine .inr ⟨?_, by rw [hcs]; rfl, rfl⟩
        rw [hcs]
        simpa using Ne.symm hc
      | cons first rest =>
        rw [hsegs] at h
        cases h
        rcases ih hsegs with ⟨x, tail, hx, rfl, rfl, htail⟩ | ⟨hcs, rfl, rfl⟩
        · exact .inl ⟨c :: x, tail, by simpa [hx] using Ne.symm hc, rfl, rfl, htail⟩
        · exact .inr ⟨by simpa [hcs] using Ne.symm hc, rfl, rfl⟩

/-- Lines that a text is cut into: each ends in its only line feed, save perhaps the last. -/
def Lined (lines : Lines) : Prop := segments lines.flatten = lines

theorem lined_segments (s : Chars) : Lined (segments s) := by
  rw [Lined, flatten_segments]

variable {lines more : Lines} {line last : Chars}

theorem Lined.ne_nil (h : Lined lines) (hline : line ∈ lines) : line ≠ [] := by
  rw [Lined] at h
  exact ne_nil_of_mem_segments (h ▸ hline)

theorem Lined.of_append_right (h : Lined (lines ++ more)) : Lined more := by
  induction lines with
  | nil => exact h
  | cons line lines ih =>
    refine ih ?_
    obtain ⟨rest, hrest, hsegs⟩ := exists_of_segments_eq_cons h
    have hflat : rest = (lines ++ more).flatten := by
      rw [cons_append, flatten_cons] at hrest
      exact (append_cancel_left hrest).symm
    rwa [hflat] at hsegs

theorem Lined.of_append_left (h : Lined (lines ++ more)) : Lined lines := by
  induction lines with
  | nil => rfl
  | cons line lines ih =>
    have htail : Lined (lines ++ more) := @Lined.of_append_right [line] _ h
    rw [Lined, flatten_cons]
    rcases segments_eq_cons h with ⟨x, rest, hx, rfl, -, -⟩ | ⟨hflat, hline, hnil⟩
    · rw [append_assoc, singleton_append, segments_line_append hx, ih htail]
    · obtain ⟨rfl, rfl⟩ := append_eq_nil_iff.mp hnil
      rw [flatten_nil, append_nil]
      have hne : line ≠ [] := h.ne_nil mem_cons_self
      simp only [append_nil, flatten_cons, flatten_nil] at hflat
      exact segments_of_notMem hflat hne

/-- A line that another follows has its line feed. -/
theorem Lined.getLast?_eq
    (h : Lined (lines ++ [last])) (hline : line ∈ lines) : line.getLast? = some '\n' := by
  induction lines with
  | nil => exact absurd hline not_mem_nil
  | cons first lines ih =>
    rcases mem_cons.mp hline with rfl | hline
    · rcases segments_eq_cons h with ⟨x, rest, -, rfl, -, -⟩ | ⟨-, -, hnil⟩
      · simp
      · exact absurd hnil (by simp)
    · exact ih (@Lined.of_append_right [first] _ h) hline

/-- Lines before a last one end with a line feed. -/
theorem Lined.getLast?_flatten
    (h : Lined (lines ++ [last])) (hne : lines ≠ []) : lines.flatten.getLast? = some '\n' := by
  obtain ⟨before, line, rfl⟩ := (eq_nil_or_concat' lines).resolve_left hne
  have hline := h.getLast?_eq (mem_append_right _ mem_cons_self)
  rw [flatten_append, getLast?_append, flatten_singleton, hline]
  rfl

theorem lined_cons
    (hline : ∃ x, line = x ++ ['\n'] ∧ '\n' ∉ x) (h : Lined lines) : Lined (line :: lines) := by
  obtain ⟨x, rfl, hx⟩ := hline
  rw [Lined, flatten_cons, append_assoc, singleton_append, segments_line_append hx, h]

/-- The last of the lines are lines themselves. -/
theorem Lined.of_suffix {last : Lines} (h : Lined lines) (hlast : last <:+ lines) : Lined last := by
  obtain ⟨before, rfl⟩ := hlast
  exact h.of_append_right

end Beryl.Text
