import Beryl.Machinery.Text

/-!
# Machinery/Excerpt — excerpts collected piece by piece

An excerpt of a text is collected from pieces under one byte limit: every piece gives what still
fits of it.  As long as the pieces fit, that is the text cut at the limit.  But a cut leaves up to
three bytes when the next character is wide, and a later piece may begin with a narrow one: the
excerpt then goes on there, and is no prefix any more.  `collected_eq_iff` says exactly when it does
not.
-/

namespace Beryl.Text

open List

open String (utf8Len utf8Len_append utf8Len_nil utf8Len_eq_zero utf8Len_le_of_prefix)

variable {n : ℕ} {s t p : Chars} {pieces : Lines}

/-! ## Prefixes within a limit -/

theorem takeBytes_isFront (n : ℕ) (s : Chars) : takeBytes n s <+: s :=
  ⟨dropBytes n s, takeBytes_append_dropBytes n s⟩

theorem utf8Len_pos (h : s ≠ []) : 0 < utf8Len s :=
  Nat.pos_of_ne_zero fun hzero => h (utf8Len_eq_zero.mp hzero)

/-- Of two prefixes of a text, one no longer than the other begins it. -/
theorem prefix_of_utf8Len_le {q : Chars} (hp : p <+: s) (hq : q <+: s)
    (h : utf8Len p ≤ utf8Len q) : p <+: q := by
  rcases prefix_or_prefix_of_prefix hp hq with h' | ⟨t, rfl⟩
  · exact h'
  · rw [utf8Len_append] at h
    obtain rfl : t = [] := utf8Len_eq_zero.mp (by omega)
    simp

/-- Of two cuts of one text, the later one cuts what the earlier one leaves. -/
theorem append_split_of_utf8Len_le {a b c d : Chars} (h : a ++ b = c ++ d)
    (hle : utf8Len a ≤ utf8Len c) : ∃ mid, c = a ++ mid ∧ b = mid ++ d := by
  have ha : a <+: c ++ d := ⟨b, h⟩
  obtain ⟨mid, rfl⟩ := prefix_of_utf8Len_le ha (prefix_append c d) hle
  exact ⟨mid, rfl, by simpa using h⟩

/-- **A cut is the longest prefix within its limit.** -/
theorem prefix_takeBytes (hp : p <+: s) (h : utf8Len p ≤ n) : p <+: takeBytes n s := by
  obtain ⟨t, rfl⟩ := hp
  obtain ⟨k, rfl⟩ := Nat.exists_eq_add_of_le h
  rw [takeBytes_append]
  exact prefix_append _ _

/-- A cut takes the first part of a text whole and goes on behind it, or stops within it. -/
theorem takeBytes_append_eq (n : ℕ) (s t : Chars) : takeBytes n (s ++ t) =
      if utf8Len s ≤ n then s ++ takeBytes (n - utf8Len s) t else takeBytes n s := by
  split
  · next h =>
    obtain ⟨k, rfl⟩ := Nat.exists_eq_add_of_le h
    rw [takeBytes_append, Nat.add_sub_cancel_left]
  · next h => exact takeBytes_append_of_le t (Nat.le_of_not_le h)

theorem takeBytes_eq_nil_iff : takeBytes n s = [] ↔ ∀ c ∈ s.head?, n < c.utf8Size := by
  cases s with
  | nil => simp [takeBytes]
  | cons c cs => simp [takeBytes]

/-! ## Collecting -/

/-- What the pieces give, one after another, within `n` bytes. -/
def collected : ℕ → Lines → Chars
  | _, [] => []
  | n, t :: ts => takeBytes n t ++ collected (n - utf8Len (takeBytes n t)) ts

theorem utf8Len_collected_le : ∀ n ts, utf8Len (collected n ts) ≤ n
  | n, [] => Nat.zero_le n
  | n, t :: ts => by
    have hfirst := utf8Len_takeBytes_le n t
    have hrest := utf8Len_collected_le (n - utf8Len (takeBytes n t)) ts
    rw [collected, utf8Len_append]
    omega

/-- An excerpt is no longer than its pieces. -/
theorem utf8Len_collected_le_flatten : ∀ n ts, utf8Len (collected n ts) ≤ utf8Len ts.flatten
  | _, [] => le_rfl
  | n, t :: ts => by
    have hfirst := utf8Len_le_of_prefix (takeBytes_isFront n t)
    have hrest := utf8Len_collected_le_flatten (n - utf8Len (takeBytes n t)) ts
    rw [collected, flatten_cons, utf8Len_append, utf8Len_append]
    omega

theorem collected_append : ∀ n ts us,
    collected n (ts ++ us) = collected n ts ++ collected (n - utf8Len (collected n ts)) us
  | _, [], _ => rfl
  | n, t :: ts, us => by
    rw [cons_append, collected, collected_append, collected, append_assoc,
      utf8Len_append, Nat.sub_add_eq]

theorem collected_eq_nil_iff : ∀ {n} {ts},
    collected n ts = [] ↔ ∀ t ∈ ts, ∀ c ∈ t.head?, n < c.utf8Size
  | _, [] => by simp [collected]
  | n, t :: ts => by
    have ih := @collected_eq_nil_iff n ts
    rw [collected, append_eq_nil_iff, forall_mem_cons, ← takeBytes_eq_nil_iff, ← ih]
    refine and_congr_right fun hnil => ?_
    rw [hnil, utf8Len_nil, Nat.sub_zero]

/-- An excerpt collects its text up to the cut from the pieces that reach there, of which it needs
all. -/
theorem exists_collected_eq : ∀ n ts,
    ∃ taken rest, ts = taken ++ rest ∧ collected n taken = takeBytes n ts.flatten
      ∧ utf8Len (takeBytes n ts.flatten) ≤ utf8Len taken.flatten
      ∧ ∀ before t after, taken = before ++ t :: after →
        utf8Len before.flatten < utf8Len (takeBytes n ts.flatten)
  | _, [] => ⟨[], [], rfl, rfl, le_rfl, by simp⟩
  | n, t :: ts => by
    by_cases hnil : takeBytes n (t :: ts).flatten = []
    · exact ⟨[], t :: ts, rfl, hnil.symm, by rw [hnil]; exact Nat.zero_le _, by simp⟩
    · have hpos := utf8Len_pos hnil
      rw [flatten_cons, takeBytes_append_eq] at hpos ⊢
      split
      · next hfits =>
        obtain ⟨taken, rest, rfl, hcoll, hle, hneeded⟩ := exists_collected_eq (n - utf8Len t) ts
        rw [if_pos hfits] at hpos
        rw [utf8Len_append] at hpos ⊢
        refine ⟨t :: taken, rest, rfl, ?_, ?_, ?_⟩
        · rw [collected, takeBytes_of_le hfits, hcoll]
        · rw [flatten_cons, utf8Len_append]
          omega
        · rintro (- | ⟨first, before⟩) t' after heq
          · simpa using hpos
          · cases heq
            have := hneeded before t' after rfl
            rw [flatten_cons, utf8Len_append]
            omega
      · next hlong =>
        rw [if_neg hlong] at hpos
        refine ⟨[t], ts, rfl, by simp [collected], ?_, ?_⟩
        · simpa using utf8Len_le_of_prefix (takeBytes_isFront n t)
        · rintro (- | ⟨first, before⟩) t' after heq
          · simpa using hpos
          · simp at heq

/-- **Nothing is collected behind the cut**: no piece behind `limit`, cut at `n` bytes, begins with
a character that fits into what the cut leaves. -/
def Settles (n : ℕ) (limit : Chars) (pieces : Lines) : Prop :=
  ∀ before t after, pieces = before ++ t :: after →
    utf8Len (takeBytes n limit) ≤ utf8Len before.flatten →
    ∀ c ∈ t.head?, n - utf8Len (takeBytes n limit) < c.utf8Size

/-- What more an excerpt holds than its text up to the cut, and when that is nothing. -/
theorem exists_collected_eq_append (n : ℕ) (ts more : Lines) :
    ∃ extra, collected n (ts ++ more) = takeBytes n ts.flatten ++ extra
      ∧ (extra = [] ↔ Settles n ts.flatten (ts ++ more)) := by
  obtain ⟨taken, rest, rfl, hcoll, hle, hneeded⟩ := exists_collected_eq n ts
  refine ⟨collected (n - utf8Len (takeBytes n (taken ++ rest).flatten)) (rest ++ more), ?_, ?_⟩
  · rw [append_assoc, collected_append, hcoll]
  · rw [collected_eq_nil_iff, append_assoc]
    constructor
    · intro hall before t after hpcs hbehind
      -- a piece behind the cut stands behind all the pieces the cut needs
      rcases append_eq_append_iff.mp hpcs with ⟨l, rfl, hrest⟩ | ⟨l, rfl, htail⟩
      · exact hall t (hrest ▸ mem_append_right _ mem_cons_self)
      · rcases l with - | ⟨first, l⟩
        · rw [nil_append] at htail
          exact hall t (htail ▸ mem_cons_self)
        · have := hneeded before first l rfl
          omega
    · intro hsettles t ht
      obtain ⟨before, after, hrest⟩ := append_of_mem ht
      refine hsettles (taken ++ before) t after (by rw [hrest, append_assoc]) ?_
      have hlen : utf8Len (taken ++ before).flatten =
          utf8Len taken.flatten + utf8Len before.flatten := by
        rw [flatten_append, utf8Len_append]
      omega

/-- **An excerpt is the text up to the cut exactly when nothing is collected behind it.** -/
theorem collected_eq_iff {ts more : Lines} :
    collected n (ts ++ more) = takeBytes n ts.flatten ↔ Settles n ts.flatten (ts ++ more) := by
  obtain ⟨extra, hextra, hiff⟩ := exists_collected_eq_append n ts more
  rw [hextra, ← hiff, append_right_eq_self]

/-- An excerpt begins with the text up to the cut, so it is a prefix of the text only by being that.
-/
theorem collected_prefix_iff {ts more : Lines} :
    collected n (ts ++ more) <+: ts.flatten ↔ Settles n ts.flatten (ts ++ more) := by
  obtain ⟨extra, hextra, hiff⟩ := exists_collected_eq_append n ts more
  rw [← collected_eq_iff]
  constructor
  · intro hprefix
    have hcut := prefix_takeBytes hprefix (utf8Len_collected_le n _)
    have hbegins : takeBytes n ts.flatten <+: collected n (ts ++ more) := hextra ▸ prefix_append _ _
    exact hcut.eq_of_length_le hbegins.length_le
  · intro heq
    rw [heq]
    exact takeBytes_isFront _ _

/-! ## Prefixes of a number of lines -/

theorem length_segments_cons (c : Char) (cs : Chars) : (segments (c :: cs)).length =
      if c = '\n' then (segments cs).length + 1 else max 1 (segments cs).length := by
  rw [segments]
  split
  · rfl
  · cases segments cs with
    | nil => rfl
    | cons line lines => simp

theorem length_segments_le_of_prefix (h : p <+: s) : (segments p).length ≤ (segments s).length := by
  obtain ⟨t, rfl⟩ := h
  induction p with
  | nil => exact Nat.zero_le _
  | cons c cs ih =>
    rw [cons_append, length_segments_cons, length_segments_cons]
    split
    · omega
    · omega

/-- **A prefix has at most `k` lines exactly when it lies within the first `k` lines.** -/
theorem length_segments_le_iff : ∀ {k} {p s}, p <+: s →
    ((segments p).length ≤ k ↔ p <+: ((segments s).take k).flatten)
  | 0, p, s, _ => by
    rw [take_zero, flatten_nil, prefix_nil, Nat.le_zero, length_eq_zero_iff]
    constructor
    · intro h
      rw [← flatten_segments p, h, flatten_nil]
    · rintro rfl
      rfl
  | k + 1, p, s, h => by
    rcases hsegs : segments s with - | ⟨line, lines⟩
    · have hs : s = [] := by rw [← flatten_segments s, hsegs, flatten_nil]
      rw [hs, prefix_nil] at h
      simp [h, segments]
    · rw [take_succ_cons, flatten_cons]
      have hline : (segments line).length ≤ 1 := by
        have hlined : Lined ([line] ++ lines) := by
          rw [singleton_append, ← hsegs]
          exact lined_segments s
        have := hlined.of_append_left
        rw [Lined, flatten_singleton] at this
        rw [this, length_singleton]
      rcases segments_eq_cons hsegs with ⟨x, rest, hx, rfl, rfl, rfl⟩ | ⟨-, rfl, rfl⟩
      · have hbegins : x ++ ['\n'] <+: x ++ '\n' :: rest := ⟨rest, by simp⟩
        rcases prefix_or_prefix_of_prefix h hbegins with hwithin | ⟨q, rfl⟩
        · have := length_segments_le_of_prefix hwithin
          exact iff_of_true (by omega) (hwithin.trans (prefix_append _ _))
        · have hq : q <+: rest := by
            rw [append_assoc, singleton_append, prefix_append_right_inj, cons_prefix_cons] at h
            exact h.2
          rw [append_assoc, singleton_append, segments_line_append hx, length_cons,
            Nat.add_le_add_iff_right, length_segments_le_iff hq, ← singleton_append,
            ← append_assoc, prefix_append_right_inj]
      · have := length_segments_le_of_prefix h
        rw [hsegs, length_singleton] at this
        exact iff_of_true (by omega) (by simpa using h)

end Beryl.Text
