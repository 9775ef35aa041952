import Mathlib.Algebra.Order.Ring.Nat
import Mathlib.Data.List.Range

/-!
# Machinery/Replace — replacing ranges of a list, all at once

An `Edit` replaces the range `start ≤ i < stop` of a list.  **`replaceAll` applies edits at the
coordinates of the original list**: a cursor walks over it, copies what lies between two ranges and
writes what replaces a range.  `rewritten` is what has been written when the cursor has passed a run
of edits, so that a list of edits is performed one edit after the other (`rewritten_concat`).
-/

namespace Beryl.Replace

open List

variable {α β : Type}

/-! ## Cutting a range out -/

/-- The list without the range `a ≤ i < b`. -/
def cutOut (a b : ℕ) (l : List α) : List α := l.take a ++ l.drop b

theorem cutOut_append {a b : ℕ} (h : a ≤ b) (l r : List α) :
    cutOut a b (l ++ r) = cutOut a b l ++ cutOut (a - l.length) (b - l.length) r := by
  unfold cutOut
  rw [take_append, drop_append]
  rcases le_total l.length a with hle | hle
  · rw [drop_of_length_le (hle.trans h)]
    simp
  · rw [Nat.sub_eq_zero_of_le hle]
    simp

@[simp] theorem cutOut_self (a : ℕ) (l : List α) : cutOut a a l = l := take_append_drop a l

theorem cutOut_nil (a b : ℕ) : cutOut a b ([] : List α) = [] := by simp [cutOut]

/-- A range that lies in the middle of a list, but for what of it lies in front. -/
theorem cutOut_middle {a b : ℕ} {x y : List α} (hab : a ≤ b) (hx : x.length ≤ b)
    (hy : b ≤ x.length + y.length) (z : List α) :
    cutOut (max a x.length) b (x ++ y ++ z) = x ++ cutOut (a - x.length) (b - x.length) y ++ z := by
  have hle : max a x.length ≤ b := max_le hab hx
  have h1 : cutOut (max a x.length) b x = x := by
    rw [cutOut, take_of_length_le (le_max_right _ _), drop_of_length_le hx, append_nil]
  rw [cutOut_append hle, cutOut_append hle, h1, length_append,
    show max a x.length - (x.length + y.length) = 0 by omega,
    show b - (x.length + y.length) = 0 by omega, cutOut_self,
    show max a x.length - x.length = a - x.length by omega]

/-- Cutting a range out in two goes, its end first. -/
theorem cutOut_cutOut {a b c : ℕ} (hab : a ≤ b) (hbc : b ≤ c) (l : List α) (hc : c ≤ l.length) :
    cutOut a b (cutOut b c l) = cutOut a c l := by
  have hb : (l.take b).length = b := by rw [length_take]; omega
  rw [cutOut, cutOut, take_append_of_le_length (by omega), take_take, Nat.min_eq_left hab,
    drop_left' hb, cutOut]

/-! ## Ranges of numbers -/

theorem take_range' (s n k : ℕ) : (List.range' s n).take k = List.range' s (min k n) := by
  rcases le_total k n with h | h
  · rw [Nat.min_eq_left h]
    conv_lhs => rw [← Nat.add_sub_cancel' h, ← range'_append_1]
    exact take_left' length_range'
  · rw [Nat.min_eq_right h, take_of_length_le (by simpa using h)]

theorem drop_range' (s n k : ℕ) : (List.range' s n).drop k = List.range' (s + k) (n - k) := by
  rcases le_total k n with h | h
  · conv_lhs => rw [← Nat.add_sub_cancel' h, ← range'_append_1]
    exact drop_left' length_range'
  · rw [drop_of_length_le (by simpa using h), Nat.sub_eq_zero_of_le h, range'_zero]

/-! ## Edits -/

variable {length : ℕ}

/-- The range `start ≤ i < stop` gives way to `inserted`. -/
structure Edit (α : Type) where
  start : ℕ
  stop : ℕ
  inserted : List α
  deriving DecidableEq

/-- What an edit inserts, seen through a map. -/
def Edit.map (f : α → β) (edit : Edit α) : Edit β := ⟨edit.start, edit.stop, edit.inserted.map f⟩

theorem Edit.map_map {γ : Type} (f : α → β) (g : β → γ) (edit : Edit α) :
    (edit.map f).map g = edit.map (g ∘ f) := by
  simp [Edit.map]

/-- What the edits have written when the cursor has passed the last of them. -/
def rewritten (document : List α) : ℕ → List (Edit α) → List α
  | _, [] => []
  | cursor, edit :: edits =>
    (document.drop cursor).take (edit.start - cursor) ++ edit.inserted
      ++ rewritten document edit.stop edits

/-- Where the edits leave the cursor. -/
def cursorAfter : ℕ → List (Edit α) → ℕ
  | cursor, [] => cursor
  | _, edit :: edits => cursorAfter edit.stop edits

/-- **All edits, applied at the coordinates of the document.** -/
def replaceAll (document : List α) (edits : List (Edit α)) : List α :=
  rewritten document 0 edits ++ document.drop (cursorAfter 0 edits)

/-- The ranges follow one another from the cursor on, and end within the document. -/
def Apart (length : ℕ) : ℕ → List (Edit α) → Prop
  | cursor, [] => cursor ≤ length
  | cursor, edit :: edits => cursor ≤ edit.start ∧ edit.start ≤ edit.stop
      ∧ Apart length edit.stop edits

@[simp] theorem rewritten_nil (document : List α) (c : ℕ) : rewritten document c [] = [] := rfl
@[simp] theorem cursorAfter_nil (c : ℕ) : cursorAfter c ([] : List (Edit α)) = c := rfl

/-- **One edit more** copies up to its range and writes what replaces it. -/
theorem rewritten_concat (document : List α) (edit : Edit α) : ∀ c edits,
    rewritten document c (edits ++ [edit]) = rewritten document c edits
      ++ (document.drop (cursorAfter c edits)).take (edit.start - cursorAfter c edits)
      ++ edit.inserted
  | c, [] => by simp [rewritten]
  | c, e :: es => by simp [rewritten, cursorAfter, rewritten_concat document edit e.stop es]

@[simp] theorem cursorAfter_concat (edit : Edit α) : ∀ c edits,
    cursorAfter c (edits ++ [edit]) = edit.stop
  | _, [] => rfl
  | _, e :: es => cursorAfter_concat edit e.stop es

theorem map_rewritten (f : α → β) (document : List α) : ∀ c edits,
    (rewritten document c edits).map f = rewritten (document.map f) c (edits.map (Edit.map f))
  | c, [] => rfl
  | c, e :: es => by
    simp [rewritten, Edit.map, map_rewritten f document e.stop es, map_take, map_drop]

@[simp] theorem cursorAfter_map (f : α → β) : ∀ c edits,
    cursorAfter c (edits.map (Edit.map f)) = cursorAfter c edits
  | _, [] => rfl
  | _, e :: es => cursorAfter_map f e.stop es

/-- How much is written depends on the lengths only. -/
theorem length_rewritten_map (f : α → β) {document : List α} {document' : List β}
    (h : document'.length = document.length) : ∀ c edits,
    (rewritten document' c (edits.map (Edit.map f))).length = (rewritten document c edits).length
  | _, [] => rfl
  | c, e :: es => by
    simp [rewritten, Edit.map, h, length_rewritten_map f h e.stop es]

/-- Replacing does not look at the elements. -/
theorem map_replaceAll (f : α → β) (document : List α) (edits : List (Edit α)) :
    (replaceAll document edits).map f = replaceAll (document.map f) (edits.map (Edit.map f)) := by
  simp [replaceAll, map_rewritten, map_drop]

variable {edit : Edit α}

theorem Apart.concat (h1 : edit.start ≤ edit.stop) (h2 : edit.stop ≤ length) :
    ∀ {c} {edits}, Apart length c edits →
    cursorAfter c edits ≤ edit.start → Apart length c (edits ++ [edit])
  | _, [], _, hc => ⟨hc, h1, h2⟩
  | _, _ :: _, h, hc => ⟨h.1, h.2.1, .concat h1 h2 h.2.2 hc⟩

theorem Apart.last : ∀ {c} {edits},
    Apart length c (edits ++ [edit]) → Apart length c edits ∧ cursorAfter c edits ≤ edit.start
      ∧ edit.start ≤ edit.stop ∧ edit.stop ≤ length
  | _, [], ⟨h1, h2, h3⟩ => ⟨(h1.trans h2).trans h3, h1, h2, h3⟩
  | _, _ :: _, ⟨h1, h2, h3⟩ => ⟨⟨h1, h2, h3.last.1⟩, h3.last.2⟩

theorem Apart.cursor_le : ∀ {c : ℕ} {edits : List (Edit α)}, Apart length c edits →
    c ≤ cursorAfter c edits ∧ cursorAfter c edits ≤ length
  | _, [], h => ⟨le_refl _, h⟩
  | c, e :: es, h => by
    obtain ⟨h1, h2⟩ := h.2.2.cursor_le
    exact ⟨(h.1.trans h.2.1).trans h1, h2⟩

theorem Apart.split {rest : List (Edit α)} :
    ∀ {c : ℕ} {edits : List (Edit α)}, Apart length c (edits ++ edit :: rest) →
      cursorAfter c edits ≤ edit.start ∧ edit.start ≤ edit.stop ∧ edit.stop ≤ length
  | _, [], ⟨h1, h2, h3⟩ => ⟨h1, h2, h3.cursor_le.1.trans h3.cursor_le.2⟩
  | _, _ :: _, ⟨_, _, h⟩ => h.split

theorem Apart.start_le : ∀ {c} {edits}, Apart length c edits → edit ∈ edits → c ≤ edit.start
  | _, e :: es, h, hmem => by
    rcases mem_cons.mp hmem with rfl | hmem
    · exact h.1
    · exact (h.1.trans h.2.1).trans (h.2.2.start_le hmem)

theorem Apart.stop_le : ∀ {c : ℕ} {edits : List (Edit α)},
    Apart length c edits → edit ∈ edits → edit.stop ≤ cursorAfter c edits
  | _, e :: es, h, hmem => by
    rcases mem_cons.mp hmem with rfl | hmem
    · exact h.2.2.cursor_le.1
    · exact h.2.2.stop_le hmem

/-- How much the edits insert. -/
def insertedTotal (edits : List (Edit α)) : ℕ := (edits.map (·.inserted.length)).sum

theorem length_rewritten_le {document : List α} {n : ℕ} : ∀ {c : ℕ} {edits : List (Edit α)},
    Apart n c edits → (rewritten document c edits).length
      ≤ cursorAfter c edits - c + insertedTotal edits
  | c, [], _ => by simp
  | c, e :: es, ⟨h1, h2, h3⟩ => by
    have ih := @length_rewritten_le document n e.stop es h3
    have hcur := h3.cursor_le.1
    simp only [rewritten, cursorAfter, insertedTotal, length_append, length_take,
      map_cons, sum_cons] at ih ⊢
    omega

variable {edits : List (Edit α)}

/-- A document grows by no more than what is inserted. -/
theorem length_replaceAll_le {document : List α} (h : Apart document.length 0 edits) :
    (replaceAll document edits).length ≤ document.length + insertedTotal edits := by
  have h1 := @length_rewritten_le _ document _ _ _ h
  have h2 := h.cursor_le.2
  rw [replaceAll, length_append, length_drop]
  omega

/-! ## The last edit -/

section

variable (document : List α) (edits : List (Edit α))

/-- How much has been written when the cursor has passed the edits. -/
def written : ℕ := (rewritten document 0 edits).length

theorem replaceAll_concat (edit : Edit α) : replaceAll document (edits ++ [edit])
    = rewritten document 0 edits
      ++ (document.drop (cursorAfter 0 edits)).take (edit.start - cursorAfter 0 edits)
      ++ edit.inserted ++ document.drop edit.stop := by
  rw [replaceAll, rewritten_concat, cursorAfter_concat]

theorem written_concat (h : edit.start ≤ document.length) : written document (edits ++ [edit])
      = written document edits + (edit.start - cursorAfter 0 edits) + edit.inserted.length := by
  simp only [written, rewritten_concat, length_append, length_take, length_drop]
  omega

variable {document edits}

/-- An edit that neither removes nor inserts. -/
theorem replaceAll_idle {m : ℕ} (h : cursorAfter 0 edits ≤ m) :
    replaceAll document (edits ++ [⟨m, m, []⟩]) = replaceAll document edits := by
  have hdrop : document.drop m
      = (document.drop (cursorAfter 0 edits)).drop (m - cursorAfter 0 edits) := by
    rw [drop_drop, Nat.add_sub_cancel' h]
  rw [replaceAll_concat, append_nil, append_assoc, hdrop, take_append_drop, replaceAll]

/-- **Removing the end of what is left of a range** removes more of the range. -/
theorem replaceAll_remove {m m' stop : ℕ} (hc : cursorAfter 0 edits ≤ m') (hm : m' ≤ m)
    (hlen : m ≤ document.length) : cutOut (written document edits + (m' - cursorAfter 0 edits))
        (written document edits + (m - cursorAfter 0 edits))
        (replaceAll document (edits ++ [⟨m, stop, []⟩]))
      = replaceAll document (edits ++ [⟨m', stop, []⟩]) := by
  have hk : ((document.drop (cursorAfter 0 edits)).take (m - cursorAfter 0 edits)).length
      = m - cursorAfter 0 edits := by
    rw [length_take, length_drop]
    omega
  have hpre : cutOut (m' - cursorAfter 0 edits) (m - cursorAfter 0 edits)
      ((document.drop (cursorAfter 0 edits)).take (m - cursorAfter 0 edits))
      = (document.drop (cursorAfter 0 edits)).take (m' - cursorAfter 0 edits) := by
    rw [cutOut, drop_of_length_le hk.le, append_nil, take_take, Nat.min_eq_left (by omega)]
  rw [replaceAll_concat, replaceAll_concat, append_nil, append_nil, written,
    cutOut_append (by omega), cutOut_append (by omega)]
  simp only [length_append, hk, Nat.add_sub_cancel_left, hpre, Nat.sub_self]
  rw [cutOut, take_of_length_le (by omega), drop_of_length_le (by omega), append_nil,
    show (rewritten document 0 edits).length + (m' - cursorAfter 0 edits)
      - ((rewritten document 0 edits).length + (m - cursorAfter 0 edits)) = 0 by omega, cutOut_self]

/-- **Writing on behind the cursor** makes the last edit insert more. -/
theorem replaceAll_insert (s e : ℕ) (inserted more : List α) :
    (replaceAll document (edits ++ [⟨s, e, inserted⟩])).take
      (written document (edits ++ [⟨s, e, inserted⟩]))
        ++ more ++ (replaceAll document (edits ++ [⟨s, e, inserted⟩])).drop
          (written document (edits ++ [⟨s, e, inserted⟩]))
      = replaceAll document (edits ++ [⟨s, e, inserted ++ more⟩]) := by
  rw [replaceAll, written, take_left, drop_left, cursorAfter_concat, replaceAll_concat,
    rewritten_concat]
  simp [append_assoc]

theorem length_replaceAll_eq (document : List α) (edits : List (Edit α)) :
    (replaceAll document edits).length
      = written document edits + (document.length - cursorAfter 0 edits) := by
  rw [replaceAll, length_append, length_drop, written]

/-- Behind the cursor the document is as it was. -/
theorem getElem?_replaceAll (document : List α) {u : ℕ} (h : cursorAfter 0 edits ≤ u) :
    (replaceAll document edits)[written document edits + (u - cursorAfter 0 edits)]?
      = document[u]? := by
  rw [replaceAll, written, getElem?_append_right (by omega), Nat.add_sub_cancel_left,
    getElem?_drop, Nat.add_sub_cancel' h]

/-- …and so it is between the cursor and the range of one more edit. -/
theorem getElem?_replaceAll_concat (document : List α) {u : ℕ}
    (h : cursorAfter 0 edits ≤ u) (hlt : u < edit.start) (hlen : edit.start ≤ document.length) :
    (replaceAll document (edits ++ [edit]))[written document edits + (u - cursorAfter 0 edits)]?
      = document[u]? := by
  rw [replaceAll_concat, append_assoc, append_assoc, written,
    getElem?_append_right (by omega), Nat.add_sub_cancel_left, getElem?_append_left
      (by rw [length_take, length_drop]; omega), getElem?_take_of_lt (by omega),
    getElem?_drop, Nat.add_sub_cancel' h]

end

/-! ## Where the elements come from -/

variable {u : ℕ}

/-- The place in a document of `length` elements each element of the edited document comes from. -/
def origins (length : ℕ) (edits : List (Edit α)) : List (Option ℕ) :=
  replaceAll ((List.range' 0 length).map some) (edits.map (Edit.map fun _ => none))

/-- The document with the places of its elements. -/
def placed (document : List α) : List (Option ℕ × α) :=
  ((List.range' 0 document.length).map some).zip document

theorem mem_placed {document : List α} {x : α} (h : (some u, x) ∈ placed document) :
    document[u]? = some x := by
  obtain ⟨i, hi⟩ := mem_iff_getElem?.mp h
  rw [placed, getElem?_zip_eq_some, getElem?_map, Option.map_eq_some_iff] at hi
  obtain ⟨⟨j, hj, hju⟩, hx⟩ := hi
  obtain ⟨hlt, hget⟩ := List.getElem?_eq_some_iff.mp hj
  rw [getElem_range'] at hget
  obtain rfl : u = i := by
    have : j = u := Option.some.inj hju
    omega
  exact hx

/-- What an edited document holds comes from the document or was inserted. -/
theorem mem_rewritten {document : List α} {x : α} : ∀ {c} {edits},
    x ∈ rewritten document c edits → x ∈ document ∨ ∃ e ∈ edits, x ∈ e.inserted
  | _, [], h => by simp at h
  | c, e :: es, h => by
    rw [rewritten, mem_append, mem_append] at h
    obtain (h | h) | h := h
    · exact .inl (mem_of_mem_drop (mem_of_mem_take h))
    · exact .inr ⟨e, by simp, h⟩
    · obtain h | ⟨e', he', h⟩ := mem_rewritten h
      · exact .inl h
      · exact .inr ⟨e', by simp [he'], h⟩

/-- Both the document and its origins, edited together. -/
theorem exists_placed (document : List α) (edits : List (Edit α)) :
    ∃ T : List (Option ℕ × α), T.map Prod.fst = origins document.length edits
      ∧ T.map Prod.snd = replaceAll document edits
      ∧ ∀ u x, (some u, x) ∈ T → document[u]? = some x := by
  refine ⟨replaceAll (placed document) (edits.map (.map fun x => (none, x))), ?_, ?_, ?_⟩
  · rw [map_replaceAll, placed, map_fst_zip (by simp), origins, map_map]
    simp only [Function.comp_def, Edit.map_map]
  · rw [map_replaceAll, placed, map_snd_zip (by simp), map_map]
    simp [Function.comp_def, Edit.map]
  · intro u x h
    refine mem_placed ?_
    rw [replaceAll, mem_append] at h
    obtain h | h := h
    · obtain h | ⟨e, he, h⟩ := mem_rewritten h
      · exact h
      · obtain ⟨e, -, rfl⟩ := mem_map.mp he
        simp [Edit.map] at h
    · exact mem_of_mem_drop h

/-- **An element with an origin is the element that was there.** -/
theorem getElem?_replaceAll_of_origin {document : List α} {i : ℕ}
    (h : (origins document.length edits)[i]? = some (some u)) :
    (replaceAll document edits)[i]? = document[u]? := by
  obtain ⟨T, hfst, hsnd, hmem⟩ := exists_placed document edits
  rw [← hfst, getElem?_map, Option.map_eq_some_iff] at h
  obtain ⟨⟨tag, x⟩, hT, rfl⟩ := h
  rw [← hsnd, getElem?_map, hT, hmem u x (mem_of_getElem? hT)]
  rfl

theorem length_origins (document : List α) (edits : List (Edit α)) :
    (origins document.length edits).length = (replaceAll document edits).length := by
  obtain ⟨T, hfst, hsnd, -⟩ := exists_placed document edits
  rw [← hfst, ← hsnd, length_map, length_map]

theorem written_origins (document : List α) (edits : List (Edit α)) :
    written ((List.range' 0 document.length).map some) (edits.map (Edit.map fun _ => none))
      = written document edits := length_rewritten_map _ (by simp) 0 edits

/-- The origins in front of the cursor, and behind it. -/
theorem origins_eq (document : List α) : ∃ front : List (Option ℕ),
    front.length = written document edits ∧ origins document.length edits = front
        ++ (List.range' (cursorAfter 0 edits) (document.length - cursorAfter 0 edits)).map
            some := by
  refine ⟨rewritten ((List.range' 0 document.length).map some) 0
    (edits.map (.map fun _ => none)), ?_, ?_⟩
  · exact written_origins document edits
  · rw [origins, replaceAll, cursorAfter_map, ← map_drop, drop_range', Nat.zero_add]

section

variable {document : List α} {edits : List (Edit α)}

theorem origins_idle {m : ℕ} (h : cursorAfter 0 edits ≤ m) :
    origins document.length (edits ++ [⟨m, m, []⟩]) = origins document.length edits := by
  rw [origins, map_append]
  exact replaceAll_idle (by rwa [cursorAfter_map])

theorem origins_remove {m m' stop : ℕ} (hc : cursorAfter 0 edits ≤ m') (hm : m' ≤ m)
    (hlen : m ≤ document.length) : cutOut (written document edits + (m' - cursorAfter 0 edits))
        (written document edits + (m - cursorAfter 0 edits))
        (origins document.length (edits ++ [⟨m, stop, []⟩]))
      = origins document.length (edits ++ [⟨m', stop, []⟩]) := by
  have h := @replaceAll_remove _ ((List.range' 0 document.length).map some)
    (edits.map (.map fun _ => none)) m m' stop (by rwa [cursorAfter_map]) hm (by simpa using hlen)
  rw [written_origins, cursorAfter_map] at h
  simpa [origins, Edit.map] using h

theorem origins_insert (s e : ℕ) (inserted more : List α) :
    (origins document.length (edits ++ [⟨s, e, inserted⟩])).take
          (written document (edits ++ [⟨s, e, inserted⟩])) ++ List.replicate more.length none
        ++ (origins document.length (edits ++ [⟨s, e, inserted⟩])).drop
          (written document (edits ++ [⟨s, e, inserted⟩]))
      = origins document.length (edits ++ [⟨s, e, inserted ++ more⟩]) := by
  have h := @replaceAll_insert _ ((List.range' 0 document.length).map some)
    (edits.map (.map fun _ => none)) s e (inserted.map fun _ => none) (more.map fun _ => none)
  have hedits : ∀ l : List α, edits.map (.map fun _ => (none : Option ℕ))
      ++ [⟨s, e, l.map fun _ => none⟩]
      = (edits ++ [(⟨s, e, l⟩ : Edit α)]).map (Edit.map fun _ => none) := by
    simp [Edit.map]
  rw [← map_append, hedits, hedits, written_origins, map_const'] at h
  exact h

end

/-- Every element the edits leave alone is still there, and no other. -/
theorem mem_rewritten_range : ∀ {c : ℕ} {edits : List (Edit α)}, Apart length c edits →
    (some u ∈ rewritten ((List.range' 0 length).map some) c (edits.map (Edit.map fun _ => none))
      ↔ c ≤ u ∧ u < cursorAfter c edits ∧ ∀ e ∈ edits, ¬ (e.start ≤ u ∧ u < e.stop))
  | c, [], _ => by
    simp only [map_nil, rewritten_nil, not_mem_nil, cursorAfter_nil, false_iff]
    omega
  | c, e :: es, ⟨h1, h2, h3⟩ => by
    obtain ⟨hstop, hlen⟩ := h3.cursor_le
    have hkept : some u ∈ (((List.range' 0 length).map some).drop c).take (e.start - c)
        ↔ c ≤ u ∧ u < e.start := by
      rw [← map_drop, ← map_take, drop_range', take_range', mem_map]
      simp only [mem_range'_1, Option.some.injEq, exists_eq_right]
      omega
    have hfresh : some u ∉ e.inserted.map fun _ => (none : Option ℕ) := by simp
    rw [map_cons, rewritten, mem_append, mem_append, cursorAfter, forall_mem_cons]
    simp only [Edit.map, hkept, hfresh, or_false, mem_rewritten_range h3]
    refine ⟨?_, ?_⟩
    · rintro (h | ⟨h4, h5, h6⟩)
      · refine ⟨h.1, by omega, by omega, fun e' he' hin => ?_⟩
        have := h3.start_le he'
        omega
      · exact ⟨by omega, h5, by omega, h6⟩
    · rintro ⟨h4, h5, h6, h7⟩
      rcases lt_or_ge u e.start with h | h
      · exact .inl ⟨h4, h⟩
      · exact .inr ⟨by omega, h5, h7⟩

/-- **The elements that are still there are those in no range of an edit.** -/
theorem mem_origins (h : Apart length 0 edits) :
    some u ∈ origins length edits ↔ u < length ∧ ∀ e ∈ edits, ¬ (e.start ≤ u ∧ u < e.stop) := by
  have hcur := h.cursor_le.2
  rw [origins, replaceAll, mem_append, mem_rewritten_range h, cursorAfter_map, ← map_drop,
    drop_range', mem_map]
  simp only [mem_range'_1, Option.some.injEq, exists_eq_right]
  refine ⟨?_, ?_⟩
  · rintro (⟨-, h1, h2⟩ | h1)
    · exact ⟨by omega, h2⟩
    · exact ⟨by omega, fun e he hin => by have := h.stop_le he; omega⟩
  · rintro ⟨h1, h2⟩
    rcases lt_or_ge u (cursorAfter 0 edits) with h3 | h3
    · exact .inl ⟨Nat.zero_le _, h3, h2⟩
    · exact .inr (by omega)

end Beryl.Replace
