import Beryl.Machinery.Fallible
import Beryl.Machinery.Keyspace

/-!
# Machinery/Paging — walking ordered records page by page

A reader hands out, behind a key, a bounded page of the records that follow it, and says whether
more follow.  A walk reads a page, visits its rows, and goes on behind the last of them, until a
visit stops it or no more follow.  **A walk over a reader that serves its records is one visit of
what remains behind the key** (`walkPages_eq`), however the pages are cut.
-/

namespace Beryl.Paging

open Fallible Keyspace Std List

/-! ## Visits -/

section

variable {ε α σ : Type} (visit : σ → α → Except ε (σ × Bool))

/-- Visits rows one after another, until a visit stops or fails. -/
def visitRows : σ → List α → Except ε (σ × Bool)
  | state, [] => .ok (state, true)
  | state, row :: rows => do
    let (state, proceed) ← visit state row
    if proceed then visitRows state rows else .ok (state, false)

variable {visit} {rows : List α} {state next : σ} {row : α}

theorem visitRows_cons (h : visit state row = .ok (next, true)) :
    visitRows visit state (row :: rows) = visitRows visit next rows := by
  rw [visitRows, h, ok_bind]
  exact if_pos rfl

theorem visitRows_stop (h : visit state row = .ok (next, false)) :
    visitRows visit state (row :: rows) = .ok (next, false) := by
  rw [visitRows, h, ok_bind]
  exact if_neg Bool.false_ne_true

/-- A visit of rows that a first stretch does not stop goes on behind it. -/
theorem visitRows_append (state : σ) (front rest : List α) :
    visitRows visit state (front ++ rest) = visitRows visit state front >>= fun visited =>
      if visited.2 then visitRows visit visited.1 rest else .ok (visited.1, false) := by
  induction front generalizing state with
  | nil => rfl
  | cons row front ih =>
    rw [cons_append, visitRows, visitRows]
    cases hvisit : visit state row with
    | error e => rfl
    | ok visited =>
      obtain ⟨next, proceed⟩ := visited
      cases proceed with
      | false => rfl
      | true => exact ih next

theorem visitRows_congr {visit' : σ → α → Except ε (σ × Bool)} (state : σ)
    (h : ∀ row ∈ rows, ∀ state, visit state row = visit' state row) :
    visitRows visit state rows = visitRows visit' state rows := by
  induction rows generalizing state with
  | nil => rfl
  | cons row rows ih =>
    rw [visitRows, visitRows, h row mem_cons_self]
    refine congrArg _ (funext fun ⟨next, _⟩ => ?_)
    simp only [ih next fun row' hrow' => h row' (.tail _ hrow')]

theorem visitRows_pass (h : ∀ row ∈ rows, visit state row = .ok (state, true)) :
    visitRows visit state rows = .ok (state, true) := by
  induction rows with
  | nil => rfl
  | cons row rows ih =>
    rw [visitRows_cons (h row mem_cons_self)]
    exact ih fun row' hrow' => h row' (.tail _ hrow')

/-- Rows that a visit passes by do not matter. -/
theorem visitRows_filter {p : α → Bool} (state : σ) (rows : List α)
    (h : ∀ state row, p row = false → visit state row = .ok (state, true)) :
    visitRows visit state rows = visitRows visit state (rows.filter p) := by
  induction rows generalizing state with
  | nil => rfl
  | cons row rows ih =>
    cases hrow : p row with
    | false =>
      rw [visitRows_cons (h state row hrow), ih, filter_cons_of_neg (by simp [hrow])]
    | true =>
      rw [filter_cons_of_pos hrow, visitRows, visitRows]
      exact congrArg _ (funext fun ⟨next, _⟩ => by simp only [ih next])

end

/-! ## Walks -/

/-- A bounded stretch of rows, and whether more follow. -/
structure Page (α : Type) where
  rows : List α
  hasMore : Bool

/-- What goes wrong with a walk whose reader does not get on. -/
structure WalkErrors (ε : Type) where
  stalled : ε
  repeated : ε
  /-- The walk does not end; a reader that serves its records never lets it come to this. -/
  unending : ε

section

variable {ε α σ K : Type} [DecidableEq K] (errors : WalkErrors ε)
  (read : Option K → Except ε (Page α)) (key : α → K) (visit : σ → α → Except ε (σ × Bool))

/-- Visits the rows behind a key, page by page, in at most a number of pages. -/
def walkPages : ℕ → Option K → σ → Except ε σ
  | 0, _, _ => .error errors.unending
  | pages + 1, after, state => do
    let page ← read after
    let (state, proceed) ← visitRows visit state page.rows
    if proceed = false ∨ page.hasMore = false then .ok state
    else do
      let next ← required errors.stalled (page.rows.getLast?.map key)
      ensure (after ≠ some next) errors.repeated
      walkPages pages (some next) state

/-- **A reader serves its records**: what it hands out behind a key is a front part of what remains,
and behind the last row of a page the rest remains. -/
structure Serves (remaining : Option K → List α) : Prop where
  page : ∀ after, ∃ page rest, read after = .ok page ∧ remaining after = page.rows ++ rest
    ∧ (page.hasMore = true ↔ rest ≠ []) ∧ (rest ≠ [] → page.rows ≠ [])
  behind : ∀ after front last rest, remaining after = front ++ last :: rest →
    remaining (some (key last)) = rest

variable {errors read key visit}

/-- **A walk visits what remains behind its key.** -/
theorem walkPages_eq {remaining : Option K → List α} (h : Serves read key remaining) (pages : ℕ)
    (after : Option K) (state : σ) (henough : (remaining after).length < pages) :
    walkPages errors read key visit pages after state
      = (visitRows visit state (remaining after)).map Prod.fst := by
  induction pages generalizing after state with
  | zero => exact absurd henough (Nat.not_lt_zero _)
  | succ pages ih =>
    obtain ⟨page, rest, hread, hrem, hmore, hnonempty⟩ := h.page after
    rw [walkPages, hread, ok_bind, hrem, visitRows_append]
    cases hvisit : visitRows visit state page.rows with
    | error e => rfl
    | ok visited =>
      obtain ⟨next, proceed⟩ := visited
      rw [ok_bind, ok_bind]
      cases proceed with
      | false => rfl
      | true =>
        by_cases hrest : rest = []
        · subst hrest
          have hlast : page.hasMore = false := by
            rw [Bool.eq_false_iff]
            exact fun hm => hmore.mp hm rfl
          exact if_pos (.inr hlast)
        · obtain ⟨front, last, hrows⟩ :=
            (eq_nil_or_concat' page.rows).resolve_left (hnonempty hrest)
          rw [hrows, append_assoc, singleton_append] at hrem
          have hbehind := h.behind _ _ _ _ hrem
          -- The key of the last row cannot be the one before it: less remains behind it.
          have hmoves : after ≠ some (key last) := by
            rintro rfl
            have hlen := congrArg List.length (hbehind.symm.trans hrem)
            simp only [length_append, length_cons] at hlen
            omega
          have hfew : (remaining (some (key last))).length < pages := by
            have hlen := congrArg List.length hrem
            simp only [length_append, length_cons] at hlen
            rw [hbehind]
            omega
          have hgoes : ¬ (true = false ∨ page.hasMore = false) := by simp [hmore.mpr hrest]
          refine (if_neg hgoes).trans ?_
          rw [hrows, getLast?_concat, Option.map_some, required_bind,
            ensure_bind hmoves, ih _ _ hfew, hbehind]
          rfl

end

/-! ## Records behind a key -/

/-- Of records in order, those behind one are the ones that follow it. -/
theorem filter_behind {α : Type} {r : α → α → Bool} {front rest all : List α} {last : α}
    (hone : ∀ a b, r a b = true → r b a = true → False)
    (hsort : all.Pairwise fun a b => r a b = true)
    (h : all = front ++ last :: rest) : all.filter (r last) = rest := by
  subst h
  obtain ⟨-, hlater, hearlier⟩ := pairwise_append.mp hsort
  have hself : ¬ r last last = true := fun h => hone _ _ h h
  rw [filter_append, filter_cons_of_neg hself, filter_eq_nil_iff.mpr,
    filter_eq_self.mpr (pairwise_cons.mp hlater).1, nil_append]
  exact fun record hrec hlt => hone _ _ hlt (hearlier record hrec last mem_cons_self)

section

variable {K V : Type} [Ord K]

/-- What a scan sees behind a key. -/
def behind (space : Keyspace K V) : Option K → List (K × V)
  | none => space.toList
  | some key => space.toList.filter fun record => compare key record.1 = .lt

variable [TransOrd K] {space : Keyspace K V}

theorem behind_sorted (after : Option K) :
    (behind space after).Pairwise fun a b => compare a.1 b.1 = .lt := by
  cases after with
  | none => exact TreeMap.ordered_keys_toList
  | some key => exact TreeMap.ordered_keys_toList.filter _

omit [TransOrd K] in
theorem mem_behind {key : K} {record : K × V} :
    record ∈ behind space (some key) ↔ record ∈ space.toList ∧ compare key record.1 = .lt := by
  rw [behind, mem_filter, decide_eq_true_eq]

/-- **Behind a record of a scan the rest of the scan remains.** -/
theorem behind_last {after : Option K} {front rest : List (K × V)} {last : K × V}
    (h : behind space after = front ++ last :: rest) : behind space (some last.1) = rest := by
  have hone : ∀ a b : K × V, decide (compare a.1 b.1 = .lt) = true →
      decide (compare b.1 a.1 = .lt) = true → False := fun a b hab hba => by
    rw [decide_eq_true_eq] at hab hba
    rw [OrientedCmp.gt_of_lt hab] at hba
    cases hba
  refine .trans ?_ (filter_behind hone (behind_sorted after |>.imp decide_eq_true) h)
  cases after with
  | none => rfl
  | some key =>
    have hkey : compare key last.1 = .lt := (mem_behind.mp (h ▸ mem_append_right _ mem_cons_self)).2
    rw [behind, behind, filter_filter]
    refine filter_congr fun record _ => ?_
    by_cases hrec : compare last.1 record.1 = .lt
    · simp [hrec, TransCmp.lt_trans hkey hrec]
    · simp [hrec]

/-- A reader serves the values of a keyspace if its pages are front parts of what is behind a key,
and the key of a value is the one it is stored under. -/
theorem serves_values {ε : Type} {read : Option K → Except ε (Page V)} {key : V → K}
    (hkey : ∀ record ∈ space.toList, key record.2 = record.1)
    (hpage : ∀ after, ∃ page rest, read after = .ok page
      ∧ (behind space after).map Prod.snd = page.rows ++ rest
      ∧ (page.hasMore = true ↔ rest ≠ []) ∧ (rest ≠ [] → page.rows ≠ [])) :
    Serves read key fun after => (behind space after).map Prod.snd := by
  refine ⟨hpage, fun after front last rest hsplit => ?_⟩
  obtain ⟨front', tail, hbehind, -, htail⟩ := map_eq_append_iff.mp hsplit
  obtain ⟨record, rest', rfl, rfl, rfl⟩ := map_eq_cons_iff.mp htail
  have hmem : record ∈ space.toList := by
    have hin : record ∈ behind space after := hbehind ▸ mem_append_right _ mem_cons_self
    cases after with
    | none => exact hin
    | some key => exact (mem_behind.mp hin).1
  rw [hkey record hmem, behind_last hbehind]

end

end Beryl.Paging
