import Mathlib.Algebra.Order.Ring.Nat

/-!
# Machinery/Search — first and last matches of a list, as splits

`position` and `rposition` are the iterator searches: the index and the value of the first, or the
last, element that passes a test, counted from a given index.  Both are characterised by the split
of the list they find, the form in which every proof consumes them.
-/

namespace Beryl.Search

open List

variable {α : Type*}

/-- The first element that passes `p`, with its index counted from `i`. -/
def position (p : α → Bool) : List α → ℕ → Option (ℕ × α)
  | [], _ => none
  | x :: xs, i => if p x then some (i, x) else position p xs (i + 1)

/-- The last element that passes `p`, with its index counted from `i`. -/
def rposition (p : α → Bool) : List α → ℕ → Option (ℕ × α)
  | [], _ => none
  | x :: xs, i => (rposition p xs (i + 1)).or (if p x then some (i, x) else none)

variable {p : α → Bool}

theorem position_eq_none : ∀ {xs} {i}, position p xs i = none ↔ ∀ x ∈ xs, p x = false
  | [], _ => by simp [position]
  | x :: xs, i => by
    by_cases hx : p x <;> simp [position, hx, position_eq_none]

theorem position_eq_some : ∀ {xs} {i j} {x}, position p xs i = some (j, x) →
      ∃ l r, xs = l ++ x :: r ∧ j = i + l.length ∧ p x = true ∧ ∀ y ∈ l, p y = false
  | [], _, _, _, h => by simp [position] at h
  | y :: xs, i, j, x, h => by
    by_cases hy : p y
    · simp only [position, hy, if_true, Option.some.injEq, Prod.mk.injEq] at h
      obtain ⟨rfl, rfl⟩ := h
      exact ⟨[], xs, by simp [hy]⟩
    · simp only [position, hy, Bool.false_eq_true, if_false] at h
      obtain ⟨l, r, rfl, rfl, hx, hl⟩ := position_eq_some h
      exact ⟨y :: l, r, rfl, by simp only [length_cons]; omega, hx, by simpa [hy] using hl⟩

variable {xs : List α}

/-- A match exists as soon as one element passes the test. -/
theorem exists_position_eq_some (h : ∃ x ∈ xs, p x = true) (i : ℕ) :
    ∃ j x, position p xs i = some (j, x) := by
  obtain ⟨x, hx, hpx⟩ := h
  cases hpos : position p xs i with
  | none => exact absurd hpx (by simp [position_eq_none.mp hpos x hx])
  | some y => exact ⟨y.1, y.2, rfl⟩

theorem rposition_eq_none : ∀ {xs} {i}, rposition p xs i = none ↔ ∀ x ∈ xs, p x = false
  | [], _ => by simp [rposition]
  | x :: xs, i => by
    by_cases hx : p x <;> simp [rposition, hx, rposition_eq_none]

theorem rposition_eq_some : ∀ {xs} {i j} {x}, rposition p xs i = some (j, x) →
      ∃ l r, xs = l ++ x :: r ∧ j = i + l.length ∧ p x = true ∧ ∀ y ∈ r, p y = false
  | [], _, _, _, h => by simp [rposition] at h
  | y :: xs, i, j, x, h => by
    rw [rposition, Option.or_eq_some_iff] at h
    rcases h with h | ⟨hnone, h⟩
    · obtain ⟨l, r, rfl, rfl, hx, hr⟩ := rposition_eq_some h
      exact ⟨y :: l, r, rfl, by simp only [length_cons]; omega, hx, hr⟩
    · by_cases hy : p y
      · simp only [hy, if_true, Option.some.injEq, Prod.mk.injEq] at h
        obtain ⟨rfl, rfl⟩ := h
        exact ⟨[], xs, by simpa [hy] using rposition_eq_none.mp hnone⟩
      · simp [hy] at h

theorem exists_rposition_eq_some (h : ∃ x ∈ xs, p x = true) (i : ℕ) :
    ∃ j x, rposition p xs i = some (j, x) := by
  obtain ⟨x, hx, hpx⟩ := h
  cases hpos : rposition p xs i with
  | none => exact absurd hpx (by simp [rposition_eq_none.mp hpos x hx])
  | some y => exact ⟨y.1, y.2, rfl⟩

/-! ## First and last elements with a property -/

/-- `x` is the first of `xs` with the property, between `l` and `r`. -/
structure IsFirst (p : α → Prop) (xs l : List α) (x : α) (r : List α) : Prop where
  split : xs = l ++ x :: r
  holds : p x
  free : ∀ y ∈ l, ¬ p y

/-- `x` is the last of `xs` with the property, between `l` and `r`. -/
structure IsLast (p : α → Prop) (xs l : List α) (x : α) (r : List α) : Prop where
  split : xs = l ++ x :: r
  holds : p x
  free : ∀ y ∈ r, ¬ p y

section

variable {p : α → Prop} {xs l r : List α} {x : α} {u v : List α}

theorem not_mem_append (hu : ∀ y ∈ u, ¬ p y) (hv : ∀ y ∈ v, ¬ p y) :
    ∀ y ∈ u ++ v, ¬ p y := fun y hy => (mem_append.mp hy).elim (hu y) (hv y)

theorem IsFirst.mem (h : IsFirst p xs l x r) : x ∈ xs := by simp [h.split]

theorem IsLast.mem (h : IsLast p xs l x r) : x ∈ xs := by simp [h.split]

/-- The first element of a stretch, with more of the list on both sides. -/
theorem IsFirst.within (h : IsFirst p xs l x r) (hu : ∀ y ∈ u, ¬ p y) (v : List α) :
    IsFirst p (u ++ xs ++ v) (u ++ l) x (r ++ v) :=
  ⟨by simp [h.split], h.holds, not_mem_append hu h.free⟩

theorem IsLast.within (h : IsLast p xs l x r) (u : List α) (hv : ∀ y ∈ v, ¬ p y) :
    IsLast p (u ++ xs ++ v) (u ++ l) x (r ++ v) :=
  ⟨by simp [h.split], h.holds, not_mem_append h.free hv⟩

end

/-- The first element with a property that may look at what stands before it. -/
theorem first_split (Q : List α → α → Prop) : ∀ xs,
    (∃ l x r, xs = l ++ x :: r ∧ Q l x ∧ ∀ l₁ y l₂, l = l₁ ++ y :: l₂ → ¬ Q l₁ y)
      ∨ ∀ l x r, xs = l ++ x :: r → ¬ Q l x
  | [] => .inr fun l x r h => by simp at h
  | x :: xs => by
    by_cases hx : Q [] x
    · exact .inl ⟨[], x, xs, rfl, hx, fun l₁ y l₂ h => by simp at h⟩
    rcases first_split (fun l y => Q (x :: l) y) xs with ⟨l, y, r, rfl, hy, hl⟩ | hno
    · refine .inl ⟨x :: l, y, r, rfl, hy, fun l₁ z l₂ h => ?_⟩
      cases l₁ with
      | nil =>
        simp only [nil_append, List.cons.injEq] at h
        exact h.1 ▸ hx
      | cons w l₁ =>
        simp only [cons_append, List.cons.injEq] at h
        exact h.1 ▸ hl l₁ z l₂ h.2
    · refine .inr fun l y r h => ?_
      cases l with
      | nil =>
        simp only [nil_append, List.cons.injEq] at h
        exact h.1 ▸ hx
      | cons w l =>
        simp only [cons_append, List.cons.injEq] at h
        exact h.1 ▸ hno l y r h.2

/-- Two cuts of one list at an element: the same, or one behind the other. -/
theorem split_cases {l r l' r' : List α} {x x' : α} (h : l ++ x :: r = l' ++ x' :: r') :
    (l = l' ∧ x = x' ∧ r = r') ∨ (∃ mid, l' = l ++ x :: mid ∧ r = mid ++ x' :: r')
      ∨ ∃ mid, l = l' ++ x' :: mid ∧ r' = mid ++ x :: r := by
  rcases append_eq_append_iff.mp h with ⟨mid, hl, hr⟩ | ⟨mid, hl, hr⟩
  · cases mid with
    | nil =>
      simp only [append_nil, nil_append, List.cons.injEq] at hl hr
      exact .inl ⟨hl.symm, hr⟩
    | cons y mid =>
      simp only [cons_append, List.cons.injEq] at hr
      exact .inr (.inl ⟨mid, by rw [hl, hr.1], hr.2⟩)
  · cases mid with
    | nil =>
      simp only [append_nil, nil_append, List.cons.injEq] at hl hr
      exact .inl ⟨hl, hr.1.symm, hr.2.symm⟩
    | cons y mid =>
      simp only [cons_append, List.cons.injEq] at hr
      exact .inr (.inr ⟨mid, by rw [hl, hr.1], hr.2⟩)

/-- Of two cuts of one list, the later one cuts what the earlier one leaves. -/
theorem append_split {a b c d : List α} (h : a ++ b = c ++ d) (hle : a.length ≤ c.length) :
    ∃ mid, c = a ++ mid ∧ b = mid ++ d := by
  rcases append_eq_append_iff.mp h with ⟨mid, hc, hb⟩ | ⟨mid, ha, hd⟩
  · exact ⟨mid, hc, hb⟩
  · obtain rfl : mid = [] := length_eq_zero_iff.mp (by
      have := congrArg List.length ha
      rw [length_append] at this
      omega)
    exact ⟨[], by simpa using ha.symm, by simpa using hd.symm⟩

end Beryl.Search
