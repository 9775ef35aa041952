import Mathlib.Algebra.Order.Ring.Nat

/-!
# Machinery/Accounts — holders that may give up, but never pretend

A holder keeps a list for a party.  It may give the list up, and then says so: what is *held* is
`some` list, or `none`.  What is *due* is the list that a perfect holder would have, and is itself
`none` where no list would be right.

* `Grows before after more` — the holder added `more` behind what it had, or gave up.
* `Honest held due` — **what is held is what is due**; a holder that gave up is honest.

A holder that only grows by what becomes due stays honest (`Honest.grows`).
-/

namespace Beryl.Accounts

variable {α : Type}

/-- The holder added `more` behind what it had, or gave up.  Where nothing right can be added, it
gave up. -/
def Grows (before after more : Option (List α)) : Prop :=
  ∀ l ∈ after, ∃ had ∈ before, ∃ added ∈ more, l = had ++ added

/-- What is held is what is due. -/
def Honest (held due : Option (List α)) : Prop := ∀ l ∈ held, due = some l

/-- Two lists one behind the other, if there are two. -/
def join (first second : Option (List α)) : Option (List α) :=
  first.bind fun l => second.map (l ++ ·)

@[simp] theorem join_some (l l' : List α) : join (some l) (some l') = some (l ++ l') := rfl

@[simp] theorem join_nil (held : Option (List α)) : join held (some []) = held := by
  cases held <;> simp [join]

variable {before after due more more' middle : Option (List α)}

theorem Grows.of_eq_none (h : after = none) : Grows before after more := by
  rw [h]
  rintro l ⟨⟩

theorem Grows.refl : Grows before before (some []) :=
  fun l hl => ⟨l, hl, [], rfl, (l.append_nil).symm⟩

theorem Grows.of_eq (h : after = before) : Grows before after (some []) := h ▸ Grows.refl

theorem Grows.trans (h : Grows before middle more)
    (h' : Grows middle after more') : Grows before after (join more more') := by
  intro l hl
  obtain ⟨had', hhad', added', hadded', rfl⟩ := h' l hl
  obtain ⟨had, hhad, added, hadded, rfl⟩ := h had' hhad'
  refine ⟨had, hhad, added ++ added', ?_, List.append_assoc _ _ _⟩
  rw [Option.mem_def.mp hadded, Option.mem_def.mp hadded', join_some, Option.mem_def]

theorem Grows.trans_refl (h : Grows before middle more)
    (h' : Grows middle after (some [])) : Grows before after more := by
  have := h.trans h'
  rwa [join_nil] at this

/-- A holder that gave up does not come back. -/
theorem Grows.eq_none (h : Grows before after more) (hbefore : before = none) : after = none := by
  refine Option.eq_none_iff_forall_not_mem.mpr fun l hl => ?_
  obtain ⟨had, hhad, -⟩ := h l hl
  rw [hbefore] at hhad
  cases hhad

/-- **A holder that grows by what becomes due stays honest.** -/
theorem Honest.grows (h : Honest before due) (hgrows : Grows before after more) :
    Honest after (join due more) := by
  intro l hl
  obtain ⟨had, hhad, added, hadded, rfl⟩ := hgrows l hl
  rw [h had hhad, Option.mem_def.mp hadded, join_some]

theorem Honest.kept (h : Honest before due) (hgrows : Grows before after (some [])) :
    Honest after due := by
  have := h.grows hgrows
  rwa [join_nil] at this

end Beryl.Accounts
