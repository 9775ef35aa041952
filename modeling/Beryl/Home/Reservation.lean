import Beryl.Machinery.Fallible
import Mathlib.Data.List.Count

/-!
# Home/Reservation — the records a command may contribute

A command declares, family by family, how many records it may contribute, before it is prepared.
The writer counts the contributed records against the declaration and refuses the command at the
first record that has no quota left.
-/

namespace Beryl.Home

open Fallible List

variable {F : Type} [DecidableEq F]

/-- The most records of a family that a command may contribute. -/
structure ReservedRecordQuota (F : Type) where
  family : F
  count : ℕ
deriving DecidableEq

/-- The refusal of a command that contributes more than it declared. -/
structure ReconciliationReservationMismatch (F : Type) where
  family : F
  reserved : ℕ
  actual : ℕ
deriving DecidableEq

/-- The quota of a family, if one is declared. -/
def quotaOf (quotas : List (ReservedRecordQuota F)) (family : F) : Option ℕ :=
  (quotas.find? fun quota => quota.family = family).map (·.count)

/-- Counts one more record of a family against its quota, beside the records `actual` counted
before. -/
def countRecord (quotas : List (ReservedRecordQuota F)) (actual : F → ℕ) (family : F) :
    Except (ReconciliationReservationMismatch F) (F → ℕ) :=
  match quotaOf quotas family with
  | none => .error ⟨family, 0, 1⟩
  | some count =>
    if count < actual family + 1 then .error ⟨family, count, actual family + 1⟩
    else .ok (Function.update actual family (actual family + 1))

/-- The records of a command counted against its quotas. -/
def checkQuotas (quotas : List (ReservedRecordQuota F)) (actual : F → ℕ) :
    List F → Except (ReconciliationReservationMismatch F) Unit
  | [] => .ok ()
  | family :: pending => do checkQuotas quotas (← countRecord quotas actual family) pending

/-- **A command is accepted exactly when no family holds more records than declared.** -/
theorem checkQuotas_eq_ok {quotas : List (ReservedRecordQuota F)} {actual : F → ℕ}
    {pending : List F} : checkQuotas quotas actual pending = .ok () ↔
      ∀ family ∈ pending, ∃ count ∈ quotaOf quotas family,
        actual family + pending.count family ≤ count := by
  induction pending generalizing actual with
  | nil => simp [checkQuotas]
  | cons first pending ih =>
    have hcount : ∀ family, Function.update actual first (actual first + 1) family
        + pending.count family = actual family + (first :: pending).count family := by
      intro family
      rcases eq_or_ne family first with rfl | hne
      · simp only [Function.update_self, count_cons_self]
        omega
      · rw [Function.update_of_ne hne, count_cons_of_ne (Ne.symm hne)]
    rw [checkQuotas, countRecord]
    rcases hquota : quotaOf quotas first with - | count
    · refine iff_of_false (by simp) fun hall => ?_
      obtain ⟨count, hcount, -⟩ := hall first mem_cons_self
      rw [hquota] at hcount
      cases hcount
    · dsimp only
      split
      · next hover =>
        refine iff_of_false (by simp) fun hall => ?_
        obtain ⟨count', hcount', hle⟩ := hall first mem_cons_self
        obtain rfl : count = count' := by simpa [hquota] using hcount'
        rw [count_cons_self] at hle
        omega
      · next hroom =>
        rw [ok_bind, ih]
        simp only [hcount]
        refine ⟨fun hall family hmem => ?_, fun hall family hmem => hall family (.tail _ hmem)⟩
        rcases eq_or_ne family first with rfl | hne
        · by_cases hagain : family ∈ pending
          · exact hall family hagain
          · refine ⟨count, hquota, ?_⟩
            rw [count_cons_self, count_eq_zero_of_not_mem hagain]
            omega
        · exact hall family ((mem_cons.mp hmem).resolve_left hne)

end Beryl.Home
