import Mathlib.Algebra.Order.Ring.Nat
import Mathlib.Data.List.Nodup

/-!
# Machinery/Batch — writes to a table of optional values

A table maps keys to optional values, and a batch is a list of writes, each of which sets or clears
one key.  `commit` performs them in order.  A key that no write names keeps its value, and in a
batch that names every key at most once the order does not matter.
-/

namespace Beryl.Batch

open List

variable {K V : Type} [DecidableEq K] {batch : List (K × Option V)} {key : K}

/-- The writes of a batch, one after another. -/
def commit (table : K → Option V) (batch : List (K × Option V)) : K → Option V :=
  batch.foldl (fun table write => Function.update table write.1 write.2) table

/-- **A key that no write names keeps its value.** -/
theorem commit_of_not_mem :
    ∀ {table}, key ∉ batch.map Prod.fst → commit table batch key = table key := by
  induction batch with
  | nil => exact fun _ => rfl
  | cons write batch ih =>
    intro table hkey
    rw [map_cons, mem_cons, not_or] at hkey
    exact (ih hkey.2).trans (Function.update_of_ne hkey.1 ..)

/-- **In a batch that names each key once, a named key ends with its value.** -/
theorem commit_of_mem {value : Option V} :
    ∀ {table}, (batch.map Prod.fst).Nodup → (key, value) ∈ batch →
      commit table batch key = value := by
  induction batch with
  | nil => exact fun _ h => absurd h not_mem_nil
  | cons write batch ih =>
    intro table hnodup hmem
    rw [map_cons, nodup_cons] at hnodup
    obtain rfl | hmem := mem_cons.mp hmem
    · exact (commit_of_not_mem hnodup.1).trans (Function.update_self ..)
    · exact ih hnodup.2 hmem

end Beryl.Batch
