import Mathlib.Algebra.Order.Ring.Nat

/-!
# Machinery/Keyspace — records under ordered keys

A keyspace is the standard library's ordered map.  A scan of it sees every record once, in the order
of the keys, and so **at its place a scan has seen the records before and is to see those after**
(`mem_scan_cut`).
-/

namespace Beryl.Keyspace

open Std List

/-- Records under ordered keys. -/
abbrev Keyspace (K V : Type) [Ord K] := TreeMap K V compare

section

variable {K V : Type} [Ord K] [TransOrd K] [LawfulEqOrd K] {space : Keyspace K V} {k k' : K} {v : V}

theorem mem_scan : (k, v) ∈ space.toList ↔ space[k]? = some v :=
  TreeMap.mem_toList_iff_getElem?_eq_some

theorem get_put [DecidableEq K] :
    (space.insert k v)[k']? = if k = k' then some v else space[k']? := by
  rw [TreeMap.getElem?_insert]
  simp only [Std.compare_eq_iff_eq]

theorem get_delete [DecidableEq K] :
    (space.erase k)[k']? = if k = k' then none else space[k']? := by
  rw [TreeMap.getElem?_erase]
  simp only [Std.compare_eq_iff_eq]

omit [LawfulEqOrd K] in
theorem get_nothing : (∅ : Keyspace K V)[k]? = none := TreeMap.getElem?_emptyc

/-- A new record leaves the others. -/
theorem get_put_of_none [DecidableEq K] {v' : V} (hnone : space[k]? = none)
    (h : space[k']? = some v') : (space.insert k v)[k']? = some v' := by
  rw [get_put, if_neg fun heq => ?_, h]
  rw [← heq, hnone] at h
  cases h

section

variable {front rest : List (K × V)} {a : K × V} (hscan : space.toList = front ++ a :: rest)
include hscan

omit [LawfulEqOrd K] in
/-- A scan goes up. -/
theorem scan_cut : (∀ x ∈ front, compare x.1 a.1 = .lt) ∧ ∀ x ∈ rest, compare a.1 x.1 = .lt := by
  have hsort : (front ++ a :: rest).Pairwise fun a b => compare a.1 b.1 = .lt :=
    hscan ▸ TreeMap.ordered_keys_toList
  obtain ⟨-, hback, hcross⟩ := pairwise_append.mp hsort
  exact ⟨fun x hx => hcross x hx a mem_cons_self, (pairwise_cons.mp hback).1⟩

/-- **A scan has seen the records before its place, and is still to see those after it.** -/
theorem mem_scan_cut (hk : space[k]? = some v) :
    (compare k a.1 = .lt → (k, v) ∈ front) ∧ (compare a.1 k = .lt → (k, v) ∈ rest) := by
  obtain ⟨hfront, hrest⟩ := scan_cut hscan
  have hirrefl : ∀ k : K, compare k k ≠ .lt := fun k h => by
    rw [ReflOrd.compare_self] at h
    cases h
  have hmem : (k, v) ∈ front ++ a :: rest := hscan ▸ mem_scan.mpr hk
  rcases mem_append.mp hmem with hmem | hmem
  · exact ⟨fun _ => hmem, fun hlt => absurd (TransCmp.lt_trans hlt (hfront _ hmem)) (hirrefl _)⟩
  · rcases mem_cons.mp hmem with rfl | hmem
    · exact ⟨fun hlt => absurd hlt (hirrefl _), fun hlt => absurd hlt (hirrefl _)⟩
    · exact ⟨fun hlt => absurd (TransCmp.lt_trans hlt (hrest _ hmem)) (hirrefl _), fun _ => hmem⟩

end

end

end Beryl.Keyspace
