import Mathlib.Algebra.Order.Ring.Nat
import Mathlib.Data.Nat.ModEq

/-!
# Machinery/Ring — a list in a ring of slots

A ring of `capacity` slots holds a list from its `head` on, wrapping around.  **A push behind the
list and a pop of its first element are those of the list** (`Holds.push`, `Holds.pop`).
-/

namespace Beryl.Ring

open List

variable {α : Type} {capacity head : ℕ} {slots : List (Option α)} {items : List α} {x : α}

/-- **The slots from `head` on hold the items**, and there is room for them. -/
structure Holds (capacity head : ℕ) (slots : List (Option α)) (items : List α) : Prop where
  size : slots.length = capacity
  head_lt : head < capacity
  length_le : items.length ≤ capacity
  slot : ∀ i x, items[i]? = some x → slots[(head + i) % capacity]? = some (some x)

theorem holds_nil (h : 0 < capacity) :
    Holds capacity 0 (List.replicate capacity (none : Option α)) [] :=
  ⟨length_replicate, h, Nat.zero_le _, by simp⟩

/-- Different places of a list stand in different slots. -/
theorem slot_ne {i j : ℕ} (hij : i < j) (hj : j < capacity) :
    (head + i) % capacity ≠ (head + j) % capacity := fun h =>
  hij.ne (Nat.ModEq.eq_of_lt_of_lt (Nat.ModEq.add_left_cancel' head h) (hij.trans hj) hj)

theorem Holds.push (h : Holds capacity head slots items) (hroom : items.length < capacity) (x : α) :
    Holds capacity head (slots.set ((head + items.length) % capacity) (some x)) (items ++ [x]) := by
  have hlen : (items ++ [x]).length = items.length + 1 := length_append
  refine ⟨by rw [length_set, h.size], h.head_lt, hlen ▸ hroom, fun i y hy => ?_⟩
  have hlt := Nat.mod_lt (head + items.length) (Nat.zero_lt_of_lt hroom)
  rcases Nat.lt_trichotomy i items.length with hi | rfl | hi
  · rw [getElem?_append_left hi] at hy
    rw [getElem?_set_ne (slot_ne hi hroom).symm, h.slot i y hy]
  · rw [getElem?_set_self (h.size ▸ hlt)]
    simpa using hy
  · rw [getElem?_eq_none (hlen ▸ hi)] at hy
    cases hy

theorem Holds.pop (h : Holds capacity head slots (x :: items)) : slots[head]? = some (some x)
      ∧ Holds capacity ((head + 1) % capacity) (slots.set head none) items := by
  have hhead : (head + 0) % capacity = head := Nat.mod_eq_of_lt h.head_lt
  have hpos := Nat.zero_lt_of_lt h.head_lt
  refine ⟨hhead ▸ h.slot 0 x rfl, by rw [length_set, h.size], Nat.mod_lt _ hpos,
    Nat.le_of_succ_le h.length_le, fun i y hy => ?_⟩
  have hi : i < items.length := (List.getElem?_eq_some_iff.mp hy).1
  have hne := @slot_ne _ head _ _ (Nat.succ_pos i)
    (lt_of_lt_of_le (Nat.succ_lt_succ hi) h.length_le)
  rw [hhead] at hne
  rw [Nat.mod_add_mod, add_assoc, add_comm 1, getElem?_set_ne hne]
  exact h.slot (i + 1) y hy

end Beryl.Ring
