import Mathlib

/-! The elements of a ring buffer, as a list. -/
namespace Mai.RingBuffer
open Function List

variable {V : Type*} {capacity start length : ℕ} {buffer : ℕ → V}

/-- The elements from `start` on, with the index taken modulo the capacity. -/
def elements (capacity start length : ℕ) (buffer : ℕ → V) : List V :=
  (List.range length).map fun i => buffer ((start + i) % capacity)

@[simp] lemma elements_zero : elements capacity start 0 buffer = [] := rfl

@[simp] lemma length_elements : (elements capacity start length buffer).length = length := by
  simp [elements]

lemma slot_ne {i j : ℕ} (hi : i < j) (hj : j < capacity) :
    (start + i) % capacity ≠ (start + j) % capacity := by
  intro h
  have hmod : i % capacity = j % capacity := Nat.ModEq.add_left_cancel' start h
  rw [Nat.mod_eq_of_lt (hi.trans hj), Nat.mod_eq_of_lt hj] at hmod
  omega

lemma elements_push (hroom : length < capacity) (v : V) :
    elements capacity start (length + 1) (update buffer ((start + length) % capacity) v) =
      elements capacity start length buffer ++ [v] := by
  rw [elements, range_succ, map_append, map_singleton, update_self]
  congr 1
  refine map_congr_left fun i hi => update_of_ne ?_ _ _
  exact slot_ne (mem_range.mp hi) hroom

lemma elements_pop (hstart : start < capacity) :
    elements capacity start (length + 1) buffer =
      buffer start :: elements capacity ((start + 1) % capacity) length buffer := by
  rw [elements, range_succ_eq_map, map_cons, List.map_map, Nat.add_zero, Nat.mod_eq_of_lt hstart]
  congr 1
  refine map_congr_left fun i _ => ?_
  simp only [Function.comp, Nat.mod_add_mod]
  congr 2
  omega

end Mai.RingBuffer
