import Mathlib

/-! Lists that are kept in groups, and the search for a boundary by halving. A place in a group is a
place in the whole list; the groups hold a fixed number of elements, except the last one, which may
hold fewer. -/
namespace Mai.GroupedList
open List Option

variable {α β : Type*}

section Places
variable {groups : List (List α)} {G : List α} {g i j : ℕ}

def offset (groups : List (List α)) (g : ℕ) : ℕ := (groups.take g).flatten.length

lemma offset_succ (h : groups[g]? = some G) :
    offset groups (g + 1) = offset groups g + G.length := by
  rw [offset, take_add_one, h, flatten_append, length_append]
  simp [offset]

lemma offset_length (groups : List (List α)) :
    offset groups groups.length = groups.flatten.length := by
  rw [offset, take_length]

lemma offset_mono (groups : List (List α)) {g' : ℕ} (h : g ≤ g') :
    offset groups g ≤ offset groups g' :=
  (List.Sublist.flatten (take_sublist_take_left h)).length_le

lemma getElem?_flatten (h : groups[g]? = some G) (hj : j < G.length) :
    groups.flatten[offset groups g + j]? = G[j]? := by
  obtain ⟨hg, rfl⟩ := List.getElem?_eq_some_iff.mp h
  have hsplit : groups.flatten =
      (groups.take g).flatten ++ (groups[g] ++ (groups.drop (g + 1)).flatten) := by
    rw [← flatten_cons, ← drop_eq_getElem_cons hg, ← flatten_append, take_append_drop]
  rw [hsplit, offset, getElem?_append_right (Nat.le_add_right _ _), Nat.add_sub_cancel_left,
    getElem?_append_left hj]

lemma place_lt (h : groups[g]? = some G) (hj : j < G.length) :
    offset groups g + j < groups.flatten.length := by
  have hsome := getElem?_flatten h hj
  rw [getElem?_eq_getElem hj] at hsome
  exact (List.getElem?_eq_some_iff.mp hsome).1

lemma place_unique {g' j' : ℕ} {G' : List α} (h : groups[g]? = some G) (hj : j < G.length)
    (h' : groups[g']? = some G') (hj' : j' < G'.length)
    (heq : offset groups g + j = offset groups g' + j') : g = g' ∧ j = j' := by
  have hnext := offset_succ h
  have hnext' := offset_succ h'
  rcases lt_trichotomy g g' with hlt | rfl | hgt
  · have hle := offset_mono groups (show g + 1 ≤ g' from hlt)
    omega
  · exact ⟨rfl, by omega⟩
  · have hle := offset_mono groups (show g' + 1 ≤ g from hgt)
    omega

lemma find?_flatten {p : α → Bool} {q : List α → Bool}
    (h : ∀ G ∈ groups, q G = true ↔ ∃ a ∈ G, p a = true) :
    groups.flatten.find? p = (groups.find? q).bind (List.find? p) := by
  induction groups with
  | nil => rfl
  | cons G groups ih =>
    have hG := h G (by simp)
    rw [flatten_cons, find?_append, find?_cons]
    cases hq : q G with
    | true =>
      obtain ⟨a, ha⟩ := isSome_iff_exists.mp (find?_isSome.mpr (hG.mp hq))
      rw [bind_some, ha]
      rfl
    | false =>
      have hnone : G.find? p = none := find?_eq_none.mpr fun a ha hp => by
        rw [hG.mpr ⟨a, ha, hp⟩] at hq
        cases hq
      rw [hnone, none_or]
      exact ih fun G' hG' => h G' (by simp [hG'])

end Places

section Groups
variable {r : ℕ} {groups : List (List α)} {l : List α} {e : α}

structure Grouped (r : ℕ) (groups : List (List α)) : Prop where
  nonempty : ∀ G ∈ groups, G ≠ []
  full : ∀ g, g + 1 < groups.length → ∀ G, groups[g]? = some G → G.length = r
  short : ∀ G ∈ groups, G.length ≤ r

def snoc (r : ℕ) (groups : List (List α)) (e : α) : List (List α) :=
  if (groups.getLast?.getD []).length % r = 0 then groups ++ [[e]]
  else groups.dropLast ++ [groups.getLast?.getD [] ++ [e]]

def groupsOf (r : ℕ) (l : List α) : List (List α) := l.foldl (snoc r) []

lemma Grouped.offset_eq (h : Grouped r groups) {g : ℕ} (hg : g < groups.length) :
    offset groups g = g * r := by
  induction g with
  | zero => simp [offset]
  | succ g ih =>
    have hlt : g < groups.length := by omega
    rw [offset_succ (getElem?_eq_getElem hlt), ih hlt, h.full g hg _ (getElem?_eq_getElem hlt)]
    ring

lemma Grouped.mod_eq (h : Grouped r groups) {g j : ℕ} {G : List α} (hg : groups[g]? = some G)
    (hj : j < G.length) :
    (offset groups g + j) % r = j := by
  obtain ⟨hlt, rfl⟩ := List.getElem?_eq_some_iff.mp hg
  have hle := h.short _ (getElem_mem hlt)
  rw [h.offset_eq hlt, add_comm, Nat.add_mul_mod_self_right, Nat.mod_eq_of_lt (by omega)]

lemma eq_concat (h : groups ≠ []) : groups = groups.dropLast ++ [groups.getLast?.getD []] := by
  induction groups using List.reverseRecOn with
  | nil => exact absurd rfl h
  | append_singleton front last _ => simp

lemma flatten_snoc (r : ℕ) (groups : List (List α)) (e : α) :
    (snoc r groups e).flatten = groups.flatten ++ [e] := by
  rw [snoc]
  split_ifs with hroom
  · simp
  · have hne : groups ≠ [] := by
      rintro rfl
      exact hroom (Nat.zero_mod r)
    nth_rewrite 3 [eq_concat hne]
    simp

lemma flatten_groupsOf (r : ℕ) (l : List α) : (groupsOf r l).flatten = l := by
  induction l using List.reverseRecOn with
  | nil => rfl
  | append_singleton l e ih =>
    rw [groupsOf, foldl_append, foldl_cons, foldl_nil, flatten_snoc, ← groupsOf, ih]

lemma grouped_concat {front : List (List α)} {last : List α} :
    Grouped r (front ++ [last]) ↔ (∀ G ∈ front, G.length = r ∧ G ≠ []) ∧ last ≠ [] ∧
      last.length ≤ r := by
  constructor
  · intro h
    refine ⟨fun G hG => ⟨?_, h.nonempty G (by simp [hG])⟩, h.nonempty last (by simp),
      h.short last (by simp)⟩
    obtain ⟨g, hg, rfl⟩ := mem_iff_getElem.mp hG
    exact h.full g (by simp [hg]) _ (by rw [getElem?_append_left hg, getElem?_eq_getElem hg])
  · rintro ⟨hfront, hne, hle⟩
    refine ⟨fun G hG => ?_, fun g hg G hget => ?_, fun G hG => ?_⟩
    · rcases mem_append.mp hG with hG | hG
      · exact (hfront G hG).2
      · rwa [mem_singleton.mp hG]
    · have hlt : g < front.length := by
        rw [length_append, length_singleton] at hg
        omega
      rw [getElem?_append_left hlt] at hget
      exact (hfront G (mem_of_getElem? hget)).1
    · rcases mem_append.mp hG with hG | hG
      · exact (hfront G hG).1.le
      · rwa [mem_singleton.mp hG]

lemma Grouped.snoc (h : Grouped r groups) (hr : 0 < r) (e : α) : Grouped r (snoc r groups e) := by
  by_cases hne : groups = []
  · subst hne
    have hfirst : GroupedList.snoc r ([] : List (List α)) e = [] ++ [[e]] := by
      simp [GroupedList.snoc]
    rw [hfirst, grouped_concat]
    exact ⟨by simp, by simp, hr⟩
  · have hconcat := eq_concat hne
    rw [hconcat] at h
    obtain ⟨hfront, hlast, hle⟩ := grouped_concat.mp h
    have hpos := length_pos_iff.mpr hlast
    rw [GroupedList.snoc]
    split_ifs with hroom
    · refine grouped_concat.mpr ⟨fun G hG => ?_, by simp, hr⟩
      rw [hconcat] at hG
      rcases mem_append.mp hG with hG | hG
      · exact hfront G hG
      · rw [mem_singleton.mp hG]
        exact ⟨le_antisymm hle (Nat.le_of_dvd hpos (Nat.dvd_of_mod_eq_zero hroom)), hlast⟩
    · have hlt : (groups.getLast?.getD []).length ≠ r :=
        fun heq => hroom (by rw [heq, Nat.mod_self])
      refine grouped_concat.mpr ⟨hfront, by simp, ?_⟩
      rw [length_append, length_singleton]
      omega

lemma grouped_groupsOf (hr : 0 < r) (l : List α) : Grouped r (groupsOf r l) := by
  induction l using List.reverseRecOn with
  | nil => exact ⟨by simp [groupsOf], by simp [groupsOf], by simp [groupsOf]⟩
  | append_singleton l e ih =>
    rw [groupsOf, foldl_append]
    exact ih.snoc hr e

end Groups

/-- The loop of `std::upper_bound` over the places `first, …, first + count - 1`. -/
def bisect (p : ℕ → Bool) : ℕ → ℕ → ℕ → Option ℕ
  | _, first, 0 => some first
  | 0, _, _ + 1 => none
  | fuel + 1, first, count + 1 =>
    let step := (count + 1) / 2
    if p (first + step) then bisect p fuel (first + step + 1) (count + 1 - (step + 1))
    else bisect p fuel first step

/-- Halving finds the boundary between the places where `p` holds and the others. -/
theorem bisect_spec {p : ℕ → Bool} (fuel first count : ℕ) (hfuel : count ≤ fuel)
    (hp : ∀ i j, i ≤ j → j < first + count → p j = true → p i = true) :
    ∃ k, bisect p fuel first count = some k ∧ first ≤ k ∧ k ≤ first + count ∧
      (∀ i, first ≤ i → i < k → p i = true) ∧ ∀ i, k ≤ i → i < first + count → p i = false := by
  induction fuel generalizing first count with
  | zero =>
    obtain rfl : count = 0 := by omega
    exact ⟨first, rfl, le_rfl, le_rfl, fun i hi hlt => by omega, fun i hi hlt => by omega⟩
  | succ fuel ih =>
    cases count with
    | zero => exact ⟨first, rfl, le_rfl, le_rfl, fun i hi hlt => by omega, fun i hi hlt => by omega⟩
    | succ count =>
      rw [bisect]
      generalize hstep : (count + 1) / 2 = step
      have hle : step ≤ count := by omega
      split_ifs with hmiddle
      · obtain ⟨k, hk, hfirst, hlast, htrue, hfalse⟩ :=
          ih (first + step + 1) (count + 1 - (step + 1)) (by omega) fun i j hij hj =>
            hp i j hij (by omega)
        refine ⟨k, hk, by omega, by omega, fun i hi hlt => ?_,
          fun i hi hlt => hfalse i hi (by omega)⟩
        by_cases hi' : i ≤ first + step
        · exact hp i (first + step) hi' (by omega) hmiddle
        · exact htrue i (by omega) hlt
      · obtain ⟨k, hk, hfirst, hlast, htrue, hfalse⟩ :=
          ih first step (by omega) fun i j hij hj => hp i j hij (by omega)
        refine ⟨k, hk, hfirst, by omega, htrue, fun i hi hlt => ?_⟩
        by_cases hi' : i < first + step
        · exact hfalse i hi hi'
        · cases hpi : p i with
          | false => rfl
          | true => exact absurd (hp (first + step) i (by omega) hlt hpi) hmiddle

lemma perm_flatMap_filter (f : α → ℕ) (l : List α) (n : ℕ) :
    ((List.range n).flatMap fun i => l.filter fun a => f a = i).Perm (l.filter fun a => f a <
      n) := by
  induction n with
  | zero => simp
  | succ n ih =>
    have hsplit := filter_append_perm (fun a => decide (f a < n)) (l.filter fun a => f a < n + 1)
    rw [List.filter_filter, List.filter_filter] at hsplit
    rw [range_succ, flatMap_append]
    refine ((ih.append_right _).trans ?_).trans hsplit
    simp only [flatMap_cons, flatMap_nil, append_nil]
    refine List.Perm.of_eq
      (congrArg₂ (· ++ ·) (filter_congr fun a _ => ?_) (filter_congr fun a _ => ?_))
    · rw [← Bool.decide_and]
      exact decide_eq_decide.mpr (by omega)
    · rw [← decide_not, ← Bool.decide_and]
      exact decide_eq_decide.mpr (by omega)

end Mai.GroupedList
