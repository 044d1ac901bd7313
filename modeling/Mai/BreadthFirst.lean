import Mathlib

/-! Breadth-first search in a graph given by lists of successors. Nothing is marked, so that a node
is visited once for every chain that leads to it. -/
namespace Mai.BreadthFirst
open List

variable {α : Type*} (g : α → List α)

def visits : ℕ → List α → List α
  | 0, _ => []
  | _ + 1, [] => []
  | n + 1, x :: xs => x :: visits n (xs ++ g x)

def level (l : List α) : ℕ → List α
  | 0 => l
  | k + 1 => (level l k).flatMap g

def levels (l : List α) (k : ℕ) : List α := (List.range k).flatMap (level g l)

def Edge (a b : α) : Prop := b ∈ g a

variable {g} {l l' : List α} {x : α} {n k : ℕ}

lemma levels_succ (l : List α) (k : ℕ) : levels g l (k + 1) = levels g l k ++ level g l k := by
  simp [levels, range_succ]

lemma le_length_levels_or (l : List α) (k : ℕ) :
    k ≤ (levels g l k).length ∨ ∃ j < k, level g l j = [] := by
  induction k with
  | zero => exact Or.inl (Nat.zero_le _)
  | succ k ih =>
    rcases ih with ih | ⟨j, hj, hnil⟩
    · by_cases hnil : level g l k = []
      · exact Or.inr ⟨k, Nat.lt_succ_self k, hnil⟩
      · have hpos := length_pos_iff.mpr hnil
        refine Or.inl ?_
        rw [levels_succ, length_append]
        omega
    · exact Or.inr ⟨j, hj.trans (Nat.lt_succ_self k), hnil⟩

lemma level_nil_of_le {j : ℕ} (h : level g l j = []) (hle : j ≤ k) : level g l k = [] := by
  induction k, hle using Nat.le_induction with
  | base => exact h
  | succ k _ ih => rw [level, ih, flatMap_nil]

lemma exists_mem_level : (∃ k, x ∈ level g l k) ↔ ∃ a ∈ l, Relation.ReflTransGen (Edge g) a x := by
  constructor
  · rintro ⟨k, hk⟩
    induction k generalizing x with
    | zero => exact ⟨x, hk, .refl⟩
    | succ k ih =>
      obtain ⟨y, hy, hx⟩ := mem_flatMap.mp hk
      obtain ⟨a, ha, hreach⟩ := ih hy
      exact ⟨a, ha, hreach.tail hx⟩
  · rintro ⟨a, ha, hreach⟩
    induction hreach with
    | refl => exact ⟨0, ha⟩
    | tail _ hedge ih =>
      obtain ⟨k, hk⟩ := ih
      exact ⟨k + 1, mem_flatMap.mpr ⟨_, hk, hedge⟩⟩

lemma mem_levels : x ∈ levels g l k ↔ ∃ j < k, x ∈ level g l j := by simp [levels]

lemma level_congr {g' : α → List α}
    (h : ∀ a ∈ l, ∀ b, Relation.ReflTransGen (Edge g) a b → g' b = g b) (k : ℕ) :
    level g' l k = level g l k := by
  induction k with
  | zero => rfl
  | succ k ih =>
    rw [level, ih, level]
    refine flatMap_congr fun b hb => ?_
    obtain ⟨a, ha, hreach⟩ := exists_mem_level.mp ⟨k, hb⟩
    exact h a ha b hreach

lemma visits_append (l m : List α) (n : ℕ) :
    visits g (l.length + n) (l ++ m) = l ++ visits g n (m ++ l.flatMap g) := by
  induction l generalizing m with
  | nil => simp
  | cons x l ih =>
    rw [length_cons, Nat.add_right_comm, cons_append, visits, append_assoc, ih, append_assoc,
      flatMap_cons, cons_append]

lemma visits_levels (l : List α) (k n : ℕ) :
    visits g ((levels g l k).length + n) l = levels g l k ++ visits g n (level g l k) := by
  induction k generalizing n with
  | zero => simp [levels, level]
  | succ k ih =>
    have hlevel := visits_append (g := g) (level g l k) [] n
    rw [append_nil, nil_append] at hlevel
    rw [levels_succ, length_append, add_assoc, ih, hlevel, append_assoc]
    rfl

lemma visits_nil (n : ℕ) : visits g n [] = [] := by cases n <;> rfl

lemma visits_congr (h : l.take n = l'.take n) : visits g n l = visits g n l' := by
  induction n generalizing l l' with
  | zero => rfl
  | succ n ih =>
    cases l with
    | nil =>
      cases l' with
      | nil => rfl
      | cons y l' => simp at h
    | cons x l =>
      cases l' with
      | nil => simp at h
      | cons y l' =>
        simp only [take_succ_cons, List.cons.injEq] at h
        obtain ⟨rfl, h⟩ := h
        rw [visits, visits]
        congr 1
        refine ih ?_
        by_cases hn : n ≤ l.length
        · have hn' : n ≤ l'.length := by
            have := congrArg List.length h
            simp only [length_take] at this
            omega
          rw [take_append_of_le_length hn, take_append_of_le_length hn', h]
        · have hl : l = l'.take n := (take_of_length_le (by omega)).symm.trans h
          have hn' : ¬ n ≤ l'.length := fun hle => hn (by rw [hl, length_take]; omega)
          rw [hl, take_of_length_le (by omega : l'.length ≤ n)]

lemma visits_of_level_nil (h : level g l k = []) (hn : (levels g l k).length ≤ n) :
    visits g n l = levels g l k := by
  obtain ⟨m, rfl⟩ := Nat.exists_eq_add_of_le hn
  rw [visits_levels, h, visits_nil, append_nil]

lemma visits_take (m n : ℕ) (l : List α) : (visits g (n + m) l).take n = visits g n l := by
  induction n generalizing l with
  | zero => rfl
  | succ n ih =>
    cases l with
    | nil => rw [visits_nil, visits_nil, take_nil]
    | cons x l => rw [Nat.add_right_comm, visits, visits, take_succ_cons, ih]

lemma length_visits_of_le (h : n ≤ (levels g l k).length) : (visits g n l).length = n := by
  obtain ⟨m, hm⟩ := Nat.exists_eq_add_of_le h
  have hall := visits_levels (g := g) l k 0
  rw [Nat.add_zero, visits, append_nil, hm] at hall
  rw [← visits_take m, hall, length_take, hm]
  omega

theorem length_visits_lt_iff : (visits g n l).length < n ↔ ∀ k, (levels g l k).length < n := by
  constructor
  · intro h k
    by_contra hle
    exact absurd (length_visits_of_le (not_lt.mp hle)) h.ne
  · intro h
    obtain hle | ⟨j, -, hnil⟩ := le_length_levels_or (g := g) l n
    · exact absurd (h n) (not_lt.mpr hle)
    · rw [visits_of_level_nil hnil (h j).le]
      exact h j

lemma reached_of_mem_visits (h : x ∈ visits g n l) :
    ∃ a ∈ l, Relation.ReflTransGen (Edge g) a x := by
  induction n generalizing l with
  | zero => simp [visits] at h
  | succ n ih =>
    cases l with
    | nil => simp [visits] at h
    | cons y l =>
      rcases mem_cons.mp h with rfl | h
      · exact ⟨x, by simp, .refl⟩
      · obtain ⟨a, ha, hreach⟩ := ih h
        rcases mem_append.mp ha with ha | ha
        · exact ⟨a, by simp [ha], hreach⟩
        · exact ⟨y, by simp, hreach.head ha⟩

lemma mem_visits_of_reached (hend : ∀ k, (levels g l k).length < n)
    (h : ∃ a ∈ l, Relation.ReflTransGen (Edge g) a x) : x ∈ visits g n l := by
  obtain ⟨k, hk⟩ := exists_mem_level.mpr h
  obtain hle | ⟨j, -, hnil⟩ := le_length_levels_or (g := g) l n
  · exact absurd (hend n) (not_lt.mpr hle)
  · have hlt : k < j := by
      by_contra hle
      rw [level_nil_of_le hnil (not_lt.mp hle)] at hk
      cases hk
    rw [visits_of_level_nil hnil (hend j).le]
    exact mem_levels.mpr ⟨k, hlt, hk⟩

end Mai.BreadthFirst
