import Mathlib

/-! Singly linked chains kept in an array: each cell holds the index of the next one and
index 0 ends the chain. -/
namespace Mai.IndexChain
open List

variable {next : ℕ → ℕ} {i j p x : ℕ} {l a b : List ℕ} {next' : ℕ → ℕ}

def Linked (next : ℕ → ℕ) : ℕ → List ℕ → Prop
  | i, [] => i = 0
  | i, j :: l => i = j ∧ j ≠ 0 ∧ Linked next (next j) l

@[simp] lemma linked_nil : Linked next i [] ↔ i = 0 := Iff.rfl

lemma exists_cons_eq_concat (x : ℕ) (l : List ℕ) : ∃ a, x :: l = a ++ [l.getLastD x] := by
  induction l using List.reverseRecOn with
  | nil => exact ⟨[], rfl⟩
  | append_singleton l n _ => exact ⟨x :: l, by simp⟩

lemma getLastD_append_cons (a b : List ℕ) (x y : ℕ) : (a ++ x :: b).getLastD y = b.getLastD x := by
  obtain ⟨c, hc⟩ := exists_cons_eq_concat x b
  rw [hc, ← append_assoc, getLastD_concat]

lemma Linked.congr (h : Linked next i l) (hnext : ∀ j ∈ l, next' j = next j) :
    Linked next' i l := by
  induction l generalizing i with
  | nil => exact h
  | cons j l ih =>
    obtain ⟨hi, hj, hl⟩ := h
    refine ⟨hi, hj, ?_⟩
    rw [hnext j mem_cons_self]
    exact ih hl fun k hk => hnext k (mem_cons_of_mem _ hk)

lemma Linked.unique {l' : List ℕ} (h : Linked next i l) (h' : Linked next i l') : l = l' := by
  induction l generalizing i l' with
  | nil =>
    cases l' with
    | nil => rfl
    | cons j l' => exact absurd (h'.1.symm.trans h) h'.2.1
  | cons j l ih =>
    obtain ⟨rfl, hj, hl⟩ := h
    cases l' with
    | nil => exact absurd h' hj
    | cons k l' =>
      obtain ⟨rfl, -, hl'⟩ := h'
      rw [ih hl hl']

lemma Linked.suffix (h : Linked next i (a ++ x :: b)) : Linked next x (x :: b) := by
  induction a generalizing i with
  | nil => exact ⟨rfl, h.2.1, h.2.2⟩
  | cons j a ih => exact ih h.2.2

lemma Linked.nodup (h : Linked next i l) : l.Nodup := by
  induction l generalizing i with
  | nil => exact nodup_nil
  | cons j l ih =>
    refine nodup_cons.mpr ⟨fun hj => ?_, ih h.2.2⟩
    obtain ⟨a, b, rfl⟩ := append_of_mem hj
    have hlong : Linked next j (j :: (a ++ j :: b)) := ⟨rfl, h.2.1, h.2.2⟩
    have hlen := congrArg List.length (hlong.unique h.2.2.suffix)
    simp at hlen
    omega

lemma Linked.insert (h : Linked next i (j :: l)) (hx : x ≠ 0)
    (hmem : x ∉ j :: l) (hj : next' j = x) (hxj : next' x = next j)
    (hnext : ∀ k, k ≠ j → k ≠ x → next' k = next k) : Linked next' i (j :: x :: l) := by
  have hnodup := nodup_cons.mp h.nodup
  refine ⟨h.1, h.2.1, ?_⟩
  rw [hj]
  refine ⟨rfl, hx, ?_⟩
  rw [hxj]
  refine h.2.2.congr fun k hk => hnext k (fun he => hnodup.1 (he ▸ hk)) fun he => hmem ?_
  exact mem_cons_of_mem _ (he ▸ hk)

lemma Linked.insertAfter (h : Linked next i (a ++ p :: b)) (hx : x ≠ 0) (hmem : x ∉ a ++ p :: b)
    (hp : next' p = x) (hxp : next' x = next p) (hnext : ∀ k, k ≠ p → k ≠ x → next' k = next k) :
    Linked next' i (a ++ p :: x :: b) := by
  induction a generalizing i with
  | nil => exact h.insert hx hmem hp hxp hnext
  | cons j a ih =>
    have hnodup := nodup_cons.mp h.nodup
    obtain ⟨hi, hj, hl⟩ := h
    have hjx : j ≠ x := fun he => hmem (by simp [he])
    have hjp : j ≠ p := fun he => hnodup.1 (by simp [he])
    refine ⟨hi, hj, ?_⟩
    rw [hnext j hjp hjx]
    exact ih hl fun hk => hmem (mem_cons_of_mem _ hk)

lemma Linked.next_eq (h : Linked next i (j :: l)) : next j = l.headD 0 := by
  cases l with
  | nil => exact h.2.2
  | cons k l => exact h.2.2.1

end Mai.IndexChain
