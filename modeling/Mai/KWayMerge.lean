import Mathlib

/-! Merging any number of ordered lists by repeatedly taking the smallest head. The order is a
strict one given by `r`; of equal heads the one of the earlier list is taken first. -/
namespace Mai.KWayMerge
open List

variable {α : Type*} (r : α → α → Prop) [DecidableRel r]

def popSmallest : List (List α) → Option (α × List (List α))
  | [] => none
  | [] :: cs => (popSmallest cs).map fun p => (p.1, [] :: p.2)
  | (a :: c) :: cs =>
    match popSmallest cs with
    | none => some (a, c :: cs)
    | some (b, cs') => if r b a then some (b, (a :: c) :: cs') else some (a, c :: cs)

def mergeAux : ℕ → List (List α) → List α
  | 0, _ => []
  | n + 1, cs =>
    match popSmallest r cs with
    | none => []
    | some (a, cs') => a :: mergeAux n cs'

def merge (cs : List (List α)) : List α := mergeAux r cs.flatten.length cs

variable {r} {cs cs' : List (List α)} {b : α}

lemma popSmallest_none {cs : List (List α)} (h : popSmallest r cs = none) : cs.flatten = [] := by
  induction cs with
  | nil => rfl
  | cons c cs ih =>
    cases c with
    | nil =>
      rw [popSmallest, Option.map_eq_none_iff] at h
      simpa using ih h
    | cons a c =>
      rw [popSmallest] at h
      cases hp : popSmallest r cs with
      | none => simp [hp] at h
      | some p =>
        simp only [hp] at h
        split_ifs at h

lemma popSmallest_nil_cons (h : popSmallest r ([] :: cs) = some (b, cs')) :
    ∃ ds, popSmallest r cs = some (b, ds) ∧ cs' = [] :: ds := by
  rw [popSmallest, Option.map_eq_some_iff] at h
  obtain ⟨⟨d, ds⟩, hp, he⟩ := h
  obtain ⟨rfl, rfl⟩ := Prod.mk.inj he
  exact ⟨ds, hp, rfl⟩

lemma popSmallest_cons {a b : α} {c : List α}
    (h : popSmallest r ((a :: c) :: cs) = some (b, cs')) :
    (b = a ∧ cs' = c :: cs ∧ ∀ d ds, popSmallest r cs = some (d, ds) → ¬ r d a) ∨
      ∃ ds, popSmallest r cs = some (b, ds) ∧ r b a ∧ cs' = (a :: c) :: ds := by
  rw [popSmallest] at h
  cases hp : popSmallest r cs with
  | none =>
    simp only [hp, Option.some.injEq, Prod.mk.injEq] at h
    exact Or.inl ⟨h.1.symm, h.2.symm, by simp⟩
  | some p =>
    simp only [hp] at h
    split_ifs at h with hlt
    · obtain ⟨rfl, rfl⟩ := Prod.mk.inj (Option.some.inj h)
      exact Or.inr ⟨p.2, rfl, hlt, rfl⟩
    · obtain ⟨rfl, rfl⟩ := Prod.mk.inj (Option.some.inj h)
      refine Or.inl ⟨rfl, rfl, fun d ds hd => ?_⟩
      rwa [← (Prod.mk.inj (Option.some.inj hd)).1]

lemma popSmallest_perm (h : popSmallest r cs = some (b, cs')) :
    cs.flatten.Perm (b :: cs'.flatten) := by
  induction cs generalizing b cs' with
  | nil => simp [popSmallest] at h
  | cons c cs ih =>
    cases c with
    | nil =>
      obtain ⟨ds, hp, rfl⟩ := popSmallest_nil_cons h
      simpa using ih hp
    | cons a c =>
      rcases popSmallest_cons h with ⟨rfl, rfl, -⟩ | ⟨ds, hp, -, rfl⟩
      · exact List.Perm.refl _
      · exact ((ih hp).append_left (a :: c)).trans perm_middle

lemma popSmallest_sublist (h : popSmallest r cs = some (b, cs')) :
    ∀ c' ∈ cs', ∃ c ∈ cs, c'.Sublist c := by
  induction cs generalizing b cs' with
  | nil => simp [popSmallest] at h
  | cons c cs ih =>
    cases c with
    | nil =>
      obtain ⟨ds, hp, rfl⟩ := popSmallest_nil_cons h
      refine forall_mem_cons.mpr ⟨⟨[], by simp, List.Sublist.refl _⟩, fun c' hc' => ?_⟩
      obtain ⟨d, hd, hsub⟩ := ih hp c' hc'
      exact ⟨d, by simp [hd], hsub⟩
    | cons a c =>
      rcases popSmallest_cons h with ⟨rfl, rfl, -⟩ | ⟨ds, hp, -, rfl⟩
      · exact forall_mem_cons.mpr ⟨⟨b :: c, by simp, sublist_cons_self b c⟩,
          fun c' hc' => ⟨c', by simp [hc'], List.Sublist.refl _⟩⟩
      · refine forall_mem_cons.mpr ⟨⟨a :: c, by simp, List.Sublist.refl _⟩, fun c' hc' => ?_⟩
        obtain ⟨d, hd, hsub⟩ := ih hp c' hc'
        exact ⟨d, by simp [hd], hsub⟩

lemma popSmallest_le (htrans : ∀ a b c, ¬ r b a → ¬ r c b → ¬ r c a)
    (hasymm : ∀ a b, r a b → ¬ r b a) (h : popSmallest r cs = some (b, cs'))
    (ho : ∀ c ∈ cs, c.Pairwise fun x y => ¬ r y x) : ∀ x ∈ cs.flatten, ¬ r x b := by
  induction cs generalizing b cs' with
  | nil => simp
  | cons c cs ih =>
    have ho' : ∀ d ∈ cs, d.Pairwise fun x y => ¬ r y x := fun d hd => ho d (by simp [hd])
    cases c with
    | nil =>
      obtain ⟨ds, hp, rfl⟩ := popSmallest_nil_cons h
      exact ih hp ho'
    | cons a c =>
      have hirrefl : ¬ r a a := fun ha => hasymm a a ha ha
      have hac : ∀ x ∈ a :: c, ¬ r x a :=
        forall_mem_cons.mpr ⟨hirrefl, (pairwise_cons.mp (ho (a :: c) (by simp))).1⟩
      rw [flatten_cons]
      rcases popSmallest_cons h with ⟨rfl, rfl, hle⟩ | ⟨ds, hp, hlt, rfl⟩
      · refine forall_mem_append.mpr ⟨hac, fun x hx => ?_⟩
        cases hp : popSmallest r cs with
        | none => simp [popSmallest_none hp] at hx
        | some p => exact htrans _ _ _ (hle p.1 p.2 hp) (ih hp ho' x hx)
      · refine forall_mem_append.mpr ⟨fun x hx => ?_, ih hp ho'⟩
        exact htrans _ _ _ (hasymm _ _ hlt) (hac x hx)

lemma mergeAux_perm (n : ℕ) (cs : List (List α)) (h : cs.flatten.length = n) :
    (mergeAux r n cs).Perm cs.flatten := by
  induction n generalizing cs with
  | zero => rw [mergeAux, length_eq_zero_iff.mp h]
  | succ n ih =>
    rw [mergeAux]
    cases hp : popSmallest r cs with
    | none => simp [popSmallest_none hp] at h
    | some p =>
      have hperm := popSmallest_perm hp
      have hlen : p.2.flatten.length = n := by simpa [h] using hperm.length_eq.symm
      exact ((ih p.2 hlen).cons p.1).trans hperm.symm

theorem merge_perm (cs : List (List α)) : (merge r cs).Perm cs.flatten :=
  mergeAux_perm _ cs rfl

theorem merge_ordered (htrans : ∀ a b c, ¬ r b a → ¬ r c b → ¬ r c a)
    (hasymm : ∀ a b, r a b → ¬ r b a) {cs : List (List α)}
    (ho : ∀ c ∈ cs, c.Pairwise fun x y => ¬ r y x) :
    (merge r cs).Pairwise fun x y => ¬ r y x := by
  rw [merge]
  generalize hn : cs.flatten.length = n
  induction n generalizing cs with
  | zero => exact List.Pairwise.nil
  | succ n ih =>
    rw [mergeAux]
    cases hp : popSmallest r cs with
    | none => exact List.Pairwise.nil
    | some p =>
      have hperm := popSmallest_perm hp
      have hlen : p.2.flatten.length = n := by simpa [hn] using hperm.length_eq.symm
      refine pairwise_cons.mpr ⟨fun x hx => ?_, ih (fun c' hc' => ?_) hlen⟩
      · have hx' := (mergeAux_perm n p.2 hlen).mem_iff.mp hx
        exact popSmallest_le htrans hasymm hp ho x (hperm.mem_iff.mpr (mem_cons_of_mem _ hx'))
      · obtain ⟨c, hc, hsub⟩ := popSmallest_sublist hp c' hc'
        exact (ho c hc).sublist hsub

end Mai.KWayMerge
