import Mathlib

/-! Insertion into a list that is sorted by a comparison, equal elements allowed: the new element
goes in front of the first one that is not before it. -/
namespace Mai.SortedInsert
open List

variable {α : Type*} {compare : α → α → Ordering} {l : List α} {key : α}

def insertKey (compare : α → α → Ordering) (key : α) (l : List α) : List α :=
  l.filter (compare · key = .lt) ++ key :: l.filter fun k => !(compare k key = .lt)

lemma eq_filter_append {p : α → Bool} (h : l.Pairwise fun a b => p b = true → p a = true) :
    l = l.filter p ++ l.filter fun a => !p a := by
  induction l with
  | nil => rfl
  | cons a l ih =>
    obtain ⟨hhead, htail⟩ := pairwise_cons.mp h
    cases ha : p a with
    | true => simpa [ha] using ih htail
    | false =>
      have hnone : l.filter p = [] := by
        refine filter_eq_nil_iff.mpr fun b hb hpb => ?_
        rw [hhead b hb hpb] at ha
        cases ha
      have hall := ih htail
      rw [hnone, nil_append] at hall
      simp [ha, hnone, ← hall]

lemma before_trans [Std.TransCmp compare] {a b : α} (hab : compare b a ≠ .lt)
    (hb : compare b key = .lt) :
    compare a key = .lt := by
  have hle : (compare a b).isLE := by
    rw [@Std.OrientedCmp.eq_swap _ compare _]
    cases hba : compare b a with
    | lt => exact absurd hba hab
    | eq => rfl
    | gt => rfl
  exact Std.TransCmp.lt_of_isLE_of_lt hle hb

lemma insertKey_sorted [Std.TransCmp compare] (h : l.Pairwise fun a b => compare b a ≠ .lt) :
    (insertKey compare key l).Pairwise fun a b => compare b a ≠ .lt := by
  refine pairwise_append.mpr ⟨h.sublist filter_sublist, pairwise_cons.mpr ⟨fun b hb => ?_, ?_⟩, ?_⟩
  · simpa using (mem_filter.mp hb).2
  · exact h.sublist filter_sublist
  · intro a ha b hb hba
    have ha : compare a key = .lt := by simpa using (mem_filter.mp ha).2
    rcases mem_cons.mp hb with rfl | hb
    · rw [@Std.OrientedCmp.eq_swap _ compare _, ha] at hba
      cases hba
    · have hb : compare b key ≠ .lt := by simpa using (mem_filter.mp hb).2
      exact hb (Std.TransCmp.lt_trans hba ha)

lemma sorted_pairwise [Std.TransCmp compare] (h : l.Pairwise fun a b => compare b a ≠ .lt)
    (key : α) :
    l.Pairwise fun a b => decide (compare b key = .lt) = true → decide (compare a key = .lt) =
      true := by
  refine h.imp fun hab hb => ?_
  rw [decide_eq_true_eq] at hb ⊢
  exact before_trans hab hb

lemma insertKey_filter [Std.TransCmp compare] (h : l.Pairwise fun a b => compare b a ≠ .lt)
    (p : α → Bool) :
    (insertKey compare key l).filter p = if p key then insertKey compare key (l.filter p)
      else l.filter p := by
  rw [insertKey, filter_append, filter_cons]
  split_ifs
  · rw [insertKey, filter_comm, filter_comm p]
  · rw [← filter_append, ← eq_filter_append (sorted_pairwise h key)]

lemma insertKey_perm : (insertKey compare key l).Perm (key :: l) := by
  rw [insertKey]
  exact perm_middle.trans ((filter_append_perm _ l).cons key)

section Chosen

def First (compare : α → α → Ordering) (l : List α) (p : α → Prop) : Option α → Prop
  | none => ∀ a ∈ l, ¬ p a
  | some a => a ∈ l ∧ p a ∧ ∀ b ∈ l, p b → b = a ∨ compare a b = .lt

def Last (compare : α → α → Ordering) (l : List α) (p : α → Prop) : Option α → Prop
  | none => ∀ a ∈ l, ¬ p a
  | some a => a ∈ l ∧ p a ∧ ∀ b ∈ l, p b → b = a ∨ compare b a = .lt

variable {l' : List α} {p : α → Prop} {o : Option α}

def Ascending (compare : α → α → Ordering) (l : List α) : Prop :=
  l.Pairwise fun a b => compare a b = .lt

lemma first_find? (h : Ascending compare l) (p : α → Bool) :
    First compare l (fun a => p a = true) (l.find? p) := by
  induction l with
  | nil => simp [First]
  | cons a l ih =>
    obtain ⟨hhead, htail⟩ := pairwise_cons.mp h
    by_cases ha : p a = true
    · rw [find?_cons_of_pos ha]
      refine ⟨mem_cons_self, ha, fun b hb _ => ?_⟩
      exact (mem_cons.mp hb).imp_right (hhead b)
    · rw [find?_cons_of_neg ha]
      have hl := ih htail
      cases hfind : l.find? p with
      | none =>
        rw [hfind] at hl
        intro b hb
        rcases mem_cons.mp hb with rfl | hb
        · exact ha
        · exact hl b hb
      | some c =>
        rw [hfind] at hl
        refine ⟨mem_cons_of_mem a hl.1, hl.2.1, fun b hb hpb => ?_⟩
        rcases mem_cons.mp hb with rfl | hb
        · exact absurd hpb ha
        · exact hl.2.2 b hb hpb

lemma last_filter (h : Ascending compare l) (p : α → Bool) :
    Last compare l (fun a => p a = true) (l.filter p).getLast? := by
  cases hlast : (l.filter p).getLast? with
  | none =>
    rw [getLast?_eq_none_iff, filter_eq_nil_iff] at hlast
    exact hlast
  | some a =>
    obtain ⟨front, hfront⟩ := getLast?_eq_some_iff.mp hlast
    have hsorted : (l.filter p).Pairwise fun a b => compare a b = .lt := h.sublist filter_sublist
    rw [hfront] at hsorted
    have hmem : ∀ b, b ∈ front ++ [a] ↔ b ∈ l ∧ p b = true := fun b => by rw [← hfront, mem_filter]
    refine ⟨((hmem a).mp (by simp)).1, ((hmem a).mp (by simp)).2, fun b hb hpb => ?_⟩
    rcases mem_append.mp ((hmem b).mpr ⟨hb, hpb⟩) with hb | hb
    · exact .inr ((pairwise_append.mp hsorted).2.2 b hb a (by simp))
    · exact .inl (mem_singleton.mp hb)

lemma ascending_of_perm [Std.TransCmp compare] (h : l.Pairwise fun a b => compare b a ≠ .lt)
    (hperm : l.Perm l') (hdistinct : l'.Pairwise fun a b => compare a b ≠ .eq) :
    Ascending compare l := by
  have hsymm : ∀ {a b : α}, compare a b ≠ .eq → compare b a ≠ .eq := by
    intro a b hab hba
    rw [@Std.OrientedCmp.eq_swap _ compare _, hba] at hab
    exact hab rfl
  have hne := (hperm.pairwise_iff hsymm).mpr hdistinct
  refine (h.and hne).imp ?_
  rintro a b ⟨hba, hab⟩
  cases hcompare : compare a b with
  | lt => rfl
  | eq => exact absurd hcompare hab
  | gt =>
    rw [@Std.OrientedCmp.eq_swap _ compare _, hcompare] at hba
    exact absurd rfl hba

end Chosen

end Mai.SortedInsert
