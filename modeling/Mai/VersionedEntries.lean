import Mathlib

/-! Multi-version entries: every entry has a key and a stamp, and a read of a key at a
bound returns the entry of that key with the greatest stamp not above the bound. The
entries live in several places, and a search stops at the first place that answers. -/
namespace Mai.VersionedEntries
open List

structure Stamp (E K : Type*) where
  key : E → K
  seq : E → ℕ

namespace Stamp

variable {E K : Type*} [DecidableEq K] (st : Stamp E K)

def visible (k : K) (s : ℕ) (e : E) : Bool := st.key e = k ∧ st.seq e ≤ s

def newest (l : List E) (k : K) (s : ℕ) : Option E := (l.filter (st.visible k s)).argmax st.seq

def Distinct (S : E → Prop) : Prop :=
  ∀ a b, S a → S b → st.key a = st.key b → st.seq a = st.seq b → a = b

variable {st} {l m : List E} {k : K} {s : ℕ} {e : E}

lemma visible_iff : st.visible k s e = true ↔ st.key e = k ∧ st.seq e ≤ s := by
  simp [visible]

lemma newest_mem (h : st.newest l k s = some e) : e ∈ l :=
  mem_of_mem_filter (argmax_mem h)

lemma newest_visible (h : st.newest l k s = some e) : st.key e = k ∧ st.seq e ≤ s :=
  visible_iff.mp (of_mem_filter (argmax_mem h))

lemma newest_max (h : st.newest l k s = some e) {a : E} (ha : a ∈ l) (hk : st.key a = k)
    (hs : st.seq a ≤ s) : st.seq a ≤ st.seq e :=
  le_of_mem_argmax (mem_filter.mpr ⟨ha, visible_iff.mpr ⟨hk, hs⟩⟩) h

lemma newest_eq_none : st.newest l k s = none ↔ ∀ a ∈ l, st.key a = k → s < st.seq a := by
  simp only [newest, argmax_eq_none, filter_eq_nil_iff, visible_iff]
  exact forall₂_congr fun a _ => by rw [not_and, not_le]

lemma newest_isSome (ha : e ∈ l) (hk : st.key e = k) (hs : st.seq e ≤ s) :
    ∃ b, st.newest l k s = some b := by
  cases h : st.newest l k s with
  | some b => exact ⟨b, rfl⟩
  | none => exact absurd (newest_eq_none.mp h e ha hk) (not_lt.mpr hs)

lemma newest_eq_some (hd : st.Distinct (· ∈ l)) (he : e ∈ l) (hk : st.key e = k)
    (hs : st.seq e ≤ s) (hmax : ∀ a ∈ l, st.key a = k → st.seq a ≤ s → st.seq a ≤ st.seq e) :
    st.newest l k s = some e := by
  obtain ⟨b, hb⟩ := newest_isSome he hk hs
  obtain ⟨hbk, hbs⟩ := newest_visible hb
  have hle := newest_max hb he hk hs
  have hge := hmax b (newest_mem hb) hbk hbs
  rw [hb, hd b e (newest_mem hb) he (hbk.trans hk.symm) (le_antisymm hge hle)]

lemma newest_congr (hd : st.Distinct (· ∈ l)) (h : ∀ a, a ∈ l ↔ a ∈ m) :
    st.newest l k s = st.newest m k s := by
  cases hm : st.newest m k s with
  | none =>
    rw [newest_eq_none] at hm ⊢
    exact fun a ha => hm a ((h a).mp ha)
  | some e =>
    obtain ⟨hk, hs⟩ := newest_visible hm
    exact newest_eq_some hd ((h e).mpr (newest_mem hm)) hk hs
      fun a ha hka hsa => newest_max hm ((h a).mp ha) hka hsa

lemma newest_subset (hd : st.Distinct (· ∈ l)) (hsub : ∀ a ∈ m, a ∈ l)
    (h : st.newest l k s = some e) (he : e ∈ m) : st.newest m k s = some e := by
  obtain ⟨hk, hs⟩ := newest_visible h
  exact newest_eq_some (fun a b ha hb => hd a b (hsub a ha) (hsub b hb)) he hk hs
    fun a ha hka hsa => newest_max h (hsub a ha) hka hsa

lemma newest_append_invisible (h : ∀ a ∈ m, st.key a = k → s < st.seq a) :
    st.newest (l ++ m) k s = st.newest l k s := by
  have hnone : m.filter (st.visible k s) = [] := by
    refine filter_eq_nil_iff.mpr fun a ha hv => ?_
    obtain ⟨hk, hs⟩ := visible_iff.mp hv
    exact absurd (h a ha hk) (not_lt.mpr hs)
  rw [newest, newest, filter_append, hnone, append_nil]

end Stamp

end Mai.VersionedEntries
