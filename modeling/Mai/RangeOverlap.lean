import Mathlib

/-! Closed ranges over a linear order: which ranges meet a window, and how the window may be widened
to the hull of a chain of overlapping ranges. -/
namespace Mai.RangeOverlap

structure Ranged (F K : Type*) where
  start : F → K
  limit : F → K

namespace Ranged
variable {F K : Type*} [LinearOrder K] (R : Ranged F K)

def Meets (b e : K) (f : F) : Prop := b ≤ R.limit f ∧ R.start f ≤ e

instance (b e : K) (f : F) : Decidable (R.Meets b e f) :=
  inferInstanceAs (Decidable (b ≤ R.limit f ∧ R.start f ≤ e))

def Within (b e : K) (f : F) : Prop := b ≤ R.start f ∧ R.limit f ≤ e

variable {R} {b e : K} {f g h : F}

lemma not_meets_iff : ¬ R.Meets b e f ↔ R.limit f < b ∨ e < R.start f := by
  rw [Meets, not_and_or, not_le, not_le]

lemma meets_of_start_moved (hg : R.Meets b e g) (hh : R.start h ≤ R.limit h)
    (hm : R.Meets (R.start g) e h) : R.Meets b e h ∨ R.Meets (R.start g) (R.limit g) h := by
  by_cases hb : b ≤ R.limit h
  · exact Or.inl ⟨hb, hm.2⟩
  · exact Or.inr ⟨hm.1, hh.trans ((not_le.mp hb).le.trans hg.1)⟩

lemma meets_of_limit_moved (hg : R.Meets b e g) (hh : R.start h ≤ R.limit h)
    (hm : R.Meets b (R.limit g) h) : R.Meets b e h ∨ R.Meets (R.start g) (R.limit g) h := by
  by_cases he : R.start h ≤ e
  · exact Or.inl ⟨hm.1, he⟩
  · exact Or.inr ⟨hg.2.trans ((not_le.mp he).le.trans hh), hm.2⟩

end Ranged

end Mai.RangeOverlap
