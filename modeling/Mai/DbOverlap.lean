import Mai.RangeOverlap
import Mai.DbVersion

/-! What `Version::GetOverlappingInputs` selects. In the deeper levels it is every file that meets
the range; in level 0 the range is widened to the hull of overlapping files, but a restart of the
search forgets the first file of the level. -/
namespace Mai.DbOverlap
open RangeOverlap DbVersion List

variable {K : Type*} [LinearOrder K]

def fileRange : Ranged (FileMetaData K) K := ⟨FileMetaData.start, FileMetaData.limit⟩

omit [LinearOrder K] in
@[simp] lemma fileRange_start (f : FileMetaData K) : fileRange.start f = f.start := rfl
omit [LinearOrder K] in
@[simp] lemma fileRange_limit (f : FileMetaData K) : fileRange.limit f = f.limit := rfl

section Pass
variable {level : ℕ} {b e b' e' : K} {fs acc inputs : List (FileMetaData K)}

lemma overlapPass_skip {f : FileMetaData K} (h : ¬ fileRange.Meets b e f) :
    overlapPass level b e (f :: fs) acc = overlapPass level b e fs acc := by
  have h : f.limit < b ∨ e < f.start := Ranged.not_meets_iff.mp h
  rcases h with h | h
  · rw [overlapPass, if_pos h]
  · rw [overlapPass, if_pos h, ite_self]

lemma overlapPass_meet {f : FileMetaData K} (h : fileRange.Meets b e f) :
    overlapPass level b e (f :: fs) acc =
      if level = 0 ∧ f.start < b then .restart f.start e
      else if level = 0 ∧ e < f.limit then .restart b f.limit
      else overlapPass level b e fs (acc ++ [f]) := by
  have hl : ¬ f.limit < b := not_lt.mpr h.1
  have hs : ¬ e < f.start := not_lt.mpr h.2
  rw [overlapPass, if_neg hl, if_neg hs]

lemma overlapPass_done (h : overlapPass level b e fs acc = .done inputs) :
    inputs = acc ++ fs.filter (fun f => fileRange.Meets b e f) ∧
      (level = 0 → ∀ f ∈ fs, fileRange.Meets b e f → fileRange.Within b e f) := by
  induction fs generalizing acc with
  | nil =>
    cases h
    simp
  | cons f fs ih =>
    by_cases hm : fileRange.Meets b e f
    · rw [overlapPass_meet hm] at h
      split_ifs at h with h1 h2
      obtain ⟨hin, hclosed⟩ := ih h
      refine ⟨by simp [hin, hm], fun h0 => forall_mem_cons.mpr ⟨fun _ => ?_, hclosed h0⟩⟩
      exact ⟨not_lt.mp fun hlt => h1 ⟨h0, hlt⟩, not_lt.mp fun hlt => h2 ⟨h0, hlt⟩⟩
    · rw [overlapPass_skip hm] at h
      obtain ⟨hin, hclosed⟩ := ih h
      exact ⟨by simp [hin, hm], fun h0 => forall_mem_cons.mpr ⟨fun h => absurd h hm, hclosed h0⟩⟩

lemma overlapPass_restart (h : overlapPass level b e fs acc = .restart b' e') :
    ∃ g ∈ fs, fileRange.Meets b e g ∧
      (b' = g.start ∧ e' = e ∧ g.start < b ∨ b' = b ∧ e' = g.limit ∧ e < g.limit) := by
  induction fs generalizing acc with
  | nil => cases h
  | cons f fs ih =>
    by_cases hm : fileRange.Meets b e f
    · rw [overlapPass_meet hm] at h
      split_ifs at h with h1 h2
      · cases h
        exact ⟨f, by simp, hm, Or.inl ⟨rfl, rfl, h1.2⟩⟩
      · cases h
        exact ⟨f, by simp, hm, Or.inr ⟨rfl, rfl, h2.2⟩⟩
      · obtain ⟨g, hg, hr⟩ := ih h
        exact ⟨g, by simp [hg], hr⟩
    · rw [overlapPass_skip hm] at h
      obtain ⟨g, hg, hr⟩ := ih h
      exact ⟨g, by simp [hg], hr⟩

end Pass

def endpointsOutside (fs : List (FileMetaData K)) (b e : K) : ℕ :=
  fs.countP (fun g => g.start < b) + fs.countP fun g => e < g.limit

lemma countP_lt_of_mem {α : Type*} {p q : α → Bool} {l : List α} (hpq : ∀ x ∈ l, p x → q x) {a : α}
    (ha : a ∈ l) (hp : p a = false) (hq : q a = true) : l.countP p < l.countP q := by
  induction l with
  | nil => simp at ha
  | cons x l ih =>
    have hmono : l.countP p ≤ l.countP q := countP_mono_left fun y hy => hpq y (by simp [hy])
    rw [countP_cons, countP_cons]
    rcases mem_cons.mp ha with rfl | ha
    · simp only [hp, hq, Bool.false_eq_true, if_false, if_true]
      omega
    · have ih := ih (fun y hy => hpq y (by simp [hy])) ha
      have hx := hpq x (by simp)
      cases hpx : p x
      · simp only [Bool.false_eq_true, if_false]
        omega
      · simp only [hx hpx, if_true]
        omega

lemma endpointsOutside_restart {fs : List (FileMetaData K)} {b e b' e' : K} {g : FileMetaData K}
    (hg : g ∈ fs) (h : b' = g.start ∧ e' = e ∧ g.start < b ∨ b' = b ∧ e' = g.limit ∧ e < g.limit) :
    endpointsOutside fs b' e' < endpointsOutside fs b e := by
  unfold endpointsOutside
  rcases h with ⟨rfl, rfl, hlt⟩ | ⟨rfl, rfl, hlt⟩
  · have := countP_lt_of_mem (p := fun x : FileMetaData K => x.start < g.start)
      (q := fun x => x.start < b) (fun x _ hx => by simp at hx ⊢; exact hx.trans hlt) hg (by simp)
      (by simpa using hlt)
    omega
  · have := countP_lt_of_mem (p := fun x : FileMetaData K => g.limit < x.limit)
      (q := fun x => e < x.limit) (fun x _ hx => by simp at hx ⊢; exact hlt.trans hx) hg (by simp)
      (by simpa using hlt)
    omega

end Mai.DbOverlap
