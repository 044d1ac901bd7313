import Mathlib

/-! Runs of a labelled transition function. An action either moves the state or is
refused; a property of a run speaks of every state some prefix of it reaches. -/
namespace Mai.RunInvariant
open List Option

variable {S A : Type*} (step : S → A → Option S)

def run (s : S) : List A → Option S
  | [] => some s
  | a :: as => (step s a).bind fun t => run t as

/-- `P` holds in every state that the run passes through, the first one included. -/
def Always (P : S → Prop) (s : S) (as : List A) : Prop :=
  ∀ bs t, bs <+: as → run step s bs = some t → P t

/-- `C` holds of every action of the run and the state it is taken in. -/
def EachStep (C : S → A → Prop) (s : S) (as : List A) : Prop :=
  ∀ bs a t u, bs ++ [a] <+: as → run step s bs = some t → step t a = some u → C t a

/-- As `EachStep`, also for an action that is then refused. -/
def EachTry (C : S → A → Prop) (s : S) (as : List A) : Prop :=
  ∀ bs a t, bs ++ [a] <+: as → run step s bs = some t → C t a

variable {step} {C : S → A → Prop} {as : List A} {s : S} {I : S → Prop} {a : A}

@[simp] lemma run_nil (s : S) : run step s [] = some s := rfl

lemma run_cons (s : S) (a : A) (as : List A) :
    run step s (a :: as) = (step s a).bind fun t => run step t as := rfl

lemma run_append (s : S) (as bs : List A) :
    run step s (as ++ bs) = (run step s as).bind fun t => run step t bs := by
  induction as generalizing s with
  | nil => rfl
  | cons a as ih =>
    simp only [cons_append, run_cons]
    cases step s a with
    | none => rfl
    | some t => exact ih t

lemma run_snoc {s t u : S} (h : run step s as = some t)
    (ha : step t a = some u) : run step s (as ++ [a]) = some u := by
  simp [run_append, h, run_cons, ha]

lemma run_snoc_inv {s u : S} (h : run step s (as ++ [a]) = some u) :
    ∃ t, run step s as = some t ∧ step t a = some u := by
  rw [run_append] at h
  cases ht : run step s as with
  | none => simp [ht] at h
  | some t =>
    refine ⟨t, rfl, ?_⟩
    rw [ht, bind_some, run_cons] at h
    cases hu : step t a with
    | none => simp [hu] at h
    | some v => simpa [hu] using h

lemma run_map {T : Type*} {step' : T → A → Option T} {f : S → T}
    (h : ∀ s a, step' (f s) a = (step s a).map f) (s : S) (as : List A) :
    run step' (f s) as = (run step s as).map f := by
  induction as generalizing s with
  | nil => rfl
  | cons a as ih =>
    rw [run_cons, run_cons, h]
    cases step s a with
    | none => rfl
    | some t => exact ih t

lemma eachStep_nil : EachStep step C s [] := by
  intro bs a t u hb
  simp at hb

lemma eachStep_cons :
    EachStep step C s (a :: as) ↔ ∀ t, step s a = some t → C s a ∧ EachStep step C t as := by
  constructor
  · intro h t ht
    refine ⟨h [] a s t (by simp) rfl ht, fun bs b v u hb hv hu => ?_⟩
    exact h (a :: bs) b v u (by simpa using hb) (by simpa [run_cons, ht] using hv) hu
  · intro h bs b t u hb ht hu
    cases bs with
    | nil =>
      obtain rfl : b = a := by simpa using hb
      obtain rfl := Option.some.inj ht
      exact (h u hu).1
    | cons c bs =>
      obtain ⟨rfl, hb'⟩ : c = a ∧ bs ++ [b] <+: as := by simpa using hb
      rw [run_cons] at ht
      cases hc : step s c with
      | none => simp [hc] at ht
      | some m => exact (h m hc).2 bs b t u hb' (by simpa [hc] using ht) hu

lemma eachStep_of_forall (h : ∀ a ∈ as, ∀ s, C s a) :
    EachStep step C s as :=
  fun _ _ t _ hb _ _ => h _ (hb.subset (by simp)) t

def checkEach (step : S → A → Option S) (C : S → A → Bool) (s : S) : List A → Bool
  | [] => true
  | a :: as => (step s a).all fun t => C s a && checkEach step C t as

lemma eachStep_of_checkEach [∀ s a, Decidable (C s a)]
    (h : checkEach step (fun s a => C s a) s as = true) : EachStep step C s as := by
  induction as generalizing s with
  | nil => exact eachStep_nil
  | cons a as ih =>
    refine eachStep_cons.mpr fun t ht => ?_
    simp only [checkEach, ht, all_some, Bool.and_eq_true, decide_eq_true_eq] at h
    exact ⟨h.1, ih h.2⟩

theorem run_invariant {G : A → Prop}
    (hstep : ∀ s a t, G a → I s → step s a = some t → I t)
    {s t : S} (hs : I s) (hok : ∀ a ∈ as, G a) (h : run step s as = some t) : I t := by
  induction as generalizing s with
  | nil => simpa [← Option.some.inj h] using hs
  | cons a as ih =>
    rw [run_cons] at h
    cases hm : step s a with
    | none => simp [hm] at h
    | some m =>
      rw [hm, bind_some] at h
      exact ih (hstep s a m (hok a (by simp)) hs hm) (fun b hb => hok b (by simp [hb])) h

theorem always_of_eachStep
    (hstep : ∀ s a t, C s a → I s → step s a = some t → I t)
    (hs : I s) (hc : EachStep step C s as) : Always step I s as := by
  intro bs t hb
  induction bs using List.reverseRecOn generalizing t with
  | nil =>
    intro h
    rw [run_nil, Option.some.injEq] at h
    rwa [← h]
  | append_singleton bs a ih =>
    intro h
    obtain ⟨m, hm, ha⟩ := run_snoc_inv h
    have hprev := ih m ((prefix_append bs [a]).trans hb) hm
    exact hstep m a t (hc bs a m t hb hm ha) hprev ha

/-- When each single step keeps `P` exactly under `C`, a whole run keeps `P` exactly
when all its steps meet `C`. The invariant `I` holds on every run whose steps meet `G`. -/
theorem always_iff_eachStep {I P : S → Prop} {C G : S → A → Prop}
    (hinv : ∀ s a t, G s a → I s → step s a = some t → I t)
    (hlocal : ∀ s a t, G s a → I s → P s → step s a = some t → (P t ↔ C s a))
    (hok : EachStep step G s as) (hI : I s) (hP : P s) :
    Always step P s as ↔ EachStep step C s as := by
  have hreached := always_of_eachStep hinv hI hok
  constructor
  · intro h bs a t u hb ht ha
    have hb' := (prefix_append bs [a]).trans hb
    exact (hlocal t a u (hok bs a t u hb ht ha) (hreached bs t hb' ht) (h bs t hb' ht) ha).mp
      (h (bs ++ [a]) u hb (run_snoc ht ha))
  · intro h bs t hb
    induction bs using List.reverseRecOn generalizing t with
    | nil =>
      intro ht
      rw [run_nil, Option.some.injEq] at ht
      rwa [← ht]
    | append_singleton bs a ih =>
      intro hu
      obtain ⟨m, hm, ha⟩ := run_snoc_inv hu
      have hb' := (prefix_append bs [a]).trans hb
      exact (hlocal m a t (hok bs a m t hb hm ha) (hreached bs m hb' hm) (ih m hb' hm) ha).mpr
        (h bs a m t hb hm ha)

/-- When the steps that meet `C` keep an invariant that implies `P`, and the first step that does
not meet it breaks `P`, a run keeps `P` exactly when all its steps meet `C`. -/
theorem always_iff_of_broken {I P : S → Prop} (hholds : ∀ s, I s → P s)
    (hkeep : ∀ s a t, C s a → I s → step s a = some t → I t)
    (hbroken : ∀ s a t, I s → step s a = some t → P t → C s a)
    (hI : I s) : Always step P s as ↔ EachStep step C s as := by
  refine ⟨fun h => ?_, fun h bs t hb ht => hholds t (always_of_eachStep hkeep hI h bs t hb ht)⟩
  induction as generalizing s with
  | nil => exact eachStep_nil
  | cons a as ih =>
    refine eachStep_cons.mpr fun t ht => ?_
    have hmoved : ∀ bs, run step s (a :: bs) = run step t bs :=
      fun bs => by rw [run_cons, ht, bind_some]
    have hc := hbroken s a t hI ht (h [a] t (by simp) (by rw [hmoved, run_nil]))
    refine ⟨hc, ih (hkeep s a t hc hI ht) fun bs u hb hu => ?_⟩
    exact h (a :: bs) u (by simpa using hb) (by rw [hmoved, hu])

lemma eachTry_cons :
    EachTry step C s (a :: as) ↔ C s a ∧ ∀ t, step s a = some t → EachTry step C t as := by
  constructor
  · intro h
    refine ⟨h [] a s (by simp) rfl, fun t ht bs b u hb hu => ?_⟩
    exact h (a :: bs) b u (by simpa using hb) (by simpa [run_cons, ht] using hu)
  · rintro ⟨hfirst, hrest⟩ bs b u hb hu
    cases bs with
    | nil =>
      obtain rfl : b = a := by simpa using hb
      exact Option.some.inj hu ▸ hfirst
    | cons c bs =>
      obtain ⟨rfl, hb'⟩ : c = a ∧ bs ++ [b] <+: as := by simpa using hb
      obtain ⟨t, ht, hu⟩ := bind_eq_some_iff.mp hu
      exact hrest t ht bs b u hb' hu

lemma eachTry_nil : EachTry step C s [] := by
  intro bs a t hb
  simp at hb

def checkTries (step : S → A → Option S) (C : S → A → Bool) (s : S) : List A → Bool
  | [] => true
  | a :: as => C s a && (step s a).all fun t => checkTries step C t as

lemma eachTry_of_checkTries [∀ s a, Decidable (C s a)]
    (h : checkTries step (fun s a => C s a) s as = true) : EachTry step C s as := by
  induction as generalizing s with
  | nil => exact eachTry_nil
  | cons a as ih =>
    rw [checkTries, Bool.and_eq_true, decide_eq_true_eq] at h
    refine eachTry_cons.mpr ⟨h.1, fun t ht => ih ?_⟩
    rw [ht, all_some] at h
    exact h.2

/-- Two conditions that agree wherever the first of them has been met so far are met along the same
runs. -/
theorem eachTry_iff {C D : S → A → Prop} {G : A → Prop}
    (hkeep : ∀ s a t, G a → C s a → I s → step s a = some t → I t)
    (hlocal : ∀ s a, G a → I s → (D s a ↔ C s a))
    (hok : ∀ a ∈ as, G a) (hI : I s) :
    EachTry step D s as ↔ EachTry step C s as := by
  induction as generalizing s with
  | nil => exact ⟨fun _ => eachTry_nil, fun _ => eachTry_nil⟩
  | cons a as ih =>
    have ha := hok a (by simp)
    rw [eachTry_cons, eachTry_cons, hlocal s a ha hI]
    refine and_congr_right fun hc => forall₂_congr fun t ht => ?_
    exact ih (fun b hb => hok b (by simp [hb])) (hkeep s a t ha hc hI ht)

end Mai.RunInvariant
