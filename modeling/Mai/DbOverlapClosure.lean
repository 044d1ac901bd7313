import Mai.DbOverlap

/-! The level-0 search of `Version::GetOverlappingInputs` as the loop it is, and the closure it is
meant to compute: all files reached from a range by widening it to the files found. -/
namespace Mai.DbOverlapClosure
open RangeOverlap DbVersion DbOverlap List

variable {K : Type*} [LinearOrder K]

structure Search (K : Type*) where
  i : ℕ
  userBegin : K
  userEnd : K
  inputs : List (FileMetaData K)

/-- One turn of the loop over the files of level 0, its increment included; `none` when it has
ended. -/
def turn (files : List (FileMetaData K)) (s : Search K) : Option (Search K) :=
  match files[s.i]? with
  | none => none
  | some f =>
    if f.limit < s.userBegin then some { s with i := s.i + 1 }
    else if s.userEnd < f.start then some { s with i := s.i + 1 }
    else if f.start < s.userBegin then some ⟨0 + 1, f.start, s.userEnd, []⟩
    else if s.userEnd < f.limit then some ⟨0 + 1, s.userBegin, f.limit, []⟩
    else some { s with i := s.i + 1, inputs := s.inputs ++ [f] }

inductive Ends (files : List (FileMetaData K)) : Search K → List (FileMetaData K) → Prop
  | stop {s : Search K} : turn files s = none → Ends files s s.inputs
  | go {s s' : Search K} {inputs : List (FileMetaData K)} :
      turn files s = some s' → Ends files s' inputs → Ends files s inputs

/-- The least set of files with every file that meets the range and every file that meets the
range spanned by members of the set. -/
inductive Selected (files : List (FileMetaData K)) (b e : K) : FileMetaData K → Prop
  | meets {f : FileMetaData K} : f ∈ files → fileRange.Meets b e f → Selected files b e f
  | spanned {f g h : FileMetaData K} : Selected files b e f → Selected files b e g → h ∈ files →
      fileRange.Meets f.start g.limit h → Selected files b e h

open Classical in
noncomputable def closure (files : List (FileMetaData K)) (b e : K) : List (FileMetaData K) :=
  files.filter fun f => Selected files b e f

def Safe (files : List (FileMetaData K)) (b e : K) : Prop :=
  (∀ g ∈ files, fileRange.Meets b e g → fileRange.Within b e g) ∨
    ∀ g, files.head? = some g → ¬ Selected files b e g

section Loop
variable {files acc inputs : List (FileMetaData K)} {b e b' e' : K} {i : ℕ}
  {l : List (FileMetaData K)}

omit [LinearOrder K] in
lemma turn_of_drop {f : FileMetaData K} (h : files.drop i = f :: l) :
    files[i]? = some f ∧ files.drop (i + 1) = l := by
  constructor
  · rw [← head?_drop, h, head?_cons]
  · rw [← tail_drop, h, tail_cons]

lemma ends_of_pass (hl : files.drop i = l)
    (hdone : ∀ r, overlapPass 0 b e l acc = .done r → r = inputs)
    (hnext : ∀ b' e', overlapPass 0 b e l acc = .restart b' e' →
      Ends files ⟨1, b', e', []⟩ inputs) :
    Ends files ⟨i, b, e, acc⟩ inputs := by
  induction l generalizing i acc with
  | nil =>
    obtain rfl := hdone _ rfl
    refine .stop ?_
    rw [turn, getElem?_eq_none (drop_eq_nil_iff.mp hl)]
  | cons f l ih =>
    obtain ⟨hf, hl⟩ := turn_of_drop hl
    rw [overlapPass] at hdone hnext
    simp only [true_and] at hdone hnext
    split_ifs at hdone hnext with h₁ h₂ h₃ h₄
    · exact .go (by simp [turn, hf, h₁]) (ih hl hdone hnext)
    · exact .go (by simp [turn, hf, h₁, h₂]) (ih hl hdone hnext)
    · exact .go (by simp [turn, hf, h₁, h₂, h₃]) (hnext _ _ rfl)
    · exact .go (by simp [turn, hf, h₁, h₂, h₃, h₄]) (hnext _ _ rfl)
    · exact .go (by simp [turn, hf, h₁, h₂, h₃, h₄]) (ih hl hdone hnext)

lemma ends_of_done (hl : files.drop i = l)
    (h : overlapPass 0 b e l acc = .done inputs) : Ends files ⟨i, b, e, acc⟩ inputs :=
  ends_of_pass hl (fun _ hr => Pass.done.inj (hr.symm.trans h)) fun _ _ hr => by simp [h] at hr

lemma ends_of_restart (hl : files.drop i = l)
    (h : overlapPass 0 b e l acc = .restart b' e') (hnext : Ends files ⟨1, b', e', []⟩ inputs) :
    Ends files ⟨i, b, e, acc⟩ inputs := by
  refine ends_of_pass hl (fun _ hr => by simp [h] at hr) fun _ _ hr => ?_
  cases h.symm.trans hr
  exact hnext

lemma ends_unique {s : Search K} {r r' : List (FileMetaData K)} (h : Ends files s r)
    (h' : Ends files s r') : r = r' := by
  induction h with
  | stop hs =>
    cases h' with
    | stop => rfl
    | go hs' => simp [hs] at hs'
  | go hs _ ih =>
    cases h' with
    | stop hs' => simp [hs] at hs'
    | go hs' hr =>
      obtain rfl := Option.some.inj (hs.symm.trans hs')
      exact ih hr

lemma ends_restarts {fuel : ℕ} (hfuel : endpointsOutside files b e < fuel) :
    Ends files ⟨1, b, e, []⟩ (overlapRestarts 0 files fuel b e) := by
  induction fuel generalizing b e with
  | zero => omega
  | succ fuel ih =>
    rw [overlapRestarts]
    cases hp : overlapPass 0 b e files.tail [] with
    | done inputs => exact ends_of_done drop_one hp
    | restart b' e' =>
      obtain ⟨g, hg, -, hr⟩ := overlapPass_restart hp
      have hdec := endpointsOutside_restart (mem_of_mem_tail hg) hr
      exact ends_of_restart drop_one hp (ih (by omega))

lemma endpointsOutside_le (files : List (FileMetaData K)) (b e : K) :
    endpointsOutside files b e ≤ 2 * files.length := by
  have h₁ := countP_le_length (p := fun g : FileMetaData K => g.start < b) (l := files)
  have h₂ := countP_le_length (p := fun g : FileMetaData K => e < g.limit) (l := files)
  unfold endpointsOutside
  omega

/-- The search for overlapping files of level 0 ends with a range that no other file overlaps. -/
theorem getOverlappingInputs_ends (v : Version K) (begin_ end_ : CoreKeys.InternalKey K) :
    Ends (v.files 0) ⟨0, begin_.userKey, end_.userKey, []⟩
      (v.getOverlappingInputs 0 begin_ end_) := by
  unfold Version.getOverlappingInputs
  simp only
  cases hp : overlapPass 0 begin_.userKey end_.userKey (v.files 0) [] with
  | done inputs => exact ends_of_done rfl hp
  | restart b e =>
    obtain ⟨g, hg, -, hr⟩ := overlapPass_restart hp
    have hdec := endpointsOutside_restart hg hr
    exact ends_of_restart rfl hp
      (ends_restarts (hdec.trans_le (endpointsOutside_le _ _ _)))

end Loop

section Closure
variable {files : List (FileMetaData K)} {b e b' e' : K} {x y : K}

/-- The range of a search that began with `b` and `e`: everything it meets is selected. -/
structure Reaches (files : List (FileMetaData K)) (b e b' e' : K) : Prop where
  begin_le : b' ≤ b
  le_end : e ≤ e'
  selected : ∀ g ∈ files, fileRange.Meets b' e' g → Selected files b e g

lemma Reaches.refl : Reaches files b e b e := ⟨le_rfl, le_rfl, fun _ hg hm => .meets hg hm⟩

lemma Reaches.restart {g : FileMetaData K} (hfs : ∀ g ∈ files, g.start ≤ g.limit)
    (h : Reaches files b e x y) (hg : g ∈ files) (hm : fileRange.Meets x y g)
    (hr : b' = g.start ∧ e' = y ∧ g.start < x ∨ b' = x ∧ e' = g.limit ∧ y < g.limit) :
    Reaches files b e b' e' := by
  have hgs := h.selected g hg hm
  have hsel : ∀ z ∈ files, fileRange.Meets x y z ∨ fileRange.Meets g.start g.limit z →
      Selected files b e z := by
    rintro z hz (hzm | hzm)
    · exact h.selected z hz hzm
    · exact .spanned hgs hgs hz hzm
  rcases hr with ⟨rfl, rfl, hlt⟩ | ⟨rfl, rfl, hlt⟩
  · exact ⟨hlt.le.trans h.begin_le, h.le_end, fun z hz hzm =>
      hsel z hz (Ranged.meets_of_start_moved hm (hfs z hz) hzm)⟩
  · exact ⟨h.begin_le, h.le_end.trans hlt.le, fun z hz hzm =>
      hsel z hz (Ranged.meets_of_limit_moved hm (hfs z hz) hzm)⟩

lemma Reaches.closure_eq (h : Reaches files b e b' e')
    (hclosed : ∀ g ∈ files, fileRange.Meets b' e' g → fileRange.Within b' e' g) :
    closure files b e = files.filter fun g => fileRange.Meets b' e' g := by
  have hmeets : ∀ g, Selected files b e g → g ∈ files ∧ fileRange.Meets b' e' g := by
    intro g hg
    induction hg with
    | meets hf hm => exact ⟨hf, h.begin_le.trans hm.1, hm.2.trans h.le_end⟩
    | spanned _ _ hx hm ihf ihg =>
      have hf := hclosed _ ihf.1 ihf.2
      have hg := hclosed _ ihg.1 ihg.2
      exact ⟨hx, hf.1.trans hm.1, hm.2.trans hg.2⟩
  refine filter_congr fun g hg => ?_
  rw [decide_eq_decide]
  exact ⟨fun hs => (hmeets g hs).2, h.selected g hg⟩

lemma restarts_spec (hfs : ∀ g ∈ files, g.start ≤ g.limit) {fuel : ℕ}
    (hfuel : endpointsOutside files x y < fuel) (h : Reaches files b e x y) :
    ∃ b' e', overlapRestarts 0 files fuel x y =
        files.tail.filter (fun g => fileRange.Meets b' e' g) ∧
      (∀ g ∈ files.tail, fileRange.Meets b' e' g → fileRange.Within b' e' g) ∧
      Reaches files b e b' e' := by
  induction fuel generalizing x y with
  | zero => omega
  | succ fuel ih =>
    rw [overlapRestarts]
    cases hp : overlapPass 0 x y files.tail [] with
    | done inputs =>
      obtain ⟨hin, hclosed⟩ := overlapPass_done hp
      exact ⟨x, y, by simpa using hin, hclosed rfl, h⟩
    | restart b' e' =>
      obtain ⟨g, hg, hm, hr⟩ := overlapPass_restart hp
      have hg := mem_of_mem_tail hg
      have hdec := endpointsOutside_restart hg hr
      exact ih (by omega) (h.restart hfs hg hm hr)

lemma restarted_iff {result : List (FileMetaData K)}
    (hresult : result = files.tail.filter fun g => fileRange.Meets x y g)
    (hclosed : ∀ g ∈ files.tail, fileRange.Meets x y g → fileRange.Within x y g)
    (h : Reaches files b e x y) :
    result = closure files b e ↔ ∀ g, files.head? = some g → ¬ Selected files b e g := by
  cases hfiles : files with
  | nil =>
    subst hfiles
    simp [hresult, closure]
  | cons f fs =>
    subst hfiles
    rw [head?_cons, tail_cons] at *
    constructor
    · rintro heq g hg hsel
      obtain rfl := Option.some.inj hg
      have hsub : (fs.filter fun g => fileRange.Meets x y g).length ≤
          (fs.filter fun g =>
            @decide (Selected (f :: fs) b e g) (Classical.propDecidable _)).length := by
        rw [← countP_eq_length_filter, ← countP_eq_length_filter]
        refine countP_mono_left fun g hg hm => ?_
        have hm : fileRange.Meets x y g := of_decide_eq_true hm
        exact @decide_eq_true _ (Classical.propDecidable _)
          (h.selected g (mem_cons_of_mem _ hg) hm)
      have hlen := congrArg List.length (hresult.symm.trans heq)
      rw [closure, filter_cons_of_pos (by simpa using hsel), length_cons] at hlen
      omega
    · intro hfirst
      have hf : ¬ fileRange.Meets x y f := fun hm =>
        hfirst f rfl (h.selected f mem_cons_self hm)
      rw [h.closure_eq (forall_mem_cons.mpr ⟨fun hm => absurd hm hf, hclosed⟩), hresult]
      simp [hf]

/-- For files with arbitrary ranges the loop ends with the closure of the range exactly if it needs
no restart or the first file does not belong to the closure. -/
theorem ends_closure_iff (hfs : ∀ g ∈ files, g.start ≤ g.limit) (b e : K) :
    Ends files ⟨0, b, e, []⟩ (closure files b e) ↔ Safe files b e := by
  cases hp : overlapPass 0 b e files [] with
  | done inputs =>
    obtain ⟨hin, hclosed⟩ := overlapPass_done hp
    have hends := ends_of_done (i := 0) rfl hp
    have hclosure := Reaches.refl.closure_eq (hclosed rfl)
    rw [← hclosure, nil_append] at hin
    rw [← hin]
    exact iff_of_true hends (Or.inl (hclosed rfl))
  | restart x y =>
    obtain ⟨g, hg, hm, hr⟩ := overlapPass_restart hp
    have hdec := (endpointsOutside_restart hg hr).trans_le (endpointsOutside_le files b e)
    have hends := ends_of_restart (i := 0) rfl hp (ends_restarts hdec)
    obtain ⟨b', e', hresult, hclosed, hreach⟩ :=
      restarts_spec hfs hdec (Reaches.refl.restart hfs hg hm hr)
    have hbeyond : ¬ fileRange.Within b e g := by
      rcases hr with ⟨-, -, hlt⟩ | ⟨-, -, hlt⟩
      · exact fun hw => not_le.mpr hlt hw.1
      · exact fun hw => not_le.mpr hlt hw.2
    have hsafe : Safe files b e ↔ ∀ g, files.head? = some g → ¬ Selected files b e g :=
      ⟨fun hs => hs.resolve_left fun hw => hbeyond (hw g hg hm), Or.inr⟩
    rw [hsafe, ← restarted_iff hresult hclosed hreach]
    constructor
    · exact fun hc => ends_unique hends hc
    · exact fun heq => heq ▸ hends

def ranged (number start limit : ℕ) : FileMetaData ℕ :=
  ⟨number, ⟨start, ⟨0, .value⟩⟩, ⟨limit, ⟨0, .value⟩⟩, 0, 0⟩

end Closure

def chained : List (FileMetaData ℕ) := [ranged 1 8 9, ranged 2 2 5, ranged 3 4 6]

lemma limit_le_of_selected {f : FileMetaData ℕ} (h : Selected chained 2 2 f) : f.limit ≤ 6 := by
  have hstart : ∀ g ∈ chained, g.start ≤ 6 → g.limit ≤ 6 := by decide
  induction h with
  | meets hf hm => exact hstart _ hf (le_trans hm.2 (by decide))
  | spanned _ _ hx hm _ ih => exact hstart _ hx (le_trans hm.2 ih)

theorem ends_closure_chained : (∀ g ∈ chained, g.start ≤ g.limit) ∧
    Ends chained ⟨0, 2, 2, []⟩ (closure chained 2 2) := by
  have hfs : ∀ g ∈ chained, g.start ≤ g.limit := by decide
  refine ⟨hfs, (ends_closure_iff hfs 2 2).mpr (Or.inr fun g hg hs => ?_)⟩
  obtain rfl := Option.some.inj hg
  exact absurd (limit_le_of_selected hs) (by decide)

/-- The second file widens the range from 2 to [2, 5]; the restart loses the first file, which
meets the range. -/
theorem first_file_lost : ¬ Ends [ranged 1 2 2, ranged 2 2 5] ⟨0, 2, 2, []⟩
    (closure [ranged 1 2 2, ranged 2 2 5] 2 2) := by
  rw [ends_closure_iff (by decide)]
  rintro (hw | hfirst)
  · exact absurd (hw (ranged 2 2 5) (by decide) (by decide)).2 (by decide)
  · exact hfirst _ rfl (.meets (by decide) (by decide))

end Mai.DbOverlapClosure
