import Mathlib

/-!
# Exception tables

`VisitTryCatchFinallyBlock` (`lang/bytecode-generator.cc`) adds an entry for each catch clause of a
function to one flat table. `DispatchException` (`lang/metadata.cc`) looks at all the entries whose
range the pc is in and takes the one whose class is closest to that of the exception, however far
out it is.
-/
namespace Mai.LangExceptionTable
open List

inductive Class
  | root (name : ℕ)
  | derived (name : ℕ) (base : Class)
  deriving DecidableEq

def Class.levelFrom (base : Class) : ℕ → Class → ℕ
  | level, .root name => if .root name = base then level else 0
  | level, .derived name parent => if .derived name parent = base then level
      else base.levelFrom (level + 1) parent

def Class.getSameOrBaseOf (clazz base : Class) : ℕ := base.levelFrom 1 clazz

mutual
inductive Code
  | plain (instructions : ℕ)
  | seq (first second : Code)
  | tryCatchFinally (body : Code) (catches : Catches) (finally_ : Code)

inductive Catches
  | nil
  | cons (clazz : Class) (block : Code) (rest : Catches)
end

structure ExceptionHandlerDesc where
  expectedType : Class
  startPc : ℕ
  stopPc : ℕ
  handlerPc : ℕ
  deriving DecidableEq

mutual
def Code.size : Code → ℕ
  | .plain n => n
  | .seq a b => a.size + b.size
  | .tryCatchFinally body catches fin => body.size + 1 + catches.size + fin.size

def Catches.size : Catches → ℕ
  | .nil => 0
  | .cons _ block rest => 1 + block.size + 1 + rest.size
end

mutual
/-- The entries that are added while the statements are visited with the builder at `pc`. -/
def Code.visit (pc : ℕ) : Code → List ExceptionHandlerDesc
  | .plain _ => []
  | .seq a b => a.visit pc ++ b.visit (pc + a.size)
  | .tryCatchFinally body catches fin =>
    body.visit pc ++ (catches.visit pc (pc + body.size) (pc + body.size + 1)
      ++ fin.visit (pc + body.size + 1 + catches.size))

def Catches.visit (startPc stopPc pc : ℕ) : Catches → List ExceptionHandlerDesc
  | .nil => []
  | .cons clazz block rest =>
    block.visit (pc + 1) ++ ⟨clazz, startPc, stopPc, pc⟩ ::
      rest.visit startPc stopPc (pc + 1 + block.size + 1)
end

def ExceptionHandlerDesc.covers (h : ExceptionHandlerDesc) (pc : ℕ) : Bool :=
  h.startPc ≤ pc && pc ≤ h.stopPc

def level (exception : Class) (h : ExceptionHandlerDesc) : ℕ :=
  exception.getSameOrBaseOf h.expectedType

def choose (exception : Class) (best : ℕ × ℤ) (h : ExceptionHandlerDesc) : ℕ × ℤ :=
  if 0 < level exception h ∧ level exception h < best.1 then (level exception h, h.handlerPc)
  else best

def dispatchException (table : List ExceptionHandlerDesc) (exception : Class) (pc : ℕ) : ℤ :=
  (table.foldl (fun best h => if h.covers pc then choose exception best h else best)
    (0x7fffffff, -1)).2

mutual
def Code.Raises (pc p : ℕ) : Code → Prop
  | .plain n => pc ≤ p ∧ p < pc + n
  | .seq a b => a.Raises pc p ∨ b.Raises (pc + a.size) p
  | .tryCatchFinally body catches fin =>
    body.Raises pc p ∨ catches.Raises (pc + body.size + 1) p ∨
      fin.Raises (pc + body.size + 1 + catches.size) p

def Catches.Raises (pc p : ℕ) : Catches → Prop
  | .nil => False
  | .cons _ block rest => block.Raises (pc + 1) p ∨ rest.Raises (pc + 1 + block.size + 1) p
end

def Catches.clauses (startPc stopPc pc : ℕ) : Catches → List ExceptionHandlerDesc
  | .nil => []
  | .cons clazz block rest =>
    ⟨clazz, startPc, stopPc, pc⟩ :: rest.clauses startPc stopPc (pc + 1 + block.size + 1)

mutual
/-- The clauses of the try blocks whose bodies the instruction at `p` is in, from the innermost
on. -/
def Code.enclosing (pc p : ℕ) : Code → List (List ExceptionHandlerDesc)
  | .plain _ => []
  | .seq a b => if p < pc + a.size then a.enclosing pc p else b.enclosing (pc + a.size) p
  | .tryCatchFinally body catches fin =>
    if p < pc + body.size
      then body.enclosing pc p ++ [catches.clauses pc (pc + body.size) (pc + body.size + 1)]
    else if p < pc + body.size + 1 + catches.size then catches.enclosing (pc + body.size + 1) p
    else fin.enclosing (pc + body.size + 1 + catches.size) p

def Catches.enclosing (pc p : ℕ) : Catches → List (List ExceptionHandlerDesc)
  | .nil => []
  | .cons _ block rest =>
    if p < pc + 1 + block.size then block.enclosing (pc + 1) p
    else rest.enclosing (pc + 1 + block.size + 1) p
end

def Matches (exception : Class) (clauses : List ExceptionHandlerDesc) : Prop :=
  ∃ h ∈ clauses, 0 < level exception h

def Innermost (exception : Class) (tries : List (List ExceptionHandlerDesc)) (result : ℤ) : Prop :=
  (∀ inner clauses outer, tries = inner ++ clauses :: outer → (∀ t ∈ inner, ¬ Matches exception t) →
    Matches exception clauses →
    ∃ h ∈ clauses, 0 < level exception h ∧
    (∀ g ∈ clauses, 0 < level exception g → level exception h ≤ level exception g)
      ∧ result = h.handlerPc)
  ∧ (result = -1 ↔ ∀ t ∈ tries, ¬ Matches exception t)

/-- The innermost try block that has a clause for the exception has one for a class that is not
farther than those of any clause further out. -/
def Closest (exception : Class) (tries : List (List ExceptionHandlerDesc)) : Prop :=
  ∀ inner clauses outer, tries = inner ++ clauses :: outer → (∀ t ∈ inner, ¬ Matches exception t) →
    Matches exception clauses →
    ∃ h ∈ clauses, 0 < level exception h ∧ level exception h < 0x7fffffff
      ∧ ∀ t ∈ outer, ∀ g ∈ t, 0 < level exception g → level exception h ≤ level exception g

section Table

variable {pc p : ℕ} {startPc stopPc : ℕ}

mutual
lemma Code.Raises.bounds : ∀ {c : Code} {pc : ℕ}, c.Raises pc p → pc ≤ p ∧ p < pc + c.size
  | .plain n, pc, h => h
  | .seq a b, pc, h => by
    rw [Code.size]
    rcases h with h | h <;> have := h.bounds <;> omega
  | .tryCatchFinally body catches fin, pc, h => by
    rw [Code.size]
    rcases h with h | h | h <;> have := h.bounds <;> omega

lemma Catches.Raises.bounds : ∀ {c : Catches} {pc : ℕ}, c.Raises pc p → pc ≤ p ∧ p < pc + c.size
  | .nil, pc, h => h.elim
  | .cons clazz block rest, pc, h => by
    rw [Catches.size]
    rcases h with h | h <;> have := h.bounds <;> omega
end

mutual
lemma Code.visit_bounds : ∀ {c : Code} {pc : ℕ} {h : ExceptionHandlerDesc}, h ∈ c.visit pc →
    h.covers p = true → pc ≤ p ∧ p < pc + c.size
  | .plain n, pc, h, hh, _ => by simp [Code.visit] at hh
  | .seq a b, pc, h, hh, hp => by
    rw [Code.size]
    rw [Code.visit, mem_append] at hh
    rcases hh with hh | hh <;> have := Code.visit_bounds hh hp <;> omega
  | .tryCatchFinally body catches fin, pc, h, hh, hp => by
    rw [Code.size]
    rw [Code.visit, mem_append, mem_append] at hh
    rcases hh with hh | hh | hh
    · have := Code.visit_bounds hh hp
      omega
    · have := Catches.visit_bounds hh hp
      omega
    · have := Code.visit_bounds hh hp
      omega

lemma Catches.visit_bounds : ∀ {c : Catches} {startPc stopPc pc : ℕ} {h : ExceptionHandlerDesc},
    h ∈ c.visit startPc stopPc pc →
    h.covers p = true → (startPc ≤ p ∧ p ≤ stopPc) ∨ (pc ≤ p ∧ p < pc + c.size)
  | .nil, startPc, stopPc, pc, h, hh, _ => by simp [Catches.visit] at hh
  | .cons clazz block rest, startPc, stopPc, pc, h, hh, hp => by
    rw [Catches.size]
    rw [Catches.visit, mem_append, mem_cons] at hh
    rcases hh with hh | rfl | hh
    · have := Code.visit_bounds hh hp
      omega
    · simp [ExceptionHandlerDesc.covers] at hp
      omega
    · have := Catches.visit_bounds hh hp
      omega
end

lemma Code.filter_outside (c : Code) (h : p < pc ∨ pc + c.size ≤ p) :
    (c.visit pc).filter (·.covers p) = [] := by
  refine filter_eq_nil_iff.mpr fun h' hh hp => ?_
  have := Code.visit_bounds hh hp
  omega

lemma Catches.filter_outside (c : Catches) (hrange : p < startPc ∨ stopPc < p)
    (h : p < pc ∨ pc + c.size ≤ p) :
    (c.visit startPc stopPc pc).filter (·.covers p) = [] := by
  refine filter_eq_nil_iff.mpr fun h' hh hp => ?_
  have := Catches.visit_bounds hh hp
  omega

lemma Catches.filter_body (hstart : startPc ≤ p) (hstop : p ≤ stopPc) :
    ∀ (c : Catches) {pc : ℕ}, p < pc →
    (c.visit startPc stopPc pc).filter (·.covers p) = c.clauses startPc stopPc pc
  | .nil, pc, _ => rfl
  | .cons clazz block rest, pc, hlt => by
    have hown : ExceptionHandlerDesc.covers ⟨clazz, startPc, stopPc, pc⟩ p = true := by
      simp [ExceptionHandlerDesc.covers, hstart, hstop]
    rw [Catches.visit, filter_append, block.filter_outside (.inl (by omega)), nil_append,
      filter_cons, if_pos hown, rest.filter_body hstart hstop (by omega), Catches.clauses]

mutual
lemma Code.filter_visit : ∀ {c : Code} {pc : ℕ}, c.Raises pc p →
    (c.visit pc).filter (·.covers p) = (c.enclosing pc p).flatten
  | .plain n, pc, _ => rfl
  | .seq a b, pc, h => by
    rw [Code.visit, filter_append, Code.enclosing]
    rcases h with h | h
    · have := h.bounds
      rw [Code.filter_visit h, b.filter_outside (.inl (by omega)), if_pos this.2, append_nil]
    · have := h.bounds
      rw [Code.filter_visit h, a.filter_outside (.inr this.1), if_neg (by omega), nil_append]
  | .tryCatchFinally body catches fin, pc, h => by
    rw [Code.visit, filter_append, filter_append, Code.enclosing]
    rcases h with h | h | h
    · have := h.bounds
      rw [Code.filter_visit h, catches.filter_body this.1 this.2.le (by omega),
        fin.filter_outside (.inl (by omega)), if_pos this.2, append_nil, flatten_append,
        flatten_singleton]
    · have := h.bounds
      rw [body.filter_outside (.inr (by omega)), Catches.filter_visit (by omega) h,
        fin.filter_outside (.inl (by omega)), if_neg (by omega), if_pos this.2, append_nil,
        nil_append]
    · have := h.bounds
      rw [body.filter_outside (.inr (by omega)),
        catches.filter_outside (.inr (by omega)) (.inr (by omega)), Code.filter_visit h,
        if_neg (by omega), if_neg (by omega), nil_append, nil_append]

lemma Catches.filter_visit : ∀ {c : Catches} {startPc stopPc pc : ℕ}, stopPc < pc → c.Raises pc p →
    (c.visit startPc stopPc pc).filter (·.covers p) = (c.enclosing pc p).flatten
  | .nil, startPc, stopPc, pc, _, h => h.elim
  | .cons clazz block rest, startPc, stopPc, pc, hlt, h => by
    have hown : pc ≤ p → ¬ ExceptionHandlerDesc.covers ⟨clazz, startPc, stopPc, pc⟩ p = true :=
  fun hle => by
      simp only [ExceptionHandlerDesc.covers, Bool.and_eq_true, decide_eq_true_eq]
      omega
    rw [Catches.visit, filter_append, Catches.enclosing]
    rcases h with h | h
    · have := h.bounds
      rw [Code.filter_visit h, filter_cons, if_neg (hown (by omega)),
        rest.filter_outside (.inr (by omega)) (.inl (by omega)), if_pos this.2, append_nil]
    · have := h.bounds
      rw [block.filter_outside (.inr (by omega)), filter_cons, if_neg (hown (by omega)),
        Catches.filter_visit (by omega) h, if_neg (by omega), nil_append]
end

def Later (t u : List ExceptionHandlerDesc) : Prop := ∀ h ∈ t, ∀ g ∈ u, h.handlerPc < g.handlerPc

lemma Catches.clauses_bounds :
    ∀ (c : Catches) {pc : ℕ} {h : ExceptionHandlerDesc}, h ∈ c.clauses startPc stopPc pc →
    pc ≤ h.handlerPc ∧ h.handlerPc < pc + c.size
  | .nil, pc, h, hh => by simp [Catches.clauses] at hh
  | .cons clazz block rest, pc, h, hh => by
    rw [Catches.size]
    rcases mem_cons.mp hh with rfl | hh
    · dsimp only
      omega
    · have := rest.clauses_bounds hh
      omega

mutual
lemma Code.enclosing_later : ∀ (c : Code) (pc : ℕ), (c.enclosing pc p).Pairwise Later
    ∧ ∀ t ∈ c.enclosing pc p, ∀ h ∈ t, h.handlerPc < pc + c.size
  | .plain n, pc => by simp [Code.enclosing]
  | .seq a b, pc => by
    rw [Code.enclosing, Code.size]
    have ha := a.enclosing_later pc
    have hb := b.enclosing_later (pc + a.size)
    split_ifs
    · exact ⟨ha.1, fun t ht h hh => (ha.2 t ht h hh).trans_le (by omega)⟩
    · exact ⟨hb.1, fun t ht h hh => (hb.2 t ht h hh).trans_le (by omega)⟩
  | .tryCatchFinally body catches fin, pc => by
    rw [Code.enclosing, Code.size]
    have hbody := body.enclosing_later pc
    have hcatches := catches.enclosing_later (pc + body.size + 1)
    have hfin := fin.enclosing_later (pc + body.size + 1 + catches.size)
    split_ifs
    · refine ⟨pairwise_append.mpr ⟨hbody.1, pairwise_singleton .., fun t ht u hu h hh g hg => ?_⟩,
        fun t ht h hh => ?_⟩
      · rw [mem_singleton.mp hu] at hg
        have := catches.clauses_bounds hg
        have := hbody.2 t ht h hh
        omega
      · rcases mem_append.mp ht with ht | ht
        · have := hbody.2 t ht h hh
          omega
        · rw [mem_singleton.mp ht] at hh
          have := catches.clauses_bounds hh
          omega
    · exact ⟨hcatches.1, fun t ht h hh => (hcatches.2 t ht h hh).trans_le (by omega)⟩
    · exact ⟨hfin.1, fun t ht h hh => (hfin.2 t ht h hh).trans_le (by omega)⟩

lemma Catches.enclosing_later : ∀ (c : Catches) (pc : ℕ), (c.enclosing pc p).Pairwise Later
    ∧ ∀ t ∈ c.enclosing pc p, ∀ h ∈ t, h.handlerPc < pc + c.size
  | .nil, pc => by simp [Catches.enclosing]
  | .cons clazz block rest, pc => by
    rw [Catches.enclosing, Catches.size]
    have hblock := block.enclosing_later (pc + 1)
    have hrest := rest.enclosing_later (pc + 1 + block.size + 1)
    split_ifs
    · exact ⟨hblock.1, fun t ht h hh => (hblock.2 t ht h hh).trans_le (by omega)⟩
    · exact ⟨hrest.1, fun t ht h hh => (hrest.2 t ht h hh).trans_le (by omega)⟩
end

end Table

section Dispatch

variable {exception : Class} {tries : List (List ExceptionHandlerDesc)}

lemma choose_spec (exception : Class) (l : List ExceptionHandlerDesc) (m : ℕ) (r : ℤ) :
    (l.foldl (choose exception) (m, r) = (m, r) ∧ ∀ h ∈ l, 0 < level exception h →
      m ≤ level exception h)
    ∨ ∃ h ∈ l, 0 < level exception h ∧ level exception h < m
      ∧ l.foldl (choose exception) (m, r) = (level exception h, (h.handlerPc : ℤ))
      ∧ ∀ g ∈ l, 0 < level exception g → level exception h ≤ level exception g := by
  induction l generalizing m r with
  | nil => exact .inl ⟨rfl, by simp⟩
  | cons x l ih =>
    rw [foldl_cons, choose]
    by_cases hx : 0 < level exception x ∧ level exception x < m
    · rw [if_pos hx]
      rcases ih (level exception x) x.handlerPc with ⟨hfold, hle⟩ | ⟨h, hh, hpos, hlt, hfold, hle⟩
      · exact .inr ⟨x, mem_cons_self, hx.1, hx.2, hfold, forall_mem_cons.mpr ⟨fun _ => le_rfl, hle⟩⟩
      · exact .inr ⟨h, mem_cons_of_mem x hh, hpos, hlt.trans hx.2, hfold,
          forall_mem_cons.mpr ⟨fun _ => hlt.le, hle⟩⟩
    · rw [if_neg hx]
      have hge : 0 < level exception x → m ≤ level exception x := by omega
      rcases ih m r with ⟨hfold, hle⟩ | ⟨h, hh, hpos, hlt, hfold, hle⟩
      · exact .inl ⟨hfold, forall_mem_cons.mpr ⟨hge, hle⟩⟩
      · exact .inr ⟨h, mem_cons_of_mem x hh, hpos, hlt, hfold,
          forall_mem_cons.mpr ⟨fun h => hlt.le.trans (hge h), hle⟩⟩

lemma choose_unmatched {l : List ExceptionHandlerDesc} (h : ¬ Matches exception l) (best : ℕ × ℤ) :
    l.foldl (choose exception) best = best := by
  rcases choose_spec exception l best.1 best.2 with ⟨hfold, -⟩ | ⟨g, hg, hpos, -⟩
  · exact hfold
  · exact absurd ⟨g, hg, hpos⟩ h

lemma not_matches_flatten (h : ∀ t ∈ tries, ¬ Matches exception t) :
    ¬ Matches exception tries.flatten := by
  rintro ⟨g, hg, hpos⟩
  obtain ⟨t, ht, hg⟩ := mem_flatten.mp hg
  exact h t ht ⟨g, hg, hpos⟩

lemma exists_innermost (h : ¬ ∀ t ∈ tries, ¬ Matches exception t) :
    ∃ inner clauses outer, tries = inner ++ clauses :: outer ∧ (∀ t ∈ inner, ¬ Matches exception t)
      ∧ Matches exception clauses := by
  induction tries with
  | nil => simp at h
  | cons t tries ih =>
    by_cases ht : Matches exception t
    · exact ⟨[], t, tries, rfl, by simp, ht⟩
    · obtain ⟨inner, clauses, outer, rfl, hinner, hclauses⟩ :=
        ih fun hall => h (forall_mem_cons.mpr ⟨ht, hall⟩)
      exact ⟨t :: inner, clauses, outer, rfl, forall_mem_cons.mpr ⟨ht, hinner⟩, hclauses⟩

lemma innermost_iff (hlater : tries.Pairwise Later) :
    Innermost exception tries (tries.flatten.foldl (choose exception) (0x7fffffff, -1)).2 ↔
      Closest exception tries := by
  constructor
  · rintro ⟨hclosest, -⟩ inner clauses outer rfl hinner hclauses
    obtain ⟨h, hh, hpos, hmin, hresult⟩ := hclosest inner clauses outer rfl hinner hclauses
    rw [flatten_append, foldl_append, choose_unmatched (not_matches_flatten hinner), flatten_cons,
      foldl_append] at hresult
    have hlater : ∀ g ∈ outer.flatten, h.handlerPc < g.handlerPc := fun g hg => by
      obtain ⟨t, ht, hg⟩ := mem_flatten.mp hg
      exact (pairwise_cons.mp (pairwise_append.mp hlater).2.1).1 t ht h hh g hg
    rcases choose_spec exception clauses 0x7fffffff (-1) with ⟨hfold, -⟩ | ⟨g, hg, hgpos, hlt,
      hfold, hgmin⟩
    · rw [hfold] at hresult
      rcases choose_spec exception outer.flatten 0x7fffffff (-1) with ⟨hfold', -⟩ | ⟨g, hg, -, -,
        hfold', -⟩
      · rw [hfold'] at hresult
        dsimp only at hresult
        omega
      · rw [hfold'] at hresult
        have := hlater g hg
        dsimp only at hresult
        omega
    · rw [hfold] at hresult
      refine ⟨g, hg, hgpos, hlt, fun t ht x hx hxpos => ?_⟩
      rcases choose_spec exception outer.flatten (level exception g) g.handlerPc with
        ⟨-, hle⟩ | ⟨y, hy, -, -, hfold', -⟩
      · exact hle x (mem_flatten.mpr ⟨t, ht, hx⟩) hxpos
      · rw [hfold'] at hresult
        have := hlater y hy
        dsimp only at hresult
        omega
  · intro hclosest
    have hchosen : ∀ inner clauses outer, tries = inner ++ clauses :: outer →
        (∀ t ∈ inner, ¬ Matches exception t) →
        Matches exception clauses → ∃ h ∈ clauses, 0 < level exception h
          ∧ (∀ g ∈ clauses, 0 < level exception g → level exception h ≤ level exception g)
          ∧ (tries.flatten.foldl (choose exception) (0x7fffffff, -1)).2 = h.handlerPc := by
      rintro inner clauses outer rfl hinner hclauses
      obtain ⟨x, hx, hxpos, hxlt, hxle⟩ := hclosest inner clauses outer rfl hinner hclauses
      rw [flatten_append, foldl_append, choose_unmatched (not_matches_flatten hinner), flatten_cons,
        foldl_append]
      rcases choose_spec exception clauses 0x7fffffff (-1) with ⟨-, hle⟩ | ⟨h, hh, hpos, -, hfold,
        hmin⟩
      · exact absurd (hle x hx hxpos) (by omega)
      · refine ⟨h, hh, hpos, hmin, ?_⟩
        rw [hfold]
        rcases choose_spec exception outer.flatten (level exception h) h.handlerPc with
          ⟨hfold', -⟩ | ⟨g, hg, hgpos, hlt, -⟩
        · rw [hfold']
        · obtain ⟨t, ht, hg⟩ := mem_flatten.mp hg
          have := hxle t ht g hg hgpos
          have := hmin x hx hxpos
          omega
    refine ⟨hchosen, fun hresult => ?_,
      fun hnone => by rw [choose_unmatched (not_matches_flatten hnone)]⟩
    by_contra hsome
    obtain ⟨inner, clauses, outer, heq, hinner, hclauses⟩ := exists_innermost hsome
    obtain ⟨h, -, -, -, hh⟩ := hchosen inner clauses outer heq hinner hclauses
    omega

/-- An exception raised by a statement goes to the innermost try block that expects it exactly if no
try block further out expects a closer class. -/
theorem dispatch_innermost_iff (code : Code) (exception : Class) (pc : ℕ)
    (hraises : code.Raises 0 pc) :
    Innermost exception (code.enclosing 0 pc) (dispatchException (code.visit 0) exception pc)
      ↔ Closest exception (code.enclosing 0 pc) := by
  rw [dispatchException, ← foldl_filter, Code.filter_visit hraises]
  exact innermost_iff (code.enclosing_later 0).1

def base : Class := .root 0

def derived : Class := .derived 1 base

def nested (inner outer : Class) : Code :=
  .tryCatchFinally (.tryCatchFinally (.plain 1) (.cons inner (.plain 0) .nil) (.plain 0))
    (.cons outer (.plain 0) .nil) (.plain 0)

theorem dispatch_innermost_derived : (nested derived base).Raises 0 0 ∧
    Innermost derived ((nested derived base).enclosing 0 0)
      (dispatchException ((nested derived base).visit 0) derived 0) := by
  have hraises : (nested derived base).Raises 0 0 := .inl (.inl ⟨le_rfl, Nat.zero_lt_one⟩)
  refine ⟨hraises, (dispatch_innermost_iff _ _ _ hraises).mpr ?_⟩
  rintro (_ | ⟨t, inner⟩) clauses outer heq hinner -
  · obtain ⟨rfl, rfl⟩ := List.cons.inj heq
    refine ⟨⟨derived, 0, 1, 2⟩, mem_singleton_self _, by decide, by decide, ?_⟩
    decide
  · obtain ⟨rfl, -⟩ := List.cons.inj heq
    exact absurd ⟨⟨derived, 0, 1, 2⟩, mem_singleton_self _, by decide⟩ (hinner _ mem_cons_self)

/-- An exception of a derived class goes to the outer handler. -/
theorem dispatch_outer : (nested base derived).Raises 0 0 ∧
    ¬ Innermost derived ((nested base derived).enclosing 0 0)
      (dispatchException ((nested base derived).visit 0) derived 0) := by
  refine ⟨.inl (.inl ⟨le_rfl, Nat.zero_lt_one⟩), fun h => ?_⟩
  obtain ⟨g, hg, -, -, hresult⟩ := h.1 [] [⟨base, 0, 1, 2⟩] [[⟨derived, 0, 4, 5⟩]] rfl (by simp)
    ⟨_, mem_singleton_self _, by decide⟩
  rw [mem_singleton.mp hg] at hresult
  exact absurd hresult (by decide)

end Dispatch

end Mai.LangExceptionTable
