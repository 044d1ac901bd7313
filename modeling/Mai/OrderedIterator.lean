import Mai.ListCursor
import Mai.RunInvariant

/-! Iterators over a list in the order of its ranks. Keys follow the ranks, and elements with one
key may differ in rank. An iterator that always ends on the least or the greatest element that a
call asks for shows the same as a cursor over the list, whatever the calls. -/
namespace Mai.OrderedIterator
open ListCursor RunInvariant Option

variable {α κ ρ I : Type*} [LinearOrder κ] [LinearOrder ρ]

/-- The direction of the last move. -/
inductive Direction
  | forward
  | reserve
  deriving DecidableEq, Repr

inductive Call (κ : Type*)
  | seekToFirst
  | seekToLast
  | seek (target : κ)
  | next
  | prev
  deriving DecidableEq, Repr

def Call.isSeek : Call κ → Bool
  | .seekToFirst | .seekToLast | .seek _ => true
  | .next | .prev => false

def cursorCall (key : α → κ) (c : Cursor α) : Call κ → Option (Cursor α)
  | .seekToFirst => some c.seekToFirst
  | .seekToLast => some c.seekToLast
  | .seek target => some (c.seek fun a => target ≤ key a)
  | .next => if c.valid then some c.next else none
  | .prev => if c.valid then some c.prev else none

lemma cursorCall_map {β : Type*} (f : α → β) (key : β → κ) (c : Cursor α) (a : Call κ) :
    cursorCall key (c.map f) a = (cursorCall (fun x => key (f x)) c a).map (Cursor.map f) := by
  cases a <;> simp only [cursorCall, Cursor.seekToFirst_map, Cursor.seekToLast_map, Cursor.seek_map,
    Cursor.valid_map, Cursor.next_map, Cursor.prev_map, map_some]
  all_goals split_ifs <;> rfl

/-- The calls of an iterator by the element that it shows afterwards: seeks from all states that
satisfy `O`, moves from those that satisfy `R`. -/
structure Implements (key : α → κ) (rank : α → ρ) (items : List α) (call : I → Call κ → Option I)
    (current : I → Option α) (O R : I → Prop) : Prop where
  weaken : ∀ i, R i → O i
  seekToFirst : ∀ i, O i → ∃ j, call i .seekToFirst = some j ∧ R j ∧
    Least rank items (fun _ => True) (current j)
  seekToLast : ∀ i, O i → ∃ j, call i .seekToLast = some j ∧ R j ∧
    Greatest rank items (fun _ => True) (current j)
  seek : ∀ i target, O i → ∃ j, call i (.seek target) = some j ∧ R j ∧
    Least rank items (fun a => target ≤ key a) (current j)
  next : ∀ i a, R i → current i = some a → ∃ j, call i .next = some j ∧ R j ∧
    Least rank items (fun b => rank a < rank b) (current j)
  prev : ∀ i a, R i → current i = some a → ∃ j, call i .prev = some j ∧ R j ∧
    Greatest rank items (fun b => rank b < rank a) (current j)
  refused : ∀ i, O i → current i = none → call i .next = none ∧ call i .prev = none

variable {key : α → κ} {rank : α → ρ} {items : List α} {call : I → Call κ → Option I}
  {current : I → Option α}
  {O R : I → Prop} {i : I}

lemma least_seekKey (hmono : ∀ a b, rank a ≤ rank b → key a ≤ key b) {c : Cursor α}
    (h : Ascending rank c.items) (target : κ) :
    Least rank c.items (fun a => target ≤ key a) (c.seek fun a => target ≤ key a).current := by
  have hseek := least_seek (t := fun a => decide (target ≤ key a)) h fun x y hxy hx => by
    simp only [decide_eq_true_iff] at hx ⊢
    exact hx.trans (hmono x y hxy.le)
  simpa only [decide_eq_true_iff] using hseek

section Agreement
variable (h : Implements key rank items call current O R) (hmono : ∀ a b, rank a ≤ rank b →
  key a ≤ key b)
  (hasc : Ascending rank items) {c : Cursor α} {i : I}

include h hmono hasc

lemma Implements.agree_seek (hO : O i) (hitems : c.items = items) {a : Call κ}
    (ha : a.isSeek = true) :
    ∃ j d, call i a = some j ∧ cursorCall key c a = some d ∧ R j ∧ d.items = items ∧
      current j = d.current := by
  have hasc' : Ascending rank c.items := hitems ▸ hasc
  cases a with
  | seekToFirst =>
    obtain ⟨j, hj, hR, hleast⟩ := h.seekToFirst i hO
    have hcursor := least_seekToFirst hasc'
    rw [hitems] at hcursor
    exact ⟨j, _, hj, rfl, hR, hitems, hleast.unique hasc.inj hcursor⟩
  | seekToLast =>
    obtain ⟨j, hj, hR, hgreatest⟩ := h.seekToLast i hO
    have hcursor := greatest_seekToLast hasc'
    rw [hitems] at hcursor
    exact ⟨j, _, hj, rfl, hR, hitems, hgreatest.unique hasc.inj hcursor⟩
  | seek target =>
    obtain ⟨j, hj, hR, hleast⟩ := h.seek i target hO
    have hcursor := least_seekKey hmono hasc' target
    rw [hitems] at hcursor
    exact ⟨j, _, hj, rfl, hR, hitems, hleast.unique hasc.inj hcursor⟩
  | next => cases ha
  | prev => cases ha

lemma Implements.agree (hR : R i) (hitems : c.items = items) (hcur : current i = c.current)
    (a : Call κ) :
    call i a = none ∧ cursorCall key c a = none ∨
      ∃ j d, call i a = some j ∧ cursorCall key c a = some d ∧ R j ∧ d.items = items ∧
        current j = d.current := by
  have hasc' : Ascending rank c.items := hitems ▸ hasc
  cases a with
  | next =>
    rcases hc : c.current with _ | x
    · have hinvalid := Cursor.current_eq_none.mp hc
      exact Or.inl ⟨(h.refused i (h.weaken i hR) (hcur.trans hc)).1, by simp [cursorCall, hinvalid]⟩
    · obtain ⟨j, hj, hR', hleast⟩ := h.next i x hR (hcur.trans hc)
      have hcursor := least_next hasc' hc
      rw [hitems] at hcursor
      exact Or.inr ⟨j, c.next, hj, by simp [cursorCall, Cursor.valid_of_current hc], hR', hitems,
        hleast.unique hasc.inj hcursor⟩
  | prev =>
    rcases hc : c.current with _ | x
    · have hinvalid := Cursor.current_eq_none.mp hc
      exact Or.inl ⟨(h.refused i (h.weaken i hR) (hcur.trans hc)).2, by simp [cursorCall, hinvalid]⟩
    · obtain ⟨j, hj, hR', hgreatest⟩ := h.prev i x hR (hcur.trans hc)
      have hcursor := greatest_prev hasc' hc
      rw [hitems] at hcursor
      exact Or.inr ⟨j, c.prev, hj, by simp [cursorCall, Cursor.valid_of_current hc], hR', hitems,
        hgreatest.unique hasc.inj hcursor⟩
  | _ => exact Or.inr (h.agree_seek hmono hasc (h.weaken i hR) hitems rfl)

lemma Implements.run_agree (hR : R i) (hitems : c.items = items)
    (hcur : current i = c.current) (calls : List (Call κ)) :
    run call i calls = none ∧ run (cursorCall key) c calls = none ∨
      ∃ j d, run call i calls = some j ∧ run (cursorCall key) c calls = some d ∧ R j ∧
        current j = d.current := by
  induction calls generalizing i c with
  | nil => exact Or.inr ⟨i, c, rfl, rfl, hR, hcur⟩
  | cons a calls ih =>
    rw [run_cons, run_cons]
    obtain ⟨hi, hc⟩ | ⟨j, d, hj, hd, hR', hitems', hcur'⟩ := h.agree hmono hasc hR hitems hcur a
    · rw [hi, hc]
      exact Or.inl ⟨rfl, rfl⟩
    · rw [hj, hd]
      exact ih hR' hitems' hcur'

/-- The same calls are accepted and the same elements are shown along every sequence of calls. -/
theorem Implements.refines (hR : R i) (hitems : c.items = items)
    (hcur : current i = c.current) (calls : List (Call κ)) :
    (run call i calls).map current = (run (cursorCall key) c calls).map Cursor.current := by
  obtain ⟨hi, hc⟩ | ⟨j, d, hj, hd, -, hcur'⟩ := h.run_agree hmono hasc hR hitems hcur calls
  · rw [hi, hc]
    rfl
  · rw [hj, hd, map_some, map_some, hcur']

theorem Implements.refines_seek (hO : O i) (hitems : c.items = items) {first : Call κ}
    (hfirst : first.isSeek = true) (calls : List (Call κ)) :
    (run call i (first :: calls)).map current =
      (run (cursorCall key) c (first :: calls)).map Cursor.current := by
  obtain ⟨j, d, hj, hd, hR, hitems', hcur⟩ := h.agree_seek hmono hasc hO hitems hfirst
  rw [run_cons, run_cons, hj, hd]
  exact h.refines hmono hasc hR hitems' hcur calls

end Agreement

inductive Lists (call : I → Call κ → Option I) (current : I → Option α) : I → List α → Prop
  | done {i : I} : current i = none → Lists call current i []
  | more {i j : I} {a : α} {l : List α} :
      current i = some a → call i .next = some j → Lists call current j l →
    Lists call current i (a :: l)

omit [LinearOrder κ] in
lemma Lists.mem_current {a : α} {l : List α} (h : Lists call current i l)
    (ha : current i = some a) : a ∈ l := by
  cases h with
  | done hi => simp [ha] at hi
  | more hi _ _ =>
    obtain rfl := Option.some.inj (ha.symm.trans hi)
    exact List.mem_cons_self

omit [LinearOrder κ] in
lemma Lists.unique {l l' : List α} (h : Lists call current i l) (h' : Lists call current i l') :
    l = l' := by
  induction h generalizing l' with
  | done hi =>
    cases h' with
    | done _ => rfl
    | more hi' _ _ => simp [hi] at hi'
  | more hi hnext _ ih =>
    cases h' with
    | done hi' => simp [hi] at hi'
    | more hi' hnext' h' =>
      obtain rfl := Option.some.inj (hi.symm.trans hi')
      obtain rfl := Option.some.inj (hnext.symm.trans hnext')
      rw [ih h']

theorem Implements.lists (h : Implements key rank items call current O R)
    (hmono : ∀ a b, rank a ≤ rank b → key a ≤ key b) (hasc : Ascending rank items) {c : Cursor α}
    (hR : R i) (hitems : c.items = items) (hcur : current i = c.current) :
    Lists call current i c.rest := by
  induction hrest : c.rest generalizing i c with
  | nil =>
    refine .done ?_
    rw [hcur, Cursor.current_eq_head, hrest]
    rfl
  | cons a l ih =>
    have ha : c.current = some a := by rw [Cursor.current_eq_head, hrest]; rfl
    obtain ⟨-, hrefused⟩ | ⟨j, d, hj, hd, hR', hitems', hcur'⟩ :=
      h.agree hmono hasc hR hitems hcur .next
    · simp [cursorCall, Cursor.valid_of_current ha] at hrefused
    · have hd : c.next = d := by simpa [cursorCall, Cursor.valid_of_current ha] using hd
      rw [Cursor.rest_of_current ha, List.cons.injEq] at hrest
      exact .more (hcur.trans ha) hj (ih hR' hitems' hcur' (hd ▸ hrest.2))

end Mai.OrderedIterator
