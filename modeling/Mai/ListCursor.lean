import Mathlib

/-! A cursor over a finite list stands on one of its elements or on none. Over a list in the order
of its keys the cursor moves to the least or the greatest key of a set, and that determines the
element. -/
namespace Mai.ListCursor
open List Option

structure Cursor (α : Type*) where
  items : List α
  index : ℕ
  deriving DecidableEq, Repr

namespace Cursor
variable {α : Type*} (c : Cursor α)

def new (items : List α) : Cursor α := ⟨items, items.length⟩
def valid : Bool := c.index < c.items.length
def current : Option α := c.items[c.index]?
def seekToFirst : Cursor α := { c with index := 0 }
def seekToLast : Cursor α := { c with index := c.items.length - 1 }
def seek (p : α → Bool) : Cursor α := { c with index := c.items.findIdx p }
def next : Cursor α := { c with index := c.index + 1 }
def prev : Cursor α := { c with index := if c.index = 0 then c.items.length else c.index - 1 }

def rest : List α := c.items.drop c.index

def upTo : List α := if c.valid then c.items.take (c.index + 1) else []

def after : List α := if c.valid then c.items.drop (c.index + 1) else c.items

def behind : ℕ := c.upTo.length

variable {c} {a : α}

@[simp] lemma next_items : c.next.items = c.items := rfl
@[simp] lemma prev_items : c.prev.items = c.items := rfl

lemma current_isSome : c.current.isSome = c.valid := by
  by_cases h : c.index < c.items.length <;> simp [current, valid, h]

lemma current_eq_none : c.current = none ↔ c.valid = false := by
  rw [← current_isSome, isSome_eq_false_iff, isNone_iff_eq_none]

lemma valid_of_current (h : c.current = some a) : c.valid = true := by
    rw [← current_isSome, h, isSome_some]

lemma lt_of_current (h : c.current = some a) : c.index < c.items.length := by
    simpa [valid] using valid_of_current h

lemma mem_of_current (h : c.current = some a) : a ∈ c.items := mem_of_getElem? h

lemma rest_of_current (h : c.current = some a) : c.rest = a :: c.next.rest := by
  obtain ⟨hlt, hget⟩ := List.getElem?_eq_some_iff.mp h
  rw [rest, drop_eq_getElem_cons hlt, hget]
  rfl

lemma current_eq_head : c.current = c.rest.head? := by rw [rest, head?_drop, current]

lemma upTo_append_after : c.upTo ++ c.after = c.items := by
  rw [upTo, after]
  split_ifs
  · exact take_append_drop _ _
  · rfl

lemma upTo_of_current (h : c.current = some a) :
    c.upTo = c.prev.upTo ++ [a] ∧ c.prev.after = a :: c.after := by
  obtain ⟨hlt, hget⟩ := List.getElem?_eq_some_iff.mp h
  have hdrop := drop_eq_getElem_cons hlt
  rw [hget] at hdrop
  simp only [upTo, after, valid_of_current h, if_true]
  by_cases hzero : c.index = 0
  · have hprev : c.prev.valid = false := by simp [prev, valid, hzero]
    simp only [hprev, prev_items, hzero, Bool.false_eq_true, if_false] at hdrop ⊢
    rw [drop_zero] at hdrop
    exact ⟨by rw [hdrop]; rfl, hdrop⟩
  · have hindex : c.prev.index + 1 = c.index := by
      simp only [prev, if_neg hzero]
      omega
    have hprev : c.prev.valid = true := by
      rw [valid, decide_eq_true_iff, prev_items]
      omega
    simp only [hprev, prev_items, if_true, hindex]
    exact ⟨by rw [take_add_one, show c.items[c.index]? = some a from h]; rfl, hdrop⟩

lemma upTo_of_invalid (h : c.current = none) : c.upTo = [] ∧ c.after = c.items := by
  simp [upTo, after, current_eq_none.mp h]

lemma rest_afterwards : (if c.valid then c.next else c.seekToFirst).rest = c.after := by
  rw [after]
  split_ifs
  · rfl
  · exact drop_zero

lemma after_of_current (h : c.current = some a) : c.after = c.next.rest := by
  rw [after, if_pos (valid_of_current h)]
  rfl

lemma after_seekToLast : c.seekToLast.after = [] := by
  rw [after]
  split_ifs with h
  · exact drop_eq_nil_iff.mpr (by simp only [seekToLast]; omega)
  · rw [valid, decide_eq_true_iff] at h
    simp only [seekToLast] at h
    exact eq_nil_of_length_eq_zero (by simp only [seekToLast]; omega)

lemma behind_prev (h : c.current = some a) : c.prev.behind < c.behind := by
  rw [behind, behind, (upTo_of_current h).1, length_append]
  exact Nat.lt_succ_self _

def map {β : Type*} (f : α → β) (c : Cursor α) : Cursor β := ⟨c.items.map f, c.index⟩

section Map
variable {β : Type*} {f : α → β}

@[simp] lemma items_map : (c.map f).items = c.items.map f := rfl
@[simp] lemma valid_map : (c.map f).valid = c.valid := by simp [valid, map]
@[simp] lemma current_map : (c.map f).current = c.current.map f := by simp [current, map]
@[simp] lemma seekToFirst_map : (c.map f).seekToFirst = c.seekToFirst.map f := rfl
@[simp] lemma seekToLast_map : (c.map f).seekToLast = c.seekToLast.map f := by
    simp [seekToLast, map]
@[simp] lemma seek_map (p : β → Bool) : (c.map f).seek p = (c.seek fun a => p (f a)).map f := by
  simp [seek, map, findIdx_map, Function.comp_def]
@[simp] lemma next_map : (c.map f).next = c.next.map f := rfl
@[simp] lemma prev_map : (c.map f).prev = c.prev.map f := by simp [prev, map]

end Map

end Cursor

section Ordered
variable {α κ : Type*} [LinearOrder κ] (key : α → κ) (items : List α)

/-- The element with the least key among those that satisfy `p`, if there is one. -/
def Least (p : α → Prop) : Option α → Prop
  | none => ∀ b ∈ items, ¬ p b
  | some a => a ∈ items ∧ p a ∧ ∀ b ∈ items, p b → key a ≤ key b

def Greatest (p : α → Prop) (o : Option α) : Prop :=
  Least (fun a => OrderDual.toDual (key a)) items p o

def Ascending : Prop := items.Pairwise fun a b => key a < key b

variable {key items} {p : α → Prop}

lemma Ascending.inj (h : Ascending key items) {a b : α} (ha : a ∈ items) (hb : b ∈ items)
    (heq : key a = key b) :
    a = b := by
  have hsymm : Std.Symm fun a b : α => key a ≠ key b := ⟨fun _ _ hxy => hxy.symm⟩
  have hne : items.Pairwise fun a b => key a ≠ key b := h.imp fun {_ _} hab => hab.ne
  by_contra hab
  exact hne.forall ha hb hab heq

lemma Least.unique (hinj : ∀ {a b : α}, a ∈ items → b ∈ items → key a = key b → a = b)
    {o o' : Option α} (h : Least key items p o) (h' : Least key items p o') : o = o' := by
  rcases o with _ | a <;> rcases o' with _ | b
  · rfl
  · exact absurd h'.2.1 (h b h'.1)
  · exact absurd h.2.1 (h' a h.1)
  · rw [hinj h.1 h'.1 (le_antisymm (h.2.2 b h'.1 h'.2.1) (h'.2.2 a h.1 h.2.1))]

lemma Greatest.unique (hinj : ∀ {a b : α}, a ∈ items → b ∈ items → key a = key b → a = b)
    {o o' : Option α} (h : Greatest key items p o) (h' : Greatest key items p o') : o = o' :=
  Least.unique (fun ha hb heq => hinj ha hb (OrderDual.toDual_inj.mp heq)) h h'

lemma Least.congr {q : α → Prop} {o : Option α} (h : Least key items p o)
    (hpq : ∀ b ∈ items, p b ↔ q b) :
    Least key items q o := by
  cases o with
  | none => exact fun b hb hq => h b hb ((hpq b hb).mpr hq)
  | some a => exact ⟨h.1, (hpq a h.1).mp h.2.1, fun b hb hq => h.2.2 b hb ((hpq b hb).mpr hq)⟩

lemma Greatest.congr {q : α → Prop} {o : Option α} (h : Greatest key items p o)
    (hpq : ∀ b ∈ items, p b ↔ q b) :
    Greatest key items q o :=
  Least.congr h hpq

lemma least_head (pre post : List α) (hasc : Ascending key items) (hsplit : items = pre ++ post)
    (hpre : ∀ b ∈ pre, ¬ p b) (hpost : ∀ b ∈ post, p b) : Least key items p post.head? := by
  subst hsplit
  rcases post with _ | ⟨a, post⟩
  · intro b hb
    exact hpre b (by simpa using hb)
  · refine ⟨by simp, hpost a (by simp), fun b hb hpb => ?_⟩
    rcases mem_append.mp hb with hb | hb
    · exact absurd hpb (hpre b hb)
    · rcases mem_cons.mp hb with rfl | hb
      · exact le_rfl
      · exact ((pairwise_cons.mp (pairwise_append.mp hasc).2.1).1 b hb).le

lemma greatest_getLast (pre post : List α) (hasc : Ascending key items)
    (hsplit : items = pre ++ post) (hpre : ∀ b ∈ pre, p b) (hpost : ∀ b ∈ post, ¬ p b) :
    Greatest key items p pre.getLast? := by
  have hrev : Ascending (fun a => OrderDual.toDual (key a)) items.reverse :=
    pairwise_reverse.mpr hasc
  have hleast := least_head post.reverse pre.reverse hrev (by simp [hsplit]) (by simpa using hpost)
    (by simpa using hpre)
  rw [head?_reverse] at hleast
  rcases hlast : pre.getLast? with _ | a
  · rw [hlast] at hleast
    exact fun b hb => hleast b (mem_reverse.mpr hb)
  · rw [hlast] at hleast
    exact ⟨mem_reverse.mp hleast.1, hleast.2.1, fun b hb => hleast.2.2 b (mem_reverse.mpr hb)⟩

variable {c : Cursor α} {a : α}

lemma least_seekToFirst (h : Ascending key c.items) :
    Least key c.items (fun _ => True) c.seekToFirst.current := by
  rw [Cursor.current_eq_head]
  exact least_head [] c.items h rfl (by simp) (by simp)

lemma greatest_seekToLast (h : Ascending key c.items) :
    Greatest key c.items (fun _ => True) c.seekToLast.current := by
  have hlast : c.seekToLast.current = c.items.getLast? := getLast?_eq_getElem?.symm
  rw [hlast]
  exact greatest_getLast c.items [] h (append_nil _).symm (by simp) (by simp)

lemma seek_split {r : α → α → Prop} {t : α → Bool} (hitems : c.items.Pairwise r)
    (hmono : ∀ a b, r a b → t a = true → t b = true) :
    (∀ b ∈ c.items.take (c.seek t).index, t b = false) ∧ ∀ b ∈ (c.seek t).rest, t b = true := by
  have hbefore : ∀ b ∈ c.items.take (c.seek t).index, t b = false := by
    intro b hb
    obtain ⟨i, hi, rfl⟩ := mem_take_iff_getElem.mp hb
    simpa using not_of_lt_findIdx (lt_of_lt_of_le hi (min_le_left _ _))
  refine ⟨hbefore, fun b hb => ?_⟩
  rcases hrest : (c.seek t).current with _ | a
  · rw [Cursor.current_eq_head, head?_eq_none_iff] at hrest
    rw [hrest] at hb
    simp at hb
  · obtain ⟨hlt, hget⟩ := List.getElem?_eq_some_iff.mp hrest
    have ha : t a = true := by
      rw [← hget]
      exact findIdx_getElem
    rw [Cursor.rest_of_current hrest] at hb
    rcases mem_cons.mp hb with rfl | hb
    · exact ha
    · have hpair : (c.seek t).rest.Pairwise r := hitems.drop
      rw [Cursor.rest_of_current hrest] at hpair
      exact hmono a b ((pairwise_cons.mp hpair).1 b hb) ha

lemma least_seek (h : Ascending key c.items) {t : α → Bool}
    (hmono : ∀ a b, key a < key b → t a = true → t b = true) :
    Least key c.items (fun a => t a = true) (c.seek t).current := by
  obtain ⟨hbefore, hrest⟩ := seek_split h hmono
  rw [Cursor.current_eq_head]
  exact least_head _ _ h (take_append_drop (c.seek t).index c.items).symm
    (fun b hb => Bool.eq_false_iff.mp (hbefore b hb)) hrest

lemma least_next (h : Ascending key c.items) (ha : c.current = some a) :
    Least key c.items (fun b => key a < key b) c.next.current := by
  have hsplit : c.items = (c.items.take c.index ++ [a]) ++ c.next.rest := by
    rw [append_assoc, singleton_append, ← Cursor.rest_of_current ha]
    exact (take_append_drop c.index c.items).symm
  have hasc := h
  rw [Ascending, hsplit, pairwise_append, pairwise_append] at hasc
  obtain ⟨⟨-, -, hpre⟩, -, hpost⟩ := hasc
  rw [Cursor.current_eq_head]
  refine least_head _ _ h hsplit (fun b hb => ?_) (fun b hb => hpost a (by simp) b hb)
  rcases mem_append.mp hb with hb | hb
  · exact (hpre b hb a (by simp)).not_gt
  · rw [mem_singleton.mp hb]
    exact lt_irrefl _

lemma upTo_getLast : c.upTo.getLast? = c.current := by
  rcases hcur : c.current with _ | a
  · rw [(Cursor.upTo_of_invalid hcur).1]
    rfl
  · rw [(Cursor.upTo_of_current hcur).1, getLast?_concat]

lemma greatest_prev (h : Ascending key c.items) (ha : c.current = some a) :
    Greatest key c.items (fun b => key b < key a) c.prev.current := by
  have hsplit : c.items = c.prev.upTo ++ a :: c.after := by
    rw [← (Cursor.upTo_of_current ha).2]
    exact (Cursor.upTo_append_after (c := c.prev)).symm
  have hasc := h
  rw [Ascending, hsplit, pairwise_append] at hasc
  obtain ⟨-, hafter, hpre⟩ := hasc
  rw [← upTo_getLast]
  refine greatest_getLast _ _ h hsplit (fun b hb => hpre b hb a (by simp)) (fun b hb => ?_)
  rcases mem_cons.mp hb with rfl | hb
  · exact lt_irrefl _
  · exact ((pairwise_cons.mp hafter).1 b hb).not_gt

end Ordered

end Mai.ListCursor
