import Mai.IndexChain
import Mai.SortedInsert

/-! The skip list (`core/skip-list.h`). Nodes are numbered in the order of their allocation; 0 is
the null pointer and 1 the head. -/
namespace Mai.CoreSkipList
open IndexChain SortedInsert Function List Option

variable {K : Type*}

/-- The keys of the nodes behind the head, and the `next_` pointer of each node at each level. -/
structure SkipList (K : Type*) where
  keys : List K
  next : ℕ → ℕ → ℕ
  maxHeight : ℕ

def kMaxHeight : ℕ := 12
def kBranching : ℕ := 4
def head : ℕ := 1

namespace SkipList

def empty : SkipList K := ⟨[], fun _ _ => 0, 1⟩

def keyAt (s : SkipList K) : ℕ → Option K
  | n + 2 => s.keys[n]?
  | _ => none

def keyIsAfterNode (compare : K → K → Ordering) (s : SkipList K) (key : K) (n : ℕ) : Bool :=
  (s.keyAt n).any fun k => compare k key = .lt

/-- The loop that `FindGreaterOrEqual`, `FindLessThan` and `FindLast` share: along a level while the
next node is to be passed, then down. The node it stops at, and the node it left each level at. -/
def descend (s : SkipList K) (passes : ℕ → Bool) : ℕ → ℕ → ℕ → (ℕ → ℕ) → Option (ℕ × (ℕ → ℕ))
  | 0, _, _, _ => none
  | fuel + 1, level, x, prev =>
    if passes (s.next level x) then descend s passes fuel level (s.next level x) prev
    else
      let prev := update prev level x
      match level with
      | 0 => some (x, prev)
      | level + 1 => descend s passes fuel level x prev

def turns (s : SkipList K) : ℕ := s.maxHeight * (s.keys.length + 1)

def search (s : SkipList K) (passes : ℕ → Bool) : Option (ℕ × (ℕ → ℕ)) :=
  s.descend passes s.turns (s.maxHeight - 1) head fun _ => 0

def findGreaterOrEqual (compare : K → K → Ordering) (s : SkipList K) (key : K) :
    Option (ℕ × (ℕ → ℕ)) :=
  (s.search (keyIsAfterNode compare s key)).map fun (x, prev) => (s.next 0 x, prev)

def findLessThan (compare : K → K → Ordering) (s : SkipList K) (key : K) : Option ℕ :=
  (s.search (keyIsAfterNode compare s key)).map Prod.fst

def findLast (s : SkipList K) : Option ℕ := (s.search fun n => n ≠ 0).map Prod.fst

/-- `RandomHeight` from the numbers that `rand_` gives; the numbers after the last one are none of
`kBranching`. -/
def randomHeight (height : ℕ) : List ℕ → ℕ
  | [] => height
  | r :: rand => if height < kMaxHeight ∧ r % kBranching = 0 then randomHeight (height + 1) rand
      else height

/-- The new node goes behind `prev` at each of its levels; levels that were empty begin with it. -/
def link (s : SkipList K) (key : K) (height : ℕ) (prev : ℕ → ℕ) : SkipList K :=
  let prev := fun i => if s.maxHeight ≤ i then head else prev i
  let x := s.keys.length + 2
  { keys := s.keys ++ [key]
    next := fun i =>
      if i < height then update (update (s.next i) x (s.next i (prev i))) (prev i) x else s.next i
    maxHeight := max s.maxHeight height }

def put (compare : K → K → Ordering) (s : SkipList K) (key : K) (rand : List ℕ) :
    Option (SkipList K) :=
  (s.findGreaterOrEqual compare key).map fun (_, prev) => s.link key (randomHeight 1 rand) prev

end SkipList

section Search
variable {s : SkipList K} {passes : ℕ → Bool} {level x : ℕ} {before rest : List ℕ} {prev : ℕ → ℕ}

lemma SkipList.descend_pass (fuel : ℕ) (hlinked : Linked (s.next level) x (x :: (before ++ rest)))
    (hbefore : ∀ n ∈ before, passes n = true) :
    s.descend passes (fuel + before.length) level x prev =
      s.descend passes fuel level (before.getLastD x) prev := by
  induction before generalizing x with
  | nil => rfl
  | cons n before ih =>
    have hnext : s.next level x = n := hlinked.next_eq
    rw [length_cons, ← add_assoc, SkipList.descend, hnext, if_pos (hbefore n (by simp))]
    have htail : Linked (s.next level) n (n :: (before ++ rest)) := by
      have := hlinked.2.2
      rwa [hnext] at this
    rw [ih htail fun m hm => hbefore m (by simp [hm])]
    cases before <;> rfl

structure Shape (s : SkipList K) (levels : ℕ → List ℕ) : Prop where
  linked : ∀ l, Linked (s.next l) head (head :: levels l)
  sublist : ∀ l, (levels (l + 1)).Sublist (levels l)
  above : ∀ l, s.maxHeight ≤ l → levels l = []
  positive : 0 < s.maxHeight
  size : (levels 0).length = s.keys.length

variable {levels : ℕ → List ℕ}

lemma Shape.sublist_of_le (h : Shape s levels) {i j : ℕ} (hij : i ≤ j) :
    (levels j).Sublist (levels i) := by
  induction j, hij using Nat.le_induction with
  | base => exact List.Sublist.refl _
  | succ j _ ih => exact (h.sublist j).trans ih

def lastPassed (passes : ℕ → Bool) (levels : ℕ → List ℕ) (level : ℕ) : ℕ :=
  ((levels level).filter passes).getLastD head

lemma Shape.level_eq (h : Shape s levels)
    (hpass : (levels 0).Pairwise fun a b => passes b = true → passes a = true) (level : ℕ) :
    levels level = (levels level).filter passes ++ (levels level).filter fun n => !passes n :=
  eq_filter_append (hpass.sublist (h.sublist_of_le (Nat.zero_le level)))

lemma Shape.passing (h : Shape s levels)
    (hpass : (levels 0).Pairwise fun a b => passes b = true → passes a = true)
    (hx : x = head ∨ x ∈ (levels level).filter passes) :
    ∃ rest, Linked (s.next level) x (x :: (rest ++ (levels level).filter fun n => !passes n)) ∧
      (∀ n ∈ rest, passes n = true) ∧ rest.length ≤ s.keys.length ∧
        rest.getLastD x = lastPassed passes levels level := by
  have hlinked := h.linked level
  rw [h.level_eq hpass level] at hlinked
  have hlength : ((levels level).filter passes).length ≤ s.keys.length :=
    h.size ▸ (filter_sublist.trans (h.sublist_of_le (Nat.zero_le level))).length_le
  rcases hx with rfl | hx
  · exact ⟨_, hlinked, fun n hn => (mem_filter.mp hn).2, hlength, rfl⟩
  · obtain ⟨a, b, hab⟩ := append_of_mem hx
    rw [hab] at hlinked hlength
    refine ⟨b, ?_, fun n hn => ?_, ?_, ?_⟩
    · rw [append_assoc, cons_append, ← cons_append] at hlinked
      exact hlinked.suffix
    · exact (mem_filter.mp (hab ▸ by simp [hn] : n ∈ (levels level).filter passes)).2
    · rw [length_append, length_cons] at hlength
      omega
    · rw [lastPassed, hab, getLastD_append_cons]

lemma Shape.descend_level (h : Shape s levels) (hzero : passes 0 = false)
    (hpass : (levels 0).Pairwise fun a b => passes b = true → passes a = true) (prev : ℕ → ℕ)
    {fuel : ℕ} (hfuel : s.keys.length + 1 ≤ fuel)
    (hx : x = head ∨ x ∈ (levels level).filter passes) :
    ∃ left, fuel ≤ left + (s.keys.length + 1) ∧
      s.descend passes fuel level x prev =
        s.descend passes (left + 1) level (lastPassed passes levels level) prev ∧
      passes (s.next level (lastPassed passes levels level)) = false := by
  obtain ⟨rest, hlinked, hrest, hlength, hlast⟩ := h.passing hpass hx
  refine ⟨fuel - rest.length - 1, by omega, ?_, ?_⟩
  · rw [← hlast, ← SkipList.descend_pass _ hlinked hrest]
    congr 1
    omega
  · obtain ⟨a, ha⟩ := exists_cons_eq_concat x rest
    rw [← cons_append, ha, append_assoc, singleton_append, hlast] at hlinked
    rw [hlinked.suffix.next_eq]
    cases hstop : (levels level).filter fun n => !passes n with
    | nil => exact hzero
    | cons n stop =>
      have hn : n ∈ (levels level).filter fun n => !passes n := hstop ▸ mem_cons_self
      simpa using (mem_filter.mp hn).2

lemma lastPassed_mem (h : Shape s levels) :
    lastPassed passes levels (level + 1) = head ∨
      lastPassed passes levels (level + 1) ∈ (levels level).filter passes := by
  rw [lastPassed]
  cases hlast : (levels (level + 1)).filter passes using List.reverseRecOn with
  | nil => exact .inl rfl
  | append_singleton a n =>
    refine .inr (((h.sublist level).filter passes).subset ?_)
    rw [hlast]
    simp

lemma Shape.descend_eq (h : Shape s levels) (hzero : passes 0 = false)
    (hpass : (levels 0).Pairwise fun a b => passes b = true → passes a = true) (level fuel : ℕ)
    (prev : ℕ → ℕ) (hfuel : (level + 1) * (s.keys.length + 1) ≤ fuel)
    (hx : x = head ∨ x ∈ (levels level).filter passes) :
    ∃ prev', s.descend passes fuel level x prev = some (lastPassed passes levels 0, prev') ∧
      ∀ i, prev' i = if i ≤ level then lastPassed passes levels i else prev i := by
  induction level generalizing x fuel prev with
  | zero =>
    have hturns : s.keys.length + 1 ≤ fuel := by omega
    obtain ⟨left, -, heq, hstop⟩ := h.descend_level hzero hpass prev hturns hx
    refine ⟨update prev 0 (lastPassed passes levels 0),
      heq.trans (by rw [SkipList.descend, hstop]; rfl), fun i => ?_⟩
    by_cases hi : i = 0
    · simp [hi]
    · rw [update_of_ne hi, if_neg (by omega)]
  | succ level ih =>
    have hsplit : (level + 1 + 1) * (s.keys.length + 1) =
        (level + 1) * (s.keys.length + 1) + (s.keys.length + 1) := by
      ring
    have hturns : s.keys.length + 1 ≤ fuel := by omega
    obtain ⟨left, hleft, heq, hstop⟩ := h.descend_level hzero hpass prev hturns hx
    obtain ⟨prev', hdescend, hprev⟩ :=
      ih left (update prev (level + 1) (lastPassed passes levels (level + 1))) (by omega)
        (lastPassed_mem h)
    refine ⟨prev', heq.trans (by rw [SkipList.descend, hstop]; exact hdescend), fun i => ?_⟩
    rw [hprev]
    by_cases hi : i = level + 1
    · simp [hi]
    · rw [update_of_ne hi]
      exact if_congr (by omega) rfl rfl

lemma Shape.search_eq (h : Shape s levels) (hzero : passes 0 = false)
    (hpass : (levels 0).Pairwise fun a b => passes b = true → passes a = true) :
    ∃ prev, s.search passes = some (lastPassed passes levels 0, prev) ∧
      ∀ i < s.maxHeight, prev i = lastPassed passes levels i := by
  have hpos := h.positive
  obtain ⟨prev, hdescend, hprev⟩ := h.descend_eq hzero hpass (s.maxHeight - 1) s.turns (fun _ => 0)
    (by rw [Nat.sub_add_cancel hpos, SkipList.turns]) (.inl rfl)
  exact ⟨prev, hdescend, fun i hi => by rw [hprev, if_pos (by omega)]⟩

end Search

section Contents
variable {compare : K → K → Ordering} {s : SkipList K} {levels : ℕ → List ℕ} {l : List K} {key : K}
  {passes : ℕ → Bool} {prev : ℕ → ℕ}

structure Holds (compare : K → K → Ordering) (s : SkipList K) (levels : ℕ → List ℕ) (l : List K) :
    Prop
    extends Shape s levels where
  keyed : (levels 0).map s.keyAt = l.map some
  sorted : l.Pairwise fun a b => compare b a ≠ .lt

lemma SkipList.keyAt_lt {n : ℕ} {k : K} (h : s.keyAt n = some k) :
    2 ≤ n ∧ n < s.keys.length + 2 := by
  match n, h with
  | n + 2, h =>
    obtain ⟨hn, -⟩ := List.getElem?_eq_some_iff.mp h
    omega

lemma Holds.mem_lt (h : Holds compare s levels l) {i n : ℕ} (hn : n ∈ levels i) :
    2 ≤ n ∧ n < s.keys.length + 2 := by
  have hbottom : n ∈ levels 0 := (h.sublist_of_le (Nat.zero_le i)).subset hn
  have hkey : s.keyAt n ∈ l.map some := h.keyed ▸ List.mem_map_of_mem hbottom
  obtain ⟨k, -, hk⟩ := List.mem_map.mp hkey
  exact SkipList.keyAt_lt hk.symm

lemma Holds.passes_pairwise [Std.TransCmp compare] (h : Holds compare s levels l) (key : K) :
    (levels 0).Pairwise fun a b =>
      SkipList.keyIsAfterNode compare s key b = true → SkipList.keyIsAfterNode compare s key a =
        true := by
  have hsome : (l.map some).Pairwise fun a b : Option K =>
      (b.any fun k => compare k key = .lt) = true → (a.any fun k => compare k key = .lt) =
        true := by
    refine pairwise_map.mpr (h.sorted.imp fun hab hb => ?_)
    simp only [any_some, decide_eq_true_eq] at hb ⊢
    exact before_trans hab hb
  rw [← h.keyed] at hsome
  exact pairwise_map.mp hsome

lemma Holds.filter_keyed (h : Holds compare s levels l) (p : Option K → Bool) :
    ((levels 0).filter fun n => p (s.keyAt n)).map s.keyAt =
      (l.filter fun k => p (some k)).map some := by
  have hfilter := List.filter_map (f := s.keyAt) (p := p) (l := levels 0)
  rw [comp_def] at hfilter
  rw [← hfilter, h.keyed, List.filter_map]
  rfl

lemma Shape.next_lastPassed (h : Shape s levels)
    (hpass : (levels 0).Pairwise fun a b => passes b = true → passes a = true) (level : ℕ) :
    ∃ a, head :: (levels level).filter passes = a ++ [lastPassed passes levels level] ∧
      Linked (s.next level) head (a ++ lastPassed passes levels level ::
        (levels level).filter fun n => !passes n) := by
  obtain ⟨a, ha⟩ := exists_cons_eq_concat head ((levels level).filter passes)
  refine ⟨a, ha, ?_⟩
  have hlinked := h.linked level
  rw [h.level_eq hpass level, ← cons_append, ha, append_assoc, singleton_append] at hlinked
  exact hlinked

lemma Holds.findGreaterOrEqual_eq [Std.TransCmp compare] (h : Holds compare s levels l) (key : K) :
    ∃ n prev, s.findGreaterOrEqual compare key = some (n, prev) ∧
      s.keyAt n = l.find? (fun k => !(compare k key = .lt)) ∧
      ∀ i < s.maxHeight, prev i = lastPassed (SkipList.keyIsAfterNode compare s key) levels i := by
  have hpass := h.passes_pairwise key
  obtain ⟨prev, hsearch, hprev⟩ := h.search_eq rfl hpass
  refine ⟨_, prev, by rw [SkipList.findGreaterOrEqual, hsearch]; rfl, ?_, hprev⟩
  obtain ⟨a, -, hlinked⟩ := h.next_lastPassed hpass 0
  have hkeys := congrArg List.head? (h.filter_keyed fun o => !(o.any fun k => compare k key = .lt))
  simp only [head?_map, any_some] at hkeys
  rw [hlinked.suffix.next_eq, ← head?_filter]
  change Option.map s.keyAt
    ((levels 0).filter fun n => !SkipList.keyIsAfterNode compare s key n).head? = _ at hkeys
  cases hrest : (levels 0).filter fun n => !SkipList.keyIsAfterNode compare s key n with
  | nil =>
    rw [hrest] at hkeys
    rw [map_eq_none_iff.mp hkeys.symm]
    rfl
  | cons n rest =>
    rw [hrest] at hkeys
    obtain ⟨k, hk, heq⟩ := map_eq_some_iff.mp hkeys.symm
    rw [hk, heq]
    rfl

lemma le_randomHeight (height : ℕ) (rand : List ℕ) :
    height ≤ SkipList.randomHeight height rand := by
  induction rand generalizing height with
  | nil => exact le_rfl
  | cons r rand ih =>
    rw [SkipList.randomHeight]
    split_ifs
    · exact (Nat.le_succ height).trans (ih (height + 1))
    · exact le_rfl

def linkLevels (passes : ℕ → Bool) (levels : ℕ → List ℕ) (x height i : ℕ) : List ℕ :=
  if i < height then (levels i).filter passes ++ x :: (levels i).filter fun n => !passes n
  else levels i

lemma Shape.linkLevels_linked {height : ℕ} (h : Shape s levels)
    (hpass : (levels 0).Pairwise fun a b => passes b = true → passes a = true)
    (hprev : ∀ i < s.maxHeight, prev i = lastPassed passes levels i)
    (hfresh : ∀ i, s.keys.length + 2 ∉ levels i) (i : ℕ) :
    Linked ((s.link key height prev).next i) head
      (head :: linkLevels passes levels (s.keys.length + 2) height i) := by
  by_cases hi : i < height
  · have hlast : (if s.maxHeight ≤ i then head else prev i) = lastPassed passes levels i := by
      split_ifs with hmax
      · rw [lastPassed, h.above i hmax]; rfl
      · exact hprev i (by omega)
    obtain ⟨a, ha, hlinked⟩ := h.next_lastPassed hpass i
    have hmem : s.keys.length + 2 ∉ a ++ lastPassed passes levels i :: (levels i).filter fun n =>
        !passes n := by
      rw [← singleton_append, ← append_assoc, ← ha, cons_append, ← h.level_eq hpass i, mem_cons,
        not_or]
      exact ⟨by simp [head], hfresh i⟩
    have hne : s.keys.length + 2 ≠ lastPassed passes levels i := fun he => hmem (by simp [he])
    rw [linkLevels, if_pos hi, ← cons_append, ha, append_assoc, singleton_append]
    simp only [SkipList.link, if_pos hi, hlast]
    refine hlinked.insertAfter (by omega) hmem (update_self ..) ?_ fun k hk hkx => ?_
    · rw [update_of_ne hne, update_self]
    · rw [update_of_ne hk, update_of_ne hkx]
  · rw [linkLevels, if_neg hi]
    simp only [SkipList.link, if_neg hi]
    exact h.linked i

lemma linkLevels_sublist {height x : ℕ} (h : Shape s levels)
    (hpass : (levels 0).Pairwise fun a b => passes b = true → passes a = true) (i : ℕ) :
    (linkLevels passes levels x height (i + 1)).Sublist (linkLevels passes levels x height i) := by
  rw [linkLevels, linkLevels]
  split_ifs with hsucc hi hi
  · exact ((h.sublist i).filter _).append (((h.sublist i).filter _).cons_cons x)
  · omega
  · refine (h.sublist i).trans ?_
    nth_rewrite 1 [h.level_eq hpass i]
    exact (List.Sublist.refl _).append (sublist_cons_self _ _)
  · exact h.sublist i

lemma keyAt_link {height n : ℕ} (hn : n < s.keys.length + 2) :
    (s.link key height prev).keyAt n = s.keyAt n := by
  match n with
  | 0 => rfl
  | 1 => rfl
  | n + 2 => exact getElem?_append_left (by omega)

lemma keyAt_link_new {height : ℕ} : (s.link key height prev).keyAt (s.keys.length + 2) = some key :=
  getElem?_concat_length

/-- `Put` adds the key in its place and keeps the levels. -/
theorem Holds.put_eq [Std.TransCmp compare] (h : Holds compare s levels l) (key : K)
    (rand : List ℕ) :
    ∃ s' levels', s.put compare key rand = some s' ∧
      Holds compare s' levels' (insertKey compare key l) := by
  obtain ⟨n, prev, hfind, -, hprev⟩ := h.findGreaterOrEqual_eq key
  have hpass := h.passes_pairwise key
  have hheight : 0 < SkipList.randomHeight 1 rand := le_randomHeight 1 rand
  have hfresh (i : ℕ) : s.keys.length + 2 ∉ levels i :=
    fun hmem => absurd (h.mem_lt hmem).2 (lt_irrefl _)
  refine ⟨_, linkLevels (SkipList.keyIsAfterNode compare s key) levels (s.keys.length + 2)
    (SkipList.randomHeight 1 rand), by rw [SkipList.put, hfind]; rfl, ⟨?_, ?_, ?_, ?_, ?_⟩, ?_, ?_⟩
  · exact h.linkLevels_linked hpass hprev hfresh
  · exact linkLevels_sublist h.toShape hpass
  · intro i hi
    have hmax : max s.maxHeight (SkipList.randomHeight 1 rand) ≤ i := hi
    rw [linkLevels, if_neg (by omega), h.above i (by omega)]
  · exact lt_max_of_lt_left h.positive
  · have hlength := congrArg List.length (h.level_eq hpass 0)
    rw [length_append, h.size] at hlength
    have hkeys : (s.link key (SkipList.randomHeight 1 rand) prev).keys.length = s.keys.length + 1 :=
      length_append
    rw [linkLevels, if_pos hheight, length_append, length_cons, hkeys]
    omega
  · have hold (p : ℕ → Bool) :
        ((levels 0).filter p).map (s.link key (SkipList.randomHeight 1 rand) prev).keyAt =
        ((levels 0).filter p).map s.keyAt :=
      map_congr_left fun n hn => keyAt_link (h.mem_lt (mem_of_mem_filter hn)).2
    rw [linkLevels, if_pos hheight, map_append, map_cons, hold, hold, keyAt_link_new, insertKey,
      map_append, map_cons]
    exact congrArg₂ (· ++ some key :: ·)
      (h.filter_keyed fun o => o.any fun k => compare k key = .lt)
      (h.filter_keyed fun o => !(o.any fun k => compare k key = .lt))
  · exact insertKey_sorted h.sorted

lemma holds_empty : Holds compare (SkipList.empty : SkipList K) (fun _ => []) [] where
  linked _ := ⟨rfl, by decide, rfl⟩
  sublist _ := List.Sublist.refl _
  above _ _ := rfl
  positive := Nat.one_pos
  size := rfl
  keyed := rfl
  sorted := List.Pairwise.nil

end Contents

end Mai.CoreSkipList
