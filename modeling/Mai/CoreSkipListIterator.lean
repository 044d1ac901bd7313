import Mai.CoreSkipList

/-! The iterator of the skip list (`SkipList::Iterator` of `core/skip-list.h`), after any puts. An
iterator is the node that it stands on. -/
namespace Mai.CoreSkipListIterator
open IndexChain SortedInsert CoreSkipList Option

variable {K : Type*}

def putAll (compare : K → K → Ordering) (s : SkipList K) (puts : List (K × List ℕ)) :
    Option (SkipList K) :=
  puts.foldlM (fun s p => s.put compare p.1 p.2) s

namespace Iterator

def next (s : SkipList K) (node : ℕ) : ℕ := s.next 0 node

def orNull (node : ℕ) : ℕ := if node = head then 0 else node

def prev (compare : K → K → Ordering) (s : SkipList K) (node : ℕ) : Option ℕ :=
  (s.keyAt node).bind fun key => (s.findLessThan compare key).map orNull

def seek (compare : K → K → Ordering) (s : SkipList K) (target : K) : Option ℕ :=
  (s.findGreaterOrEqual compare target).map Prod.fst

def seekToFirst (s : SkipList K) : ℕ := s.next 0 head

def seekToLast (s : SkipList K) : Option ℕ := s.findLast.map orNull

def walk (s : SkipList K) : ℕ → ℕ → List ℕ
  | 0, _ => []
  | fuel + 1, node => if node = 0 then [] else node :: walk s fuel (next s node)

def Shows (s : SkipList K) (node : ℕ) : Option K → Prop
  | none => node = 0
  | some k => node ≠ 0 ∧ s.keyAt node = some k

end Iterator

section Steps
variable {compare : K → K → Ordering} {s : SkipList K} {levels : ℕ → List ℕ} {l : List K}

lemma walk_eq_of_linked {nodes : List ℕ} {node fuel : ℕ} (h : Linked (s.next 0) node nodes)
    (hfuel : nodes.length ≤ fuel) :
    Iterator.walk s fuel node = nodes := by
  induction nodes generalizing node fuel with
  | nil =>
    rw [linked_nil.mp h]
    cases fuel <;> rfl
  | cons n nodes ih =>
    obtain ⟨rfl, hne, htail⟩ := h
    rw [List.length_cons] at hfuel
    obtain ⟨fuel, rfl⟩ : ∃ f, fuel = f + 1 := ⟨fuel - 1, by omega⟩
    rw [Iterator.walk, if_neg hne, Iterator.next, ih htail (by omega)]

lemma shows_of_mem (h : Holds compare s levels l) {n : ℕ} (hn : n = 0 ∨ n ∈ levels 0) :
    Iterator.Shows s n (s.keyAt n) := by
  rcases hn with rfl | hn
  · rfl
  · have hkey : s.keyAt n ∈ l.map some := h.keyed ▸ List.mem_map_of_mem hn
    obtain ⟨k, -, hk⟩ := List.mem_map.mp hkey
    rw [← hk]
    exact ⟨by have := (h.mem_lt hn).1; omega, hk.symm⟩

lemma shows_getLast (h : Holds compare s levels l) {nodes : List ℕ} {keys : List K}
    (hsub : nodes.Sublist (levels 0)) (hkeys : nodes.map s.keyAt = keys.map some) :
    Iterator.Shows s (Iterator.orNull (nodes.getLastD head)) keys.getLast? := by
  have hlast := congrArg List.getLast? hkeys
  rw [List.getLast?_map, List.getLast?_map] at hlast
  cases hn : nodes.getLast? with
  | none =>
    rw [hn] at hlast
    rw [map_eq_none_iff.mp hlast.symm, List.getLast?_eq_none_iff.mp hn]
    rfl
  | some n =>
    have hmem : n ∈ levels 0 := hsub.subset (List.mem_of_getLast? hn)
    have hlt := (h.mem_lt hmem).1
    rw [hn] at hlast
    obtain ⟨k, hk, hkey⟩ := map_eq_some_iff.mp hlast.symm
    rw [hk, List.getLastD_eq_getLast?, hn, getD_some, Iterator.orNull,
      if_neg (by simp [head]; omega)]
    exact ⟨by omega, hkey.symm⟩

variable [Std.TransCmp compare]

lemma seek_eq (h : Holds compare s levels l) (target : K) :
    ∃ n, Iterator.seek compare s target = some n ∧
      Iterator.Shows s n (l.find? fun k => !(compare k target = .lt)) := by
  obtain ⟨n, prev, hfind, hkey, -⟩ := h.findGreaterOrEqual_eq target
  refine ⟨n, by rw [Iterator.seek, hfind]; rfl, ?_⟩
  rw [← hkey]
  apply shows_of_mem h
  obtain ⟨prev', hsearch, -⟩ := h.search_eq rfl (h.passes_pairwise target)
  obtain ⟨a, -, hlinked⟩ := h.next_lastPassed (h.passes_pairwise target) 0
  rw [SkipList.findGreaterOrEqual, hsearch, map_some, Option.some.injEq, Prod.mk.injEq] at hfind
  rw [← hfind.1, hlinked.suffix.next_eq]
  cases hrest : (levels 0).filter fun n => !SkipList.keyIsAfterNode compare s target n with
  | nil => exact .inl rfl
  | cons m rest =>
    have hm : m ∈ (levels 0).filter fun n => !SkipList.keyIsAfterNode compare s target n :=
      hrest ▸ List.mem_cons_self
    exact .inr (List.mem_of_mem_filter hm)

lemma prev_eq (h : Holds compare s levels l) {node : ℕ} {k : K} (hk : s.keyAt node = some k) :
    ∃ n, Iterator.prev compare s node = some n ∧
      Iterator.Shows s n (l.filter fun a => compare a k = .lt).getLast? := by
  obtain ⟨prev', hsearch, -⟩ := h.search_eq rfl (h.passes_pairwise k)
  refine ⟨Iterator.orNull (lastPassed (SkipList.keyIsAfterNode compare s k) levels 0), ?_, ?_⟩
  · rw [Iterator.prev, hk, bind_some, SkipList.findLessThan, hsearch]
    rfl
  · exact shows_getLast h List.filter_sublist
      (h.filter_keyed fun o => o.any fun a => compare a k = .lt)

omit [Std.TransCmp compare] in
lemma seekToLast_eq (h : Holds compare s levels l) :
    ∃ n, Iterator.seekToLast s = some n ∧ Iterator.Shows s n l.getLast? := by
  have hall : ∀ n ∈ levels 0, decide (n ≠ 0) = true := by
    intro n hn
    have := (h.mem_lt hn).1
    simp only [decide_eq_true_eq]
    omega
  have hpass : (levels 0).Pairwise fun a b => decide (b ≠ 0) = true → decide (a ≠ 0) = true :=
    List.Pairwise.imp_of_mem (fun ha _ _ _ => hall _ ha)
      (List.pairwise_of_forall fun _ _ => trivial)
  obtain ⟨prev', hsearch, -⟩ := h.search_eq rfl hpass
  refine ⟨Iterator.orNull (lastPassed (fun n => n ≠ 0) levels 0), ?_, ?_⟩
  · rw [Iterator.seekToLast, SkipList.findLast, hsearch]
    rfl
  · rw [lastPassed, List.filter_eq_self.mpr hall]
    exact shows_getLast h (List.Sublist.refl _) h.keyed

end Steps

section Puts
variable {compare : K → K → Ordering} [Std.TransCmp compare]

lemma putAll_holds {s : SkipList K} {levels : ℕ → List ℕ} {l : List K}
    (h : Holds compare s levels l) (puts : List (K × List ℕ)) :
    ∃ s' levels' l', putAll compare s puts = some s' ∧ Holds compare s' levels' l' ∧
      l'.Perm (puts.map Prod.fst ++ l) := by
  induction puts generalizing s levels l with
  | nil => exact ⟨s, levels, l, rfl, h, List.Perm.refl _⟩
  | cons p puts ih =>
    obtain ⟨s₁, levels₁, hput, h₁⟩ := h.put_eq p.1 p.2
    obtain ⟨s', levels', l', hputs, h', hperm⟩ := ih h₁
    refine ⟨s', levels', l', ?_, h', ?_⟩
    · rw [putAll, List.foldlM_cons, hput]
      exact hputs
    · rw [List.map_cons, List.cons_append]
      exact hperm.trans ((insertKey_perm.append_left _).trans List.perm_middle)

omit [Std.TransCmp compare] in
lemma level_sorted {s : SkipList K} {levels : ℕ → List ℕ} {l : List K}
    (h : Holds compare s levels l) (hasc : Ascending compare l) (i : ℕ) :
    ∃ keys, (levels i).map s.keyAt = keys.map some ∧ Ascending compare keys := by
  have hsub : ((levels i).map s.keyAt).Sublist (l.map some) :=
    h.keyed ▸ (h.sublist_of_le (Nat.zero_le i)).map _
  obtain ⟨keys, hkeys, heq⟩ := List.sublist_map_iff.mp hsub
  exact ⟨keys, heq, List.Pairwise.sublist hkeys hasc⟩

/-- After any puts of different keys, with any heights: the levels are sorted chains, each among the
nodes of the level below, and the iterator finds the keys by their order. -/
theorem skipList_sorted (puts : List (K × List ℕ))
    (hdistinct : (puts.map Prod.fst).Pairwise fun a b => compare a b ≠ .eq) :
    ∃ s levels keys, putAll compare SkipList.empty puts = some s ∧ Shape s levels ∧
      (∀ i, ∃ ks, (levels i).map s.keyAt = ks.map some ∧ Ascending compare ks) ∧
      keys.Perm (puts.map Prod.fst) ∧ Ascending compare keys ∧
      (∀ fuel, keys.length ≤ fuel →
        (Iterator.walk s fuel (Iterator.seekToFirst s)).map s.keyAt = keys.map some) ∧
      (∀ target, ∃ n o, Iterator.seek compare s target = some n ∧ Iterator.Shows s n o ∧
        First compare keys (fun k => compare k target ≠ .lt) o) ∧
      (∀ node k, s.keyAt node = some k → ∃ n o, Iterator.prev compare s node = some n ∧
        Iterator.Shows s n o ∧
        Last compare keys (fun a => compare a k = .lt) o) ∧
      ∃ n o, Iterator.seekToLast s = some n ∧ Iterator.Shows s n o ∧
        Last compare keys (fun _ => True) o := by
  obtain ⟨s, levels, keys, hputs, h, hperm⟩ := putAll_holds (holds_empty : Holds compare _ _ _) puts
  rw [List.append_nil] at hperm
  have hasc : Ascending compare keys := ascending_of_perm h.sorted hperm hdistinct
  refine ⟨s, levels, keys, hputs, h.toShape, level_sorted h hasc, hperm, hasc, ?_, ?_, ?_, ?_⟩
  · intro fuel hfuel
    have hlength := congrArg List.length h.keyed
    rw [List.length_map, List.length_map] at hlength
    have hlinked : Linked (s.next 0) (Iterator.seekToFirst s) (levels 0) := (h.linked 0).2.2
    rw [walk_eq_of_linked hlinked (by omega), h.keyed]
  · intro target
    obtain ⟨n, hseek, hshows⟩ := seek_eq h target
    refine ⟨n, _, hseek, hshows, ?_⟩
    simpa using first_find? hasc fun k => !(compare k target = .lt)
  · intro node k hk
    obtain ⟨n, hprev, hshows⟩ := prev_eq h hk
    refine ⟨n, _, hprev, hshows, ?_⟩
    simpa using last_filter hasc fun a => compare a k = .lt
  · obtain ⟨n, hlast, hshows⟩ := seekToLast_eq h
    refine ⟨n, _, hlast, hshows, ?_⟩
    simpa using last_filter hasc fun _ => true

end Puts

theorem skipList_sorted_threeKeys :
    ∃ s levels keys, putAll compare SkipList.empty [(3, [0]), (1, []), (2, [0, 4, 8, 1])] = some s ∧
      Shape s levels ∧
      keys.Perm [3, 1, 2] ∧ Ascending compare keys ∧
      (Iterator.walk s 3 (Iterator.seekToFirst s)).map s.keyAt = keys.map some := by
  obtain ⟨s, levels, keys, hputs, hshape, -, hperm, hasc, hwalk, -⟩ :=
    @skipList_sorted ℕ compare _ [(3, [0]), (1, []), (2, [0, 4, 8, 1])] (by decide)
  exact ⟨s, levels, keys, hputs, hshape, hperm, hasc, hwalk 3 hperm.length_eq.le⟩

end Mai.CoreSkipListIterator
