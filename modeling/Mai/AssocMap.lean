import Mathlib

/-! Association lists that hold one value for each key, and insertion that keeps an old value. -/
namespace Mai.AssocMap

variable {K V : Type} [DecidableEq K] {m : AList fun _ : K => V}

def find (m : AList fun _ : K => V) (k : K) : Option V := m.lookup k

lemma find_insert (m : AList fun _ : K => V) (k : K) (v : V) : find (m.insert k v) k = some v :=
  AList.lookup_insert m

lemma find_insert_ne {k k' : K} (h : k' ≠ k) (v : V) :
    find (m.insert k v) k' = find m k' :=
  AList.lookup_insert_ne h

lemma find_eq_none {k : K} : find m k = none ↔ k ∉ m := AList.lookup_eq_none

def emplace (k : K) (v : V) (m : AList fun _ : K => V) : AList fun _ : K => V :=
  if k ∈ m then m else m.insert k v

lemma emplace_of_notMem {k : K} (h : k ∉ m) (v : V) : emplace k v m = m.insert k v :=
  if_neg h

end Mai.AssocMap
