import Mathlib.Data.Set.Function

/-! Graphs of records that hold pointers to each other, what can be reached in them and what it
means to move one. -/
namespace Mai.PointerGraph

variable {A B L : Type*}

def RecordGraph (A L : Type*) := A → Option (L × List (Option A))

inductive Reaches (g : RecordGraph A L) (starts : List (Option A)) : A → Prop
  | start {a : A} (hmem : some a ∈ starts) : Reaches g starts a
  | field {a b : A} {l : L} {fields : List (Option A)} (ha : Reaches g starts a)
      (hnode : g a = some (l, fields))
      (hmem : some b ∈ fields) : Reaches g starts b

/-- `g'` holds a copy of what can be reached in `g`: labels and fields are the same, and no two
records share a copy. -/
structure Relocates (g : RecordGraph A L) (g' : RecordGraph B L) (starts : List (Option A))
    (starts' : List (Option B)) (φ : A → B) : Prop where
  entries : starts' = starts.map (Option.map φ)
  injective : Set.InjOn φ {a | Reaches g starts a}
  nodes : ∀ a, Reaches g starts a → ∃ l fields, g a = some (l, fields) ∧
    g' (φ a) = some (l, fields.map (Option.map φ))

section Relocates
variable {g : RecordGraph A L} {g' : RecordGraph B L} {starts : List (Option A)}
  {starts' : List (Option B)} {φ : A → B}

lemma mem_map_some {ps : List (Option A)} {b : B} (hb : some b ∈ ps.map (Option.map φ)) :
    ∃ a, some a ∈ ps ∧ φ a = b := by
  obtain ⟨p, hp, hpb⟩ := List.mem_map.mp hb
  obtain ⟨a, rfl, hab⟩ := Option.map_eq_some_iff.mp hpb
  exact ⟨a, hp, hab⟩

lemma Relocates.onto (hφ : Relocates g g' starts starts' φ) {b : B} (hb : Reaches g' starts' b) :
    ∃ a, Reaches g starts a ∧ φ a = b := by
  induction hb with
  | start hmem =>
    obtain ⟨a, ha, hab⟩ := mem_map_some (hφ.entries ▸ hmem)
    exact ⟨a, .start ha, hab⟩
  | field hb hnode hmem ih =>
    obtain ⟨a, ha, rfl⟩ := ih
    obtain ⟨l, fields, hg, hg'⟩ := hφ.nodes _ ha
    obtain ⟨rfl, rfl⟩ := Prod.mk.inj (Option.some.inj (hnode.symm.trans hg'))
    obtain ⟨c, hc, hcb⟩ := mem_map_some hmem
    exact ⟨c, .field ha hg hc, hcb⟩

end Relocates

end Mai.PointerGraph
