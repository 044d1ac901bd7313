import Mai.LangWriteBarrier

/-!
# Which objects a minor collection promotes

The promote level is an address of the survivor area, but the objects that are compared with
it lie in the area that is left: whether they are below it depends on which of the two areas
comes first in memory.
-/
namespace Mai.LangPromotion

open LangRememberSet LangHeap LangScavenger LangScavengerSteps LangScavengerRun LangObjectGraph
  Option
  LangWriteBarrier RunInvariant

variable {D : Type*} {hash : Slot → ℕ}

structure Places (D : Type*) where
  chunk : Bool → ℕ
  /-- From `chunk` to `limit`. -/
  area : ℕ
  /-- `SemiSpace::size_`, with the header and the bitmap. -/
  size : ℕ
  /-- The bytes that an object takes. -/
  place : D → ℕ
  /-- The quotient of the two, as floating-point numbers, is above a quarter. -/
  rateAbove : ℕ → ℕ → Bool

def offset (m : Places D) (h : Heap D) (area : Bool) (n : ℕ) : ℕ :=
  ((List.range n).map fun i => ((h.objects (.semi area i)).map fun o => m.place o.header).getD
    0).sum

def position (m : Places D) (h : Heap D) : Address → ℕ
  | .semi area i => offset m h area i
  | .old _ => 0

def located (m : Places D) (h : Heap D) : Heap D :=
  { h with raw := fun
      | .semi area i => m.chunk area + offset m h area i
      | .old _ => 0 }

/-- `used` is the distance of `free_` from `chunk` in the area of new objects, and `remaining` is
`latest_minor_remaining_size_`. The code has no `survived`: the bytes that the previous minor
collection has left in the new area. -/
structure State (D : Type*) (hash : Slot → ℕ) where
  heap : Heap D
  records : RememberSet Slot hash
  used : ℕ
  remaining : ℕ
  survived : ℕ

inductive Op (D : Type*)
  | new (old : Bool) (header : D) (length : ℕ)
  | store (slot : Slot) (values : List (Option Address))
  | collect (forcePromote : Bool) (roots : List (Option Address))

def promoteLevel (m : Places D) (s : State D hash) (forcePromote : Bool) : ℕ :=
  if forcePromote then
    m.chunk (!s.heap.original) + offset m s.heap (!s.heap.original) s.heap.surviveFree
  else if m.rateAbove s.remaining m.size then m.chunk (!s.heap.original) + s.remaining
  else m.chunk (!s.heap.original)

def collect (m : Places D) (s : State D hash) (forcePromote : Bool)
    (roots : List (Option Address)) : Option (Scavenger D) :=
  (scavenge (located m s.heap) roots s.records.recorded (promoteLevel m s forcePromote)).map
    Prod.fst

/-- An allocation that does not fit advances `free_` as well. `Flip` returns the bytes of the area
that has been left. -/
def step (m : Places D) (s : State D hash) : Op D → Option (State D hash)
  | .new true header length =>
    some { s with heap := allocate s.heap true header (List.replicate length none) }
  | .new false header length =>
    if m.area ≤ s.used + m.place header then some { s with used := s.used + m.place header }
    else some { s with
      heap := allocate s.heap false header (List.replicate length none)
      used := s.used + m.place header }
  | .store slot values =>
    if (∀ k < values.length, (s.heap.load ⟨slot.host, slot.index + k⟩).isSome = true)
        ∧ ∀ p ∈ values, Exists s.heap p then
      some { s with
        heap := storeAll s.heap slot values
        records := writeBarrier (storeAll s.heap slot values) slot s.records values.length }
    else none
  | .collect forcePromote roots =>
    (collect m s forcePromote roots).map fun t =>
      { heap := t.heap.flip
        records := RememberSet.empty s.records.bucketsShift
        used := offset m t.heap (!s.heap.original) t.heap.surviveFree
        remaining := s.used
        survived := offset m t.heap (!s.heap.original) t.heap.surviveFree }

def start (original : Bool) (bucketsShift : ℕ) : State D hash :=
  ⟨⟨fun _ => none, original, 0, 0, 0, fun _ => 0⟩, RememberSet.empty bucketsShift, 0, 0, 0⟩

def Remembered (s : State D hash) (a : Address) : Prop :=
  ∃ slot ∈ s.records.recorded, s.heap.load slot = some (some a)

def Aged (m : Places D) (s : State D hash) (a : Address) : Prop :=
  m.size < 4 * s.survived ∧ position m s.heap a < s.survived

def Follows (m : Places D) (s : State D hash) : Op D → Prop
  | .collect forcePromote roots => ∀ t, collect m s forcePromote roots = some t →
      ∀ a d, copyOf t a = some d →
        (Heap.inOldArea d = true ↔ forcePromote = true ∨ Aged m s a ∨ Remembered s a)
  | _ => True

def Met (h : Heap D) (roots : List (Option Address)) (slots : List Slot) (promoteLevel : ℕ) :
    Address → Prop :=
  Found h (starts h roots slots) fun a =>
    Promotes h roots slots promoteLevel a ∨ Early h roots slots promoteLevel a

def Sound (m : Places D) (s : State D hash) : Op D → Prop
  | .collect _ roots => Ready (located m s.heap) roots s.records
  | _ => True

/-- The objects that a collection meets lie on the right side of the promote level: a remembered
one below it, if a root refers to it, and any other exactly if it is to be promoted. -/
def Divides (m : Places D) (s : State D hash) : Op D → Prop
  | .collect forcePromote roots =>
    ∀ a, Met (located m s.heap) roots s.records.recorded (promoteLevel m s forcePromote) a →
      (Remembered s a → some a ∈ roots → (located m s.heap).raw a < promoteLevel m s forcePromote)
      ∧ (¬ Remembered s a →
        ((located m s.heap).raw a < promoteLevel m s forcePromote
          ↔ forcePromote = true ∨ Aged m s a))
  | _ => True

section Meeting

variable {h : Heap D} {roots : List (Option Address)} {promoteLevel : ℕ} {a : Address}
  {r : RememberSet Slot hash} {t : Scavenger D}

lemma met_of_early {slots : List Slot} (ha : Early h roots slots promoteLevel a) :
    Met h roots slots promoteLevel a := by
  induction ha with
  | start hmem hnew => exact .start hmem hnew
  | field hearly _ ho hmem hnew ih => exact .field ih (Or.inr hearly) ho hmem hnew

lemma scavenge_spec (hready : Ready h roots r)
    (ht : (scavenge h roots r.recorded promoteLevel).map Prod.fst = some t) :
    (∀ a, copyOf t a ≠ none ↔ Met h roots r.recorded promoteLevel a)
      ∧ ∀ a d, copyOf t a = some d →
        (Heap.inOldArea d = true ↔ Promotes h roots r.recorded promoteLevel a) := by
  rw [scavenge, Option.map_map] at ht
  obtain ⟨v, hv, rfl⟩ := map_eq_some_iff.mp ht
  have hout := hready.outcome hv rfl rfl
  obtain ⟨-, hlate, -⟩ := hready.scanned (M := Met h roots r.recorded promoteLevel)
    (fun _ => met_of_early) (fun a o b ha hp ho hmem hnew => .field ha (Or.inl hp) ho hmem hnew)
    hv rfl rfl
  refine ⟨fun a => ⟨fun hne => ?_, fun ha => ?_⟩, fun a d hd => (hlate.members a d hd).2⟩
  · obtain ⟨d, hd⟩ := ne_none_iff_exists'.mp hne
    exact (hlate.members a d hd).1
  · induction ha with
    | start hmem hnew => exact hout.kept.extends_.ne_none (hout.entries _ hmem hnew)
    | @field a b o _ hthrough ho hmem hnew ih =>
      obtain ⟨d, hd⟩ := ne_none_iff_exists'.mp ih
      obtain ⟨o', c, ho', -, -, -, -, hdone⟩ := hlate.copies a d hd
      obtain rfl : o = o' := Option.some.inj (ho.symm.trans ho')
      refine (hdone fun hgrey => ?_).2 b hmem hnew
      obtain ⟨hp, hearly⟩ := (hout.grey_iff hd).mp hgrey
      exact hthrough.elim hp hearly

end Meeting

section Runs

variable {m : Places D} {s : State D hash}

lemma follows_iff {op : Op D} (hsound : Sound m s op) (hok : (step m s op).isSome = true) :
    Follows m s op ↔ Divides m s op := by
  cases op with
  | new old header length => exact Iff.rfl
  | store slot values => exact Iff.rfl
  | collect forcePromote roots =>
    rw [step, isSome_map] at hok
    obtain ⟨t, ht⟩ := isSome_iff_exists.mp hok
    obtain ⟨hmet, hpromoted⟩ := scavenge_spec hsound ht
    have hdue : ∀ a, ((Promotes (located m s.heap) roots s.records.recorded
        (promoteLevel m s forcePromote) a ↔ forcePromote = true ∨ Aged m s a ∨ Remembered s a)
        ↔ (Remembered s a → some a ∈ roots →
            (located m s.heap).raw a < promoteLevel m s forcePromote)
          ∧ (¬ Remembered s a → ((located m s.heap).raw a < promoteLevel m s forcePromote
            ↔ forcePromote = true ∨ Aged m s a))) := by
      intro a
      have hremembered : (∃ slot ∈ s.records.recorded,
          (located m s.heap).load slot = some (some a)) ↔ Remembered s a := Iff.rfl
      rw [Promotes, hremembered]
      tauto
    constructor
    · intro hfollows a ha
      obtain ⟨d, hd⟩ := ne_none_iff_exists'.mp ((hmet a).mpr ha)
      rw [← hdue, ← hpromoted a d hd]
      exact hfollows t ht a d hd
    · intro hdivides t' ht' a d hd
      obtain rfl : t = t' := Option.some.inj (ht.symm.trans ht')
      rw [hpromoted a d hd, hdue]
      exact hdivides a ((hmet a).mp (by simp [hd]))

end Runs

/-- For every placement of the two areas and every sequence of allocations, stores and collections:
if each collection starts soundly and the level divides the objects that it meets by their age, all
collections promote by age; and among sound ones no others do. -/
theorem promotion_by_age (m : Places D) (original : Bool) (bucketsShift : ℕ) (ops : List (Op D)) :
    (EachStep (step m) (fun s op => Sound m s op ∧ Divides m s op)
        (start original bucketsShift : State D hash) ops →
      EachStep (step m) (Follows m) (start original bucketsShift : State D hash) ops)
    ∧ (EachStep (step m) (Sound m) (start original bucketsShift : State D hash) ops →
      EachStep (step m) (Follows m) (start original bucketsShift : State D hash) ops →
      EachStep (step m) (Divides m) (start original bucketsShift : State D hash) ops) := by
  constructor
  · intro h bs op s t hprefix hs ht
    obtain ⟨hsound, hdivides⟩ := h bs op s t hprefix hs ht
    exact (follows_iff hsound (by rw [ht]; rfl)).mpr hdivides
  · intro hsound hfollows bs op s t hprefix hs ht
    exact (follows_iff (hsound bs op s t hprefix hs ht) (by rw [ht]; rfl)).mp
      (hfollows bs op s t hprefix hs ht)

def below : Places Unit :=
  ⟨fun area => if area then 1000 else 0, 100, 100, fun _ => 8, fun remaining size => size <
    4 * remaining⟩

theorem promoted_at_once :
    ¬ EachStep (step below) (Follows below) (start false 0 : State Unit fun _ => 0)
      [.new false () 0, .collect false [some (.semi false 0)]] := by
  intro h
  have hfollows := h [.new false () 0] (.collect false [some (.semi false 0)]) _ _
    (List.prefix_refl _) (by rfl) (by rfl)
  have hpromoted := (hfollows _ (by rfl) (.semi false 0) (.old 0) (by rfl)).mp rfl
  rcases hpromoted with hforced | ⟨hsize, -⟩ | ⟨slot, hslot, hload⟩
  · cases hforced
  · exact absurd hsize (by decide)
  · simp [start, RememberSet.mem_recorded, RememberSet.latest_empty] at hslot

end Mai.LangPromotion
